import Mathlib.Data.List.Perm.Basic
import Mathlib.Data.List.TakeWhile
import Mathlib.Tactic

/-!
# A place in a list

An iterator into a sequence, and what is done through it: the search for an element, and the loops
that swap the element with its neighbours until it is in order with them.

* `Cursor α`, `Cursor.toList`: a place, and the list it is in;
* `Cursor.find`: the first element with a property;
* `Cursor.moveLeft`, `Cursor.moveRight`: the element passes its neighbours as long as a relation with
  the next one holds;
* `Cursor.pairwise_moveRight_moveLeft`, `Cursor.pairwise_moveLeft_moveRight`: when the other elements are in
  order, a move in both directions puts the whole list in order;
* `Cursor.upperBound`: the place of a new element in an ordered list;
* `find?_eq_of_perm`: what a search by a key finds does not depend on the order of the list.
-/

namespace P2Player

variable {α β : Type*}

/-- A place in a list: the elements before it, the nearest first, the one there, and those after it. -/
structure Cursor (α : Type*) where
  left : List α
  focus : α
  right : List α

namespace Cursor

/-- The list. -/
def toList (c : Cursor α) : List α := c.left.reverse ++ c.focus :: c.right

/-- The list without the element at the place. -/
def others (c : Cursor α) : List α := c.left.reverse ++ c.right

/-- The list with another element at the place. -/
@[simps]
def set (c : Cursor α) (x : α) : Cursor α := { c with focus := x }

theorem toList_perm (c : Cursor α) : c.toList.Perm (c.focus :: c.others) := List.perm_middle

@[simp] theorem others_set (c : Cursor α) (x : α) : (c.set x).others = c.others := rfl

theorem length_toList (c : Cursor α) : c.toList.length = c.others.length + 1 :=
  c.toList_perm.length_eq

theorem others_eq_eraseIdx (c : Cursor α) : c.others = c.toList.eraseIdx c.left.length := by
  rw [toList, List.eraseIdx_append_of_length_le (by simp), List.length_reverse, Nat.sub_self]
  rfl

/-- An element that is replaced by one with the same value leaves the values as they are. -/
theorem map_toList_set (c : Cursor α) {x : α} {f : α → β} (h : f x = f c.focus) :
    (c.set x).toList.map f = c.toList.map f := by
  simp [toList, h]

/-- An element is erased, and another one replaced by one with the same value. -/
theorem map_eraseIdx_set (c : Cursor α) {o : Cursor α} (h : c.toList = o.toList) {x : α} {f : α → β}
    (hx : f x = f o.focus) :
    ((o.set x).toList.eraseIdx c.left.length).map f = c.others.map f := by
  rw [← List.eraseIdx_map, o.map_toList_set hx, ← h, List.eraseIdx_map, ← others_eq_eraseIdx]

theorem focus_eq_of_left_length {c o : Cursor α} (h : c.toList = o.toList)
    (hlength : c.left.length = o.left.length) : c.focus = o.focus := by
  have hlength' : c.left.reverse.length = o.left.reverse.length := by simpa using hlength
  exact (List.cons.inj (List.append_inj h hlength').2).1

/-- What is left of a list when an element is erased and another one replaced. -/
theorem exists_perm_eraseIdx_set {c o : Cursor α} (h : c.toList = o.toList)
    (hne : c.left.length ≠ o.left.length) :
    ∃ rest, c.toList.Perm (c.focus :: o.focus :: rest) ∧
      ∀ x, ((o.set x).toList.eraseIdx c.left.length).Perm (x :: rest) := by
  have herase : ∀ x, ((o.set x).toList.eraseIdx c.left.length) =
      (o.set x).toList.eraseIdx c.left.reverse.length := by simp
  have happend := h
  rw [toList, toList, List.append_eq_append_iff] at happend
  rcases happend with ⟨t, hleft, hright⟩ | ⟨t, hleft, hright⟩
  · cases t with
    | nil =>
      rw [List.append_nil] at hleft
      exact absurd (by simpa using (congrArg List.length hleft).symm) hne
    | cons y t =>
      obtain ⟨rfl, hrest⟩ := List.cons.inj hright
      have hrest : c.right = t ++ o.focus :: o.right := hrest
      refine ⟨c.left.reverse ++ (t ++ o.right), ?_, fun x => ?_⟩
      · refine c.toList_perm.trans (.cons _ ?_)
        rw [others, hrest, ← List.append_assoc, ← List.append_assoc]
        exact List.perm_middle
      · have hset : (o.set x).toList = c.left.reverse ++ c.focus :: (t ++ x :: o.right) := by
          rw [toList, set_left, hleft, List.append_assoc]
          rfl
        rw [herase, hset, List.eraseIdx_append_of_length_le le_rfl, Nat.sub_self, List.eraseIdx_cons_zero,
          ← List.append_assoc, ← List.append_assoc]
        exact List.perm_middle
  · cases t with
    | nil =>
      rw [List.append_nil] at hleft
      exact absurd (by simpa using congrArg List.length hleft) hne
    | cons y t =>
      obtain ⟨rfl, hrest⟩ := List.cons.inj hright
      have hrest : o.right = t ++ c.focus :: c.right := hrest
      refine ⟨o.left.reverse ++ (t ++ c.right), ?_, fun x => ?_⟩
      · refine c.toList_perm.trans (.cons _ ?_)
        rw [others, hleft, List.append_assoc, List.cons_append]
        exact List.perm_middle
      · have hset : (o.set x).toList = (o.left.reverse ++ x :: t) ++ c.focus :: c.right := by
          rw [toList, set_left, set_focus, set_right, hrest, List.append_assoc]
          rfl
        have hlength : c.left.reverse.length = (o.left.reverse ++ x :: t).length := by
          rw [hleft]
          simp
        rw [herase, hset, hlength, List.eraseIdx_append_of_length_le le_rfl, Nat.sub_self,
          List.eraseIdx_cons_zero, List.append_assoc, List.cons_append]
        exact List.perm_middle

/-! ### The search -/

/-- The first element with the property, behind the elements that are passed already. -/
def findFrom (p : α → Bool) : List α → List α → Option (Cursor α)
  | _, [] => none
  | left, x :: right => if p x then some ⟨left, x, right⟩ else findFrom p (x :: left) right

/-- `std::find_if`. -/
def find (p : α → Bool) (l : List α) : Option (Cursor α) := findFrom p [] l

variable {p : α → Bool} {l : List α} {c : Cursor α}

theorem findFrom_eq_some {left : List α} (hleft : ∀ y ∈ left, p y = false)
    (h : findFrom p left l = some c) :
    c.toList = left.reverse ++ l ∧ p c.focus = true ∧ ∀ y ∈ c.left, p y = false := by
  induction l generalizing left with
  | nil => cases h
  | cons x right ih =>
    rw [findFrom] at h
    split_ifs at h with hx
    · cases h
      exact ⟨rfl, hx, hleft⟩
    · have hc := ih (List.forall_mem_cons.2 ⟨by simpa using hx, hleft⟩) h
      rwa [List.reverse_cons, List.append_assoc] at hc

theorem findFrom_append {left mid right : List α} {x : α} (hmid : ∀ y ∈ mid, p y = false)
    (hx : p x = true) :
    findFrom p left (mid ++ x :: right) = some ⟨mid.reverse ++ left, x, right⟩ := by
  induction mid generalizing left with
  | nil => exact if_pos hx
  | cons y mid ih =>
    obtain ⟨hy, hmid⟩ := List.forall_mem_cons.1 hmid
    rw [List.cons_append, findFrom, hy, if_neg Bool.false_ne_true, ih hmid, List.reverse_cons,
      List.append_assoc]
    rfl

theorem find_eq_some_iff :
    find p l = some c ↔ c.toList = l ∧ p c.focus = true ∧ ∀ y ∈ c.left, p y = false := by
  constructor
  · exact findFrom_eq_some (by rintro _ ⟨⟩)
  · rintro ⟨rfl, hfocus, hleft⟩
    rw [find, toList, findFrom_append (by simpa using hleft) hfocus, List.reverse_reverse,
      List.append_nil]

theorem findFrom_eq_none {left : List α} : findFrom p left l = none ↔ ∀ x ∈ l, p x = false := by
  induction l generalizing left with
  | nil => simp [findFrom]
  | cons x right ih =>
    rw [findFrom]
    by_cases hx : p x = true
    · simp [hx]
    · rw [if_neg hx, ih, List.forall_mem_cons]
      simp [hx]

theorem toList_of_find (h : find p l = some c) : c.toList = l := (find_eq_some_iff.1 h).1

theorem focus_of_find (h : find p l = some c) : p c.focus = true := (find_eq_some_iff.1 h).2.1

/-- The search finds what the element is replaced by. -/
theorem find_set (h : find p l = some c) {x : α} (hx : p x = true) :
    find p (c.set x).toList = some (c.set x) :=
  find_eq_some_iff.2 ⟨rfl, hx, (find_eq_some_iff.1 h).2.2⟩

theorem find_eq_none : find p l = none ↔ ∀ x ∈ l, p x = false := findFrom_eq_none

theorem perm_of_find (h : find p l = some c) : l.Perm (c.focus :: c.others) :=
  toList_of_find h ▸ c.toList_perm

theorem exists_find_of_mem {x : α} (hx : x ∈ l) (hp : p x = true) : ∃ c, find p l = some c := by
  refine Option.ne_none_iff_exists'.1 fun h => ?_
  rw [find_eq_none.1 h x hx] at hp
  cases hp

/-! ### The moves -/

section Moves

variable (passes : α → α → Prop) [DecidableRel passes]

/-- The element passes those on its left as long as it may. -/
def goLeft (x : α) : List α → List α → Cursor α
  | [], right => ⟨[], x, right⟩
  | y :: left, right => if passes x y then goLeft x left (y :: right) else ⟨y :: left, x, right⟩

/-- The element passes those on its right as long as it may. -/
def goRight (x : α) : List α → List α → Cursor α
  | left, [] => ⟨left, x, []⟩
  | left, y :: right => if passes x y then goRight x (y :: left) right else ⟨left, x, y :: right⟩

/-- The swaps with the elements before. -/
def moveLeft (c : Cursor α) : Cursor α := goLeft passes c.focus c.left c.right

/-- The swaps with the elements after. -/
def moveRight (c : Cursor α) : Cursor α := goRight passes c.focus c.left c.right

variable {passes}

theorem goLeft_spec (x : α) (left right : List α) :
    (goLeft passes x left right).focus = x ∧
      (goLeft passes x left right).others = left.reverse ++ right := by
  induction left generalizing right with
  | nil => exact ⟨rfl, rfl⟩
  | cons y left ih =>
    rw [goLeft]
    split_ifs with hy
    · rw [(ih _).1, (ih _).2, List.reverse_cons, List.append_assoc]
      exact ⟨rfl, rfl⟩
    · exact ⟨rfl, rfl⟩

theorem goRight_spec (x : α) (left right : List α) :
    (goRight passes x left right).focus = x ∧
      (goRight passes x left right).others = left.reverse ++ right := by
  induction right generalizing left with
  | nil => exact ⟨rfl, rfl⟩
  | cons y right ih =>
    rw [goRight]
    split_ifs with hy
    · rw [(ih _).1, (ih _).2, List.reverse_cons, List.append_assoc]
      exact ⟨rfl, rfl⟩
    · exact ⟨rfl, rfl⟩

@[simp] theorem focus_moveLeft (c : Cursor α) : (c.moveLeft passes).focus = c.focus :=
  (goLeft_spec ..).1

@[simp] theorem focus_moveRight (c : Cursor α) : (c.moveRight passes).focus = c.focus :=
  (goRight_spec ..).1

@[simp] theorem others_moveLeft (c : Cursor α) : (c.moveLeft passes).others = c.others :=
  (goLeft_spec ..).2

@[simp] theorem others_moveRight (c : Cursor α) : (c.moveRight passes).others = c.others :=
  (goRight_spec ..).2

theorem moveLeft_perm (c : Cursor α) : (c.moveLeft passes).toList.Perm c.toList := by
  have h := (c.moveLeft passes).toList_perm
  rw [focus_moveLeft, others_moveLeft] at h
  exact h.trans c.toList_perm.symm

theorem moveRight_perm (c : Cursor α) : (c.moveRight passes).toList.Perm c.toList := by
  have h := (c.moveRight passes).toList_perm
  rw [focus_moveRight, others_moveRight] at h
  exact h.trans c.toList_perm.symm

end Moves

/-! ### The order -/

/-- The list is in order when the other elements are, and the element is in order with them. -/
theorem pairwise_toList {r : α → α → Prop} :
    c.toList.Pairwise r ↔
      c.others.Pairwise r ∧ (∀ y ∈ c.left, r y c.focus) ∧ ∀ y ∈ c.right, r c.focus y := by
  simp only [toList, others, List.pairwise_append, List.pairwise_cons, List.mem_reverse,
    List.mem_cons, forall_eq_or_imp]
  constructor
  · rintro ⟨hl, ⟨hr, hright⟩, hlr⟩
    exact ⟨⟨hl, hright, fun y hy => (hlr y hy).2⟩, fun y hy => (hlr y hy).1, hr⟩
  · rintro ⟨⟨hl, hright, hlr⟩, hleft, hr⟩
    exact ⟨hl, ⟨hr, hright⟩, fun y hy => ⟨hleft y hy, hlr y hy⟩⟩

section Order

variable {κ : Type*} [LinearOrder κ] {key : α → κ} {before after : α → α → Prop}
  [DecidableRel before] [DecidableRel after] (hbefore : ∀ x y, before x y ↔ key x < key y)
  (hafter : ∀ x y, after x y ↔ key y < key x)

include hbefore in
theorem goLeft_left {x : α} {left right : List α}
    (h : (left.reverse ++ right).Pairwise fun a b => key a ≤ key b) :
    ∀ y ∈ (goLeft before x left right).left, key y ≤ key x := by
  induction left generalizing right with
  | nil => rintro _ ⟨⟩
  | cons y left ih =>
    rw [List.reverse_cons, List.append_assoc] at h
    rw [goLeft]
    split_ifs with hy
    · exact ih h
    · rw [hbefore, not_lt] at hy
      intro z hz
      rcases List.mem_cons.1 hz with rfl | hz
      · exact hy
      · have hzy := (List.pairwise_append.1 h).2.2 z (List.mem_reverse.2 hz) y (by simp)
        exact hzy.trans hy

include hbefore in
/-- The element is in order with those it has passed. -/
theorem goLeft_right {x : α} {left right : List α} (h : ∀ y ∈ right, key x ≤ key y) :
    ∀ y ∈ (goLeft before x left right).right, key x ≤ key y := by
  induction left generalizing right with
  | nil => exact h
  | cons y left ih =>
    rw [goLeft]
    split_ifs with hy
    · exact ih (List.forall_mem_cons.2 ⟨((hbefore x y).1 hy).le, h⟩)
    · exact h

include hafter in
theorem goRight_right {x : α} {left right : List α}
    (h : (left.reverse ++ right).Pairwise fun a b => key a ≤ key b) :
    ∀ y ∈ (goRight after x left right).right, key x ≤ key y := by
  induction right generalizing left with
  | nil => rintro _ ⟨⟩
  | cons y right ih =>
    rw [goRight]
    split_ifs with hy
    · refine ih ?_
      rwa [List.reverse_cons, List.append_assoc]
    · rw [hafter, not_lt] at hy
      have hright := List.pairwise_cons.1 (List.pairwise_append.1 h).2.1
      intro z hz
      rcases List.mem_cons.1 hz with rfl | hz
      · exact hy
      · exact hy.trans (hright.1 z hz)

include hafter in
theorem goRight_left {x : α} {left right : List α} (h : ∀ y ∈ left, key y ≤ key x) :
    ∀ y ∈ (goRight after x left right).left, key y ≤ key x := by
  induction right generalizing left with
  | nil => exact h
  | cons y right ih =>
    rw [goRight]
    split_ifs with hy
    · exact ih (List.forall_mem_cons.2 ⟨((hafter x y).1 hy).le, h⟩)
    · exact h

/-- `std::upper_bound`, as the place of a new element: behind all those that are not greater. -/
def upperBound (key : α → κ) (x : α) (l : List α) : Cursor α :=
  ⟨(l.takeWhile fun y => key y ≤ key x).reverse, x, l.dropWhile fun y => key y ≤ key x⟩

theorem upperBound_perm (x : α) (l : List α) : (upperBound key x l).toList.Perm (x :: l) := by
  refine (toList_perm _).trans (.cons _ ?_)
  rw [others, upperBound, List.reverse_reverse, List.takeWhile_append_dropWhile]

/-- In an ordered list a search that stops at the first greater element misses none. -/
theorem takeWhile_eq_filter (k : κ) {l : List α} (h : l.Pairwise fun a b => key a ≤ key b) :
    (l.takeWhile fun y => key y ≤ k) = l.filter fun y => key y ≤ k := by
  induction l with
  | nil => rfl
  | cons y l ih =>
    obtain ⟨hy, hl⟩ := List.pairwise_cons.1 h
    by_cases hyk : key y ≤ k
    · rw [List.takeWhile_cons_of_pos (by simpa using hyk), List.filter_cons_of_pos (by simpa using hyk),
        ih hl]
    · rw [List.takeWhile_cons_of_neg (by simpa using hyk), List.filter_cons_of_neg (by simpa using hyk),
        List.filter_eq_nil_iff.2]
      intro z hz hzk
      exact hyk ((hy z hz).trans (by simpa using hzk))

/-- In an ordered list the new element is in order. -/
theorem pairwise_upperBound {x : α} {l : List α} (h : l.Pairwise fun a b => key a ≤ key b) :
    (upperBound key x l).toList.Pairwise fun a b => key a ≤ key b := by
  refine pairwise_toList.2 ⟨?_, fun y hy => ?_, fun y hy => ?_⟩
  · rwa [others, upperBound, List.reverse_reverse, List.takeWhile_append_dropWhile]
  · have hy : y ∈ (l.takeWhile fun y => key y ≤ key x).reverse := hy
    have hle := List.mem_takeWhile_imp (List.mem_reverse.1 hy)
    exact of_decide_eq_true hle
  · have hdrop := h.sublist (List.dropWhile_sublist (fun y => decide (key y ≤ key x)))
    have hhead := List.head?_dropWhile_not (fun y => decide (key y ≤ key x)) l
    change y ∈ l.dropWhile _ at hy
    generalize l.dropWhile (fun y => decide (key y ≤ key x)) = after at hdrop hhead hy
    cases after with
    | nil => cases hy
    | cons z after =>
      have hz : key x ≤ key z := by simpa using (show key x < key z by simpa using hhead).le
      rcases List.mem_cons.1 hy with rfl | hy
      · exact hz
      · exact hz.trans ((List.pairwise_cons.1 hdrop).1 y hy)

variable (h : c.others.Pairwise fun a b => key a ≤ key b)

include hbefore hafter h

/-- A move to the left and then to the right puts the list in order. -/
theorem pairwise_moveRight_moveLeft :
    ((c.moveLeft before).moveRight after).toList.Pairwise fun a b => key a ≤ key b := by
  have hleft : ∀ y ∈ (c.moveLeft before).left, key y ≤ key (c.moveLeft before).focus := by
    rw [focus_moveLeft]
    exact goLeft_left hbefore h
  have hothers : (c.moveLeft before).others.Pairwise fun a b => key a ≤ key b := by
    rwa [others_moveLeft]
  refine pairwise_toList.2 ⟨by rwa [others_moveRight], ?_, ?_⟩
  · rw [focus_moveRight]
    exact goRight_left hafter hleft
  · rw [focus_moveRight]
    exact goRight_right hafter hothers

/-- A move to the right and then to the left puts the list in order. -/
theorem pairwise_moveLeft_moveRight :
    ((c.moveRight after).moveLeft before).toList.Pairwise fun a b => key a ≤ key b := by
  have hright : ∀ y ∈ (c.moveRight after).right, key (c.moveRight after).focus ≤ key y := by
    rw [focus_moveRight]
    exact goRight_right hafter h
  have hothers : (c.moveRight after).others.Pairwise fun a b => key a ≤ key b := by
    rwa [others_moveRight]
  refine pairwise_toList.2 ⟨by rwa [others_moveLeft], ?_, ?_⟩
  · rw [focus_moveLeft]
    exact goLeft_left hbefore hothers
  · rw [focus_moveLeft]
    exact goLeft_right hbefore hright

omit hafter in
/-- An element that has moved to the left is in order without a move to the right. -/
theorem pairwise_moveLeft (hmoved : (c.moveLeft before).left ≠ c.left) :
    (c.moveLeft before).toList.Pairwise fun a b => key a ≤ key b := by
  have hothers : (c.moveLeft before).others.Pairwise fun a b => key a ≤ key b := by
    rwa [others_moveLeft]
  refine pairwise_toList.2 ⟨hothers, ?_, ?_⟩
  · rw [focus_moveLeft]
    exact goLeft_left hbefore h
  · rw [focus_moveLeft]
    obtain ⟨left, x, right⟩ := c
    cases left with
    | nil => exact absurd rfl hmoved
    | cons y left =>
      unfold moveLeft goLeft at hmoved ⊢
      dsimp only at hmoved ⊢
      by_cases hy : before x y
      · rw [if_pos hy]
        -- the first element that is passed comes before all those on the right
        have hkey := ((hbefore x y).1 hy).le
        rw [others, List.reverse_cons, List.append_assoc] at h
        have hright := List.pairwise_cons.1 (List.pairwise_append.1 h).2.1
        exact goLeft_right hbefore
          (List.forall_mem_cons.2 ⟨hkey, fun z hz => hkey.trans (hright.1 z hz)⟩)
      · rw [if_neg hy] at hmoved
        exact absurd rfl hmoved

end Order

end Cursor

/-! ### Lookup by a key -/

/-- With distinct keys, what is found by a key does not depend on the order of the list. -/
theorem find?_eq_some_iff_of_nodup [DecidableEq β] {key : α → β} {l : List α} {k : β} {x : α}
    (h : (l.map key).Nodup) : l.find? (fun x => key x = k) = some x ↔ x ∈ l ∧ key x = k := by
  constructor
  · intro hx
    exact ⟨List.mem_of_find?_eq_some hx, by simpa using List.find?_some hx⟩
  · rintro ⟨hx, rfl⟩
    obtain ⟨y, hy⟩ : ∃ y, l.find? (fun y => key y = key x) = some y :=
      Option.isSome_iff_exists.1 (List.find?_isSome.2 ⟨x, hx, by simp⟩)
    have hkey : key y = key x := by simpa using List.find?_some hy
    rw [hy, List.inj_on_of_nodup_map h (List.mem_of_find?_eq_some hy) hx hkey]

theorem find?_eq_of_perm [DecidableEq β] {key : α → β} {l l' : List α} (h : (l.map key).Nodup)
    (hperm : l.Perm l') (k : β) :
    l.find? (fun x => key x = k) = l'.find? fun x => key x = k := by
  refine Option.ext fun x => ?_
  rw [find?_eq_some_iff_of_nodup h, find?_eq_some_iff_of_nodup ((hperm.map key).nodup_iff.1 h),
    hperm.mem_iff]

end P2Player
