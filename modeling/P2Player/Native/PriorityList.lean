import P2Player.Lib.Sections
import P2Player.Lib.Transition

/-!
# The pieces in the order of their priorities

The piece picker keeps the pieces that may be picked in `m_pieces`, sorted by a priority that depends on how
many peers have the piece.  `m_priority_boundries` tells where each priority ends, and each piece knows its
place.  When the priority of a piece changes, `add`, `remove` and `update` move one piece of each priority
in between.

* `PiecePos.priority`: the priority of a piece;
* `add`, `remove`, `update`: the moves; `addLoop_spec`, `removeLoop_spec`, `moveDownLoop_spec`: their loops;
* `PieceList.Sorted`: the list has the pieces that may be picked, in the order of their priorities;
* `listed_add`, `listed_remove`, `listed_update`: a move makes the list sorted by the new priorities.
-/

namespace P2Player.PriorityList

open Transition Sections

variable {n : ℕ}

/-- What `piece_pos` has besides `index`; `peer_count` has ten bits and `piece_priority` three. -/
structure PiecePos where
  peerCount : Fin 1024
  downloading : Bool
  piecePriority : Fin 8

/-- `m_pieces` and the `index` of each piece, which is `none` for `we_have_index`, and
`m_priority_boundries`. -/
structure PieceList (n : ℕ) where
  table : Table (Fin n)
  boundaries : List ℕ

/-- `piece_picker`, as far as the priorities go. -/
structure State (n : ℕ) where
  list : PieceList n
  pieceMap : Fin n → PiecePos
  seeds : ℕ
  dirty : Bool

/-- `piece_pos::priority`, `none` for -1. -/
def PiecePos.priority (p : PiecePos) (havePiece : Bool) (seeds : ℕ) : Option ℕ :=
  if p.piecePriority = 0 ∨ havePiece ∨ p.peerCount.val + seeds = 0 then none
  else if p.piecePriority = 7 then some (if p.downloading then 0 else 1)
  else
    let availability := if 4 ≤ p.piecePriority.val then p.peerCount.val / 2 else p.peerCount.val
    let q := if 4 ≤ p.piecePriority.val then p.piecePriority.val - 3 else p.piecePriority.val
    some (if p.downloading then availability * 4 else availability * 4 + 4 - q)

/-- `have`. -/
def State.havePiece (s : State n) (x : Fin n) : Bool := (s.list.table.pos x).isNone

/-- The priority of a piece. -/
def State.priority (s : State n) (x : Fin n) : Option ℕ :=
  (s.pieceMap x).priority (s.havePiece x) s.seeds

/-! ### The list -/

/-- `m_priority_boundries.resize`, where it is to be longer. -/
def PieceList.resize (l : PieceList n) (size : ℕ) : PieceList n :=
  { l with
    boundaries :=
      l.boundaries ++ List.replicate (size - l.boundaries.length) l.table.items.length }

/-- `priority_range`. -/
def PieceList.priorityRange (l : PieceList n) (prio : ℕ) : ℕ × ℕ :=
  (if prio = 0 then 0 else l.boundaries.getD (prio - 1) 0, l.boundaries.getD prio 0)

/-- The boundaries of the priorities from `first` until before `last` are changed. -/
def PieceList.shift (f : ℕ → ℕ) (first last : ℕ) (l : PieceList n) : List ℕ :=
  l.boundaries.take first ++ ((l.boundaries.take last).drop first).map f ++ l.boundaries.drop last

/-- The loop of `add` after a piece was put at `newIndex`, where it has displaced `index`, through the
boundaries of the priorities from there on. -/
def addLoop (index : Option (Fin n)) (newIndex : ℕ) : List ℕ → Table (Fin n) → Table (Fin n)
  | [], t => t
  | b :: bs, t =>
    if b = newIndex then addLoop index newIndex bs t
    else
      match index with
      | some x => addLoop t.items[b]? b bs (t.put b x)
      | none => t

/-- `add`.  What is displaced at the end is the -1 that `push_back` has put there. -/
def add (index : Fin n) (priority rand : ℕ) (l : PieceList n) : PieceList n :=
  let l := l.resize (priority + 1)
  let range := l.priorityRange priority
  let newIndex :=
    if range.2 = range.1 then range.1 else rand % (range.2 - range.1 + 1) + range.1
  ⟨addLoop l.table.items[newIndex]? newIndex (l.boundaries.drop priority) (l.table.put newIndex index),
    l.shift (· + 1) priority l.boundaries.length⟩

/-- The loop of `remove`. -/
def removeLoop (elemIndex : ℕ) : List ℕ → Table (Fin n) → ℕ × Table (Fin n)
  | [], t => (elemIndex, t)
  | b :: bs, t =>
    if b - 1 = elemIndex then removeLoop elemIndex bs t
    else
      match t.items[b - 1]? with
      | some piece => removeLoop (b - 1) bs (t.put elemIndex piece)
      | none => (elemIndex, t)

/-- `remove`. -/
def remove (priority elemIndex : ℕ) (l : PieceList n) : PieceList n :=
  let t := (removeLoop elemIndex (l.boundaries.drop priority) l.table).2
  ⟨{ t with items := t.items.dropLast }, l.shift (· - 1) priority l.boundaries.length⟩

/-- The loop of `update` towards a lower priority. -/
def moveDownLoop (elemIndex : ℕ) (temp : Fin n) : List ℕ → Table (Fin n) → ℕ × Table (Fin n)
  | [], t => (elemIndex, t)
  | newIndex :: bs, t =>
    match t.items[newIndex]? with
    | some piece =>
      if temp ≠ piece then moveDownLoop newIndex piece bs (t.put elemIndex piece)
      else moveDownLoop newIndex temp bs t
    | none => (elemIndex, t)

/-- The loop of `update` towards a higher priority. -/
def moveUpLoop (elemIndex : ℕ) (temp : Fin n) : List ℕ → Table (Fin n) → ℕ × Table (Fin n)
  | [], t => (elemIndex, t)
  | b :: bs, t =>
    match t.items[b - 1]? with
    | some piece =>
      if temp ≠ piece then moveUpLoop (b - 1) piece bs (t.put elemIndex piece)
      else moveUpLoop (b - 1) temp bs t
    | none => (elemIndex, t)

/-- `shuffle`. -/
def shuffle (priority elemIndex rand : ℕ) (l : PieceList n) : PieceList n :=
  let range := l.priorityRange priority
  let other := rand % (range.2 - range.1) + range.1
  if other = elemIndex then l else { l with table := l.table.swap other elemIndex }

/-- `update`. -/
def update (prio : Fin n → Option ℕ) (priority elemIndex rand : ℕ) (l : PieceList n) : PieceList n :=
  match l.table.items[elemIndex]? with
  | none => l
  | some index =>
    match prio index with
    | none => remove priority elemIndex l
    | some newPriority =>
      if newPriority = priority then l
      else
        let l := l.resize (newPriority + 1)
        if newPriority < priority then
          let visited := ((l.boundaries.take priority).drop newPriority).reverse
          let r := moveDownLoop elemIndex index visited l.table
          shuffle newPriority r.1 rand ⟨r.2.put r.1 index, l.shift (· + 1) newPriority priority⟩
        else
          let visited := (l.boundaries.take newPriority).drop priority
          let r := moveUpLoop elemIndex index visited l.table
          shuffle newPriority r.1 rand ⟨r.2.put r.1 index, l.shift (· - 1) priority newPriority⟩

section Loops

variable {T : List (List (Fin n))} {P F R w : List (Fin n)} {t : Table (Fin n)} {x h : Fin n}

theorem addLoop_same (index : Option (Fin n)) (b : ℕ) (bs : List ℕ) (t : Table (Fin n)) :
    addLoop index b (b :: bs) t = addLoop index b bs t := by
  cases index with
  | none => rw [addLoop, if_pos rfl]
  | some x => rw [addLoop, if_pos rfl]

theorem addLoop_of_ne {newIndex b : ℕ} (hb : b ≠ newIndex) (x : Fin n) (bs : List ℕ)
    (t : Table (Fin n)) :
    addLoop (some x) newIndex (b :: bs) t = addLoop t.items[b]? b bs (t.put b x) := by
  rw [addLoop, if_neg hb]

/-- A piece is put at the first place of the sections `T`, and from each of them the first piece goes to the
end. -/
theorem addLoop_spec (hitems : t.items = P ++ T.flatten) (hpos : Indexed t.pos 0 t.items)
    (hx : x ∉ t.items) :
    ∃ T' t', addLoop t.items[P.length]? P.length (ends P.length T) (t.put P.length x) = t' ∧
      List.Forall₂ List.Perm T T' ∧ t'.items = P ++ x :: T'.flatten ∧ Indexed t'.pos 0 t'.items ∧
        ∀ z, z ≠ x → z ∉ T.flatten → t'.pos z = t.pos z := by
  induction T generalizing P x t with
  | nil =>
    refine ⟨[], _, rfl, .nil, ?_, ?_, fun z hz _ => ?_⟩
    · exact Table.put_items hitems
    · exact Table.indexed_put hitems hpos hx
    · exact Function.update_of_ne hz ..
  | cons s T ih =>
    cases s with
    | nil =>
      -- the loop goes on to the next boundary at once
      obtain ⟨T', t', ht', hperm, h⟩ := ih hitems hpos hx
      refine ⟨[] :: T', t', ?_, .cons (.refl _) hperm, h⟩
      rw [ends_cons, List.length_nil, Nat.add_zero, addLoop_same]
      exact ht'
    | cons y s =>
      have hput := Table.put_items (x := x) hitems
      have hindexed := Table.indexed_put hitems hpos hx
      have hnodup := hpos.nodup
      rw [hitems] at hx hnodup
      have hlen : P.length + (y :: s).length = (P ++ x :: s).length := by simp
      have hget : t.items[P.length]? = some y := by
        rw [hitems]
        exact getElem?_length
      have hitems' : (t.put P.length x).items = P ++ x :: s ++ T.flatten := by
        rw [hput]
        simp
      have hy : y ∉ (t.put P.length x).items := by
        rw [hitems']
        rw [List.flatten_cons, List.cons_append] at hnodup
        have hnot := (List.nodup_cons.1 (List.nodup_middle.1 hnodup)).1
        simp only [List.mem_append, List.mem_cons, List.flatten_cons, not_or] at hx hnot ⊢
        exact ⟨⟨hnot.1, Ne.symm hx.2.1.1, hnot.2.1⟩, hnot.2.2⟩
      obtain ⟨T', t', ht', hperm, hitems'', hindexed', hframe⟩ := ih hitems' hindexed hy
      refine ⟨(s ++ [y]) :: T', t', ?_, .cons (List.perm_append_singleton y s).symm hperm, ?_, hindexed',
        fun z hz hzT => ?_⟩
      · rw [ends_cons, hlen, hget, addLoop_of_ne (by simp)]
        exact ht'
      · rw [hitems'']
        simp
      · simp only [List.flatten_cons, List.mem_append, List.mem_cons, not_or] at hzT
        rw [hframe z hzT.1.1 hzT.2]
        exact Function.update_of_ne hz ..

/-- One step to the right: the last piece of the section behind the hole at the end of `P` goes into the hole,
and the hole behind the section.  `update` finds out by the piece whether there is one. -/
theorem removeLoop_step (hitems : t.items = P ++ h :: (w ++ R)) (hP : Indexed t.pos 0 P)
    (hw : Indexed t.pos (P.length + 1) (w ++ R)) (bs : List ℕ) :
    ∃ w' t' h', removeLoop P.length ((P.length + 1 + w.length) :: bs) t =
        removeLoop (P ++ w').length bs t' ∧
      (h ∉ w ++ R → h' ∉ R ∧ moveUpLoop P.length h ((P.length + 1 + w.length) :: bs) t =
        moveUpLoop (P ++ w').length h' bs t') ∧
      w.Perm w' ∧ t'.items = P ++ w' ++ h' :: R ∧ Indexed t'.pos 0 (P ++ w') ∧
        Indexed t'.pos ((P ++ w').length + 1) R ∧ ∀ z, z ∉ w → t'.pos z = t.pos z := by
  rcases List.eq_nil_or_concat' w with rfl | ⟨w, y, rfl⟩
  · refine ⟨[], t, h, ?_, fun hh => ⟨hh, ?_⟩, .refl _, by simpa using hitems, by simpa using hP,
      by simpa using hw, fun z _ => rfl⟩
    · rw [removeLoop, if_pos (by simp), List.append_nil]
    · have hget : t.items[P.length]? = some h := by
        rw [hitems]
        exact getElem?_length
      rw [moveUpLoop, List.length_nil, Nat.add_zero, Nat.add_sub_cancel, hget]
      simp
  · have hlast : P.length + 1 + (w ++ [y]).length - 1 = (P ++ h :: w).length := by
      simp only [List.length_append, List.length_cons, List.length_nil]
      omega
    have hlen : (P ++ h :: w).length = (P ++ y :: w).length := by simp
    have hget : t.items[(P ++ h :: w).length]? = some y := by
      rw [hitems, show P ++ h :: (w ++ [y] ++ R) = P ++ h :: w ++ y :: R by simp]
      exact getElem?_length
    rw [List.append_assoc, indexed_append] at hw
    have hyP : y ∉ P := hP.disjoint hw.2 (by omega) List.mem_cons_self
    have hyw : y ∉ w := hw.1.disjoint hw.2 le_rfl List.mem_cons_self
    have hyR : y ∉ R := (List.nodup_cons.1 hw.2.nodup).1
    refine ⟨y :: w, t.put P.length y, y, ?_, fun hh => ⟨hyR, ?_⟩, List.perm_append_singleton y w, ?_, ?_, ?_,
      fun z hz => Function.update_of_ne (fun he => hz (by simp [he])) ..⟩
    · rw [removeLoop, if_neg (by simp; omega), hlast, hget, hlen]
    · have hne : h ≠ y := fun he => hh (by simp [he])
      rw [moveUpLoop, hlast, hget, hlen]
      simp only [ne_eq, hne, not_false_eq_true, ↓reduceIte]
    · rw [Table.put_items hitems]
      simp
    · rw [indexed_append, indexed_cons, Nat.zero_add]
      exact ⟨hP.update hyP _, Function.update_self .., hw.1.update hyw _⟩
    · rw [show (P ++ y :: w).length + 1 = P.length + 1 + w.length + 1 by simp; omega]
      exact (indexed_cons.1 hw.2).2.update hyR _

/-- The hole goes behind the sections `T`. -/
theorem removeLoop_spec (hitems : t.items = P ++ h :: (T.flatten ++ R)) (hP : Indexed t.pos 0 P)
    (hT : Indexed t.pos (P.length + 1) (T.flatten ++ R)) :
    ∃ T' t' h', removeLoop P.length (ends (P.length + 1) T) t = ((P ++ T'.flatten).length, t') ∧
      (h ∉ T.flatten ++ R →
        moveUpLoop P.length h (ends (P.length + 1) T) t = ((P ++ T'.flatten).length, t')) ∧
      List.Forall₂ List.Perm T T' ∧ t'.items = P ++ T'.flatten ++ h' :: R ∧
        Indexed t'.pos 0 (P ++ T'.flatten) ∧ Indexed t'.pos ((P ++ T'.flatten).length + 1) R ∧
          ∀ z, z ∉ T.flatten → t'.pos z = t.pos z := by
  induction T generalizing P h t with
  | nil =>
    refine ⟨[], t, h, ?_, fun _ => ?_, .nil, by simpa using hitems, by simpa using hP, by simpa using hT,
      fun z _ => rfl⟩
    · simp [removeLoop]
    · simp [moveUpLoop]
  | cons w T ih =>
    rw [List.flatten_cons, List.append_assoc] at hitems hT
    obtain ⟨w', t₁, h₁, hstep, hstep', hw, hitems₁, hP₁, hT₁, hframe₁⟩ := removeLoop_step hitems hP hT
      (ends (P.length + 1 + w.length) T)
    obtain ⟨T', t', h', hloop, hloop', hperm, hitems', hP', hR', hframe'⟩ := ih hitems₁ hP₁ hT₁
    have hlen : P.length + 1 + w.length = (P ++ w').length + 1 := by
      rw [List.length_append, hw.length_eq]
      omega
    refine ⟨w' :: T', t', h', ?_, fun hh => ?_, .cons hw hperm, ?_, ?_, ?_, fun z hz => ?_⟩
    · rw [ends_cons, hstep, hlen, hloop, List.flatten_cons, List.append_assoc]
    · rw [List.flatten_cons, List.append_assoc] at hh
      obtain ⟨hh₁, hstep'⟩ := hstep' hh
      rw [ends_cons, hstep', hlen, hloop' hh₁, List.flatten_cons, List.append_assoc]
    · rw [hitems', List.flatten_cons, ← List.append_assoc]
    · rwa [List.flatten_cons, ← List.append_assoc]
    · rwa [List.flatten_cons, ← List.append_assoc]
    · rw [List.flatten_cons, List.mem_append, not_or] at hz
      rw [hframe' z hz.2, hframe₁ z hz.1]

/-- One step to the left: the first piece of the section before the hole goes into the hole, and the hole before
the section. -/
theorem moveDownLoop_step (hitems : t.items = P ++ w ++ h :: R) (hP : Indexed t.pos 0 (P ++ w))
    (hR : Indexed t.pos ((P ++ w).length + 1) R) (hh : h ∉ P ++ w) (bs : List ℕ) :
    ∃ w' t' h', moveDownLoop (P ++ w).length h (P.length :: bs) t = moveDownLoop P.length h' bs t' ∧
      h' ∉ P ∧ w.Perm w' ∧ t'.items = P ++ h' :: (w' ++ R) ∧ Indexed t'.pos 0 P ∧
        Indexed t'.pos (P.length + 1) (w' ++ R) ∧ ∀ z, z ∉ w → t'.pos z = t.pos z := by
  have hget : t.items[P.length]? = (w ++ h :: R).head? := by
    rw [hitems, List.append_assoc]
    exact getElem?_length
  cases w with
  | nil =>
    rw [List.append_nil] at hitems hP hR hh
    refine ⟨[], t, h, ?_, hh, .refl _, hitems, hP, hR, fun z _ => rfl⟩
    rw [moveDownLoop, hget, List.append_nil]
    simp
  | cons y w =>
    have hne : h ≠ y := fun he => hh (by simp [he])
    have hlen : (P ++ y :: w).length = P.length + 1 + w.length := by simp; omega
    have hyR : y ∉ R := by
      obtain ⟨k, hk, hpos⟩ := hP.exists_pos (show y ∈ P ++ y :: w by simp)
      exact hR.notMem hpos (.inl (by omega))
    rw [indexed_append, indexed_cons, Nat.zero_add] at hP
    have hyP : y ∉ P := hP.1.notMem hP.2.1 (.inr (by omega))
    have hyw : y ∉ w := hP.2.2.notMem hP.2.1 (.inl (by omega))
    refine ⟨w ++ [y], t.put (P ++ y :: w).length y, y, ?_, hyP, (List.perm_append_singleton y w).symm,
      ?_, hP.1.update hyP _, ?_, fun z hz => Function.update_of_ne (fun he => hz (by simp [he])) ..⟩
    · rw [moveDownLoop, hget]
      simp only [List.cons_append, List.head?_cons, ne_eq, hne, not_false_eq_true, ↓reduceIte]
    · rw [Table.put_items hitems]
      simp
    · rw [List.append_assoc, indexed_append, List.singleton_append, indexed_cons, ← hlen]
      exact ⟨hP.2.2.update hyw _, Function.update_self .., hR.update hyR _⟩

/-- The hole goes before the sections `T`. -/
theorem moveDownLoop_spec (hitems : t.items = P ++ T.flatten ++ w ++ h :: R)
    (hP : Indexed t.pos 0 (P ++ T.flatten ++ w))
    (hR : Indexed t.pos ((P ++ T.flatten ++ w).length + 1) R) (hh : h ∉ P ++ T.flatten ++ w) :
    ∃ T' w' t' h', moveDownLoop (P ++ T.flatten ++ w).length h (P.length :: ends P.length T).reverse t =
        (P.length, t') ∧
      List.Forall₂ List.Perm T T' ∧ w.Perm w' ∧ t'.items = P ++ h' :: (T'.flatten ++ w' ++ R) ∧
        Indexed t'.pos 0 P ∧ Indexed t'.pos (P.length + 1) (T'.flatten ++ w' ++ R) ∧
          ∀ z, z ∉ T.flatten → z ∉ w → t'.pos z = t.pos z := by
  induction T using List.reverseRecOn generalizing w R h t with
  | nil =>
    rw [List.flatten_nil, List.append_nil] at hitems hP hR hh
    obtain ⟨w', t', h', hstep, -, hw, hitems', hP', hR', hframe⟩ := moveDownLoop_step hitems hP hR hh []
    refine ⟨[], w', t', h', ?_, .nil, hw, by simpa using hitems', hP', by simpa using hR',
      fun z _ => hframe z⟩
    rw [List.flatten_nil, List.append_nil]
    exact hstep
  | append_singleton T u ih =>
    obtain ⟨w', t₁, h₁, hstep, hh₁, hw, hitems₁, hP₁, hR₁, hframe₁⟩ := moveDownLoop_step hitems hP hR hh
      (P.length :: ends P.length T).reverse
    rw [List.flatten_append, List.flatten_singleton, ← List.append_assoc] at hitems₁ hP₁ hR₁ hh₁
    obtain ⟨T', u', t', h', hloop, hperm, hu, hitems', hP', hR', hframe'⟩ := ih hitems₁ hP₁ hR₁ hh₁
    have hflatten : (T' ++ [u']).flatten ++ w' ++ R = T'.flatten ++ u' ++ (w' ++ R) := by simp
    refine ⟨T' ++ [u'], w', t', h', ?_, List.rel_append hperm (.cons hu .nil), hw, ?_, hP', ?_,
      fun z hz hzw => ?_⟩
    · have hbounds : (P.length :: ends P.length (T ++ [u])).reverse =
          (P ++ (T ++ [u]).flatten).length :: (P.length :: ends P.length T).reverse := by
        rw [ends_append, ends_cons, ends_nil, ← List.cons_append, List.reverse_append,
          List.reverse_singleton, List.singleton_append, List.flatten_append, List.flatten_singleton,
          List.length_append, List.length_append, Nat.add_assoc]
      rw [hbounds, hstep, List.flatten_append, List.flatten_singleton, ← List.append_assoc, hloop]
    · rw [hitems', hflatten]
    · rwa [hflatten]
    · rw [List.flatten_append, List.flatten_singleton, List.mem_append, not_or] at hz
      rw [hframe' z hz.1 hz.2, hframe₁ z hzw]

end Loops

/-! ### One change of a priority -/

/-- The list is in sections, sorted by the priorities. -/
def PieceList.Sorted (prio : Fin n → Option ℕ) (l : PieceList n) : Prop :=
  ∃ S, Listed prio l.table l.boundaries S

/-- A place is recorded only for pieces that are in the list afterwards. -/
def Keeps (l l' : PieceList n) : Prop :=
  ∀ z, z ∉ l'.table.items → l'.table.pos z = l.table.pos z

section Changes

variable {prio : Fin n → Option ℕ} {l : PieceList n} {S A B T : List (List (Fin n))} {s : List (Fin n)}
  {x : Fin n} {p k : ℕ}

theorem listed_resize (h : Listed prio l.table l.boundaries S) (size : ℕ) :
    ∃ S', Listed prio (l.resize size).table (l.resize size).boundaries S' ∧ size ≤ S'.length := by
  refine ⟨S ++ List.replicate (size - l.boundaries.length) [], ⟨?_, ?_, h.indexed,
    h.sorted.append_replicate _⟩, ?_⟩
  · rw [List.flatten_append, List.flatten_replicate_nil, List.append_nil]
    exact h.items
  · rw [ends_append, ends_replicate, ← h.bounds, ← h.items, Nat.zero_add]
    rfl
  · rw [List.length_append, List.length_replicate, h.bounds, length_ends]
    omega

theorem exists_split (hp : p < S.length) : ∃ A s T, S = A ++ s :: T ∧ A.length = p :=
  ⟨S.take p, S[p], S.drop (p + 1), by rw [List.getElem_cons_drop, List.take_append_drop],
    List.length_take_of_le hp.le⟩

theorem priorityRange_eq (h : l.boundaries = ends 0 (A ++ s :: T)) :
    l.priorityRange A.length = (A.flatten.length, A.flatten.length + s.length) := by
  have hlast : l.boundaries.getD A.length 0 = A.flatten.length + s.length := by
    rw [List.getD_eq_getElem?_getD, h, getElem?_ends (by simp)]
    simp
  unfold PieceList.priorityRange
  rw [hlast]
  rcases List.eq_nil_or_concat' A with rfl | ⟨A, u, rfl⟩
  · rfl
  · rw [if_neg (by simp), List.getD_eq_getElem?_getD, h, getElem?_ends (by simp)]
    simp

/-- The boundaries of the sections `B` are changed. -/
theorem shift_eq (h : l.boundaries = ends 0 (A ++ B ++ T)) (f : ℕ → ℕ) :
    l.shift f A.length (A ++ B).length =
      ends 0 A ++ (ends A.flatten.length B).map f ++ ends (A ++ B).flatten.length T := by
  have hlast : (ends 0 (A ++ B)).length = (A ++ B).length := length_ends
  unfold PieceList.shift
  rw [h, ends_append, List.take_left' hlast, List.drop_left' hlast, Nat.zero_add, ends_append, Nat.zero_add,
    List.append_assoc (ends 0 A), List.take_left' length_ends, List.drop_left' length_ends]

/-- The boundaries from a priority on. -/
theorem drop_boundaries (h : l.boundaries = ends 0 (A ++ T)) :
    l.boundaries.drop A.length = ends A.flatten.length T := by
  rw [h, ends_append, List.drop_left' length_ends, Nat.zero_add]

/-- The boundaries of the sections `B`. -/
theorem take_boundaries (h : l.boundaries = ends 0 (A ++ B ++ T)) :
    (l.boundaries.take (A ++ B).length).drop A.length = ends A.flatten.length B := by
  have hlast : (ends 0 (A ++ B)).length = (A ++ B).length := length_ends
  rw [h, ends_append, List.take_left' hlast, ends_append, List.drop_left' length_ends, Nat.zero_add]

/-- A piece that is not in the list is added. -/
theorem listed_add (h : Listed prio l.table l.boundaries S) (hx : prio x = none) (p rand : ℕ) :
    (add x p rand l).Sorted (Function.update prio x (some p)) ∧ Keeps l (add x p rand l) := by
  obtain ⟨S₁, h₁, hlen⟩ := listed_resize h (p + 1)
  obtain ⟨A, s, T, rfl, rfl⟩ := exists_split hlen
  have hnot : x ∉ l.table.items := fun hmem => by
    obtain ⟨q, hq⟩ := h.mem_items.1 hmem
    rw [hx] at hq
    cases hq
  unfold add
  dsimp only
  rw [priorityRange_eq h₁.bounds]
  -- the place is somewhere in the section or behind it
  obtain ⟨r, hr, hnew⟩ : ∃ r ≤ s.length, (if A.flatten.length + s.length = A.flatten.length then
      A.flatten.length else rand % (A.flatten.length + s.length - A.flatten.length + 1) +
        A.flatten.length) = (A.flatten ++ s.take r).length := by
    split_ifs with hempty
    · exact ⟨0, by omega, by simp⟩
    · have hlt := Nat.mod_lt rand (show 0 < A.flatten.length + s.length - A.flatten.length + 1 by omega)
      refine ⟨_, Nat.le_of_lt_succ (hlt.trans_eq (by omega)), ?_⟩
      rw [List.length_append, List.length_take_of_le (by omega), Nat.add_comm]
  dsimp only
  have hitems : (l.resize (A.length + 1)).table.items =
      A.flatten ++ s.take r ++ (s.drop r :: T).flatten := by
    rw [h₁.items, List.flatten_append, List.flatten_cons, List.flatten_cons, List.append_assoc,
      ← List.append_assoc (s.take r), List.take_append_drop]
  have hends : ends A.flatten.length (s :: T) = ends (A.flatten ++ s.take r).length (s.drop r :: T) := by
    rw [ends_cons, ends_cons, List.length_append, List.length_take_of_le hr, List.length_drop,
      show A.flatten.length + r + (s.length - r) = A.flatten.length + s.length by omega]
  obtain ⟨T₁, t', hloop, hperm, hitems', hindexed, hframe⟩ := addLoop_spec hitems h₁.indexed hnot
  have hshift := shift_eq (B := s :: T) (T := []) (by rw [List.append_nil]; exact h₁.bounds) (· + 1)
  have hlength : (l.resize (A.length + 1)).boundaries.length = (A ++ s :: T).length := by
    rw [h₁.bounds, length_ends]
  rw [hnew, drop_boundaries h₁.bounds, hends, hloop, hlength, hshift]
  cases hperm with
  | @cons _ s' _ T' hs hT =>
    refine ⟨⟨A ++ (s.take r ++ x :: s') :: T', ?_, ?_, hindexed, ?_⟩, fun z hz => ?_⟩
    · rw [hitems']
      simp
    · have hs' := hs.length_eq
      rw [ends_nil, List.append_nil, map_succ_ends, ends_append, Nat.zero_add, ends_cons, ends_cons,
        ends_congr hT]
      simp only [List.length_append, List.length_cons, List.length_take, List.length_drop] at hs' ⊢
      rw [show A.flatten.length + 1 + s.length =
        A.flatten.length + (min r s.length + (s'.length + 1)) by omega]
    · refine (h₁.sorted.insert hx).congr (List.rel_append (forall₂_perm_refl A) (.cons ?_ hT))
      refine ((List.Perm.of_eq (List.take_append_drop r s).symm).trans (hs.append_left _)).cons x |>.trans ?_
      exact List.perm_middle.symm
    · have hperm' := flatten_perm (.cons hs hT)
      rw [hitems'] at hz
      simp only [List.mem_append, List.mem_cons, not_or] at hz
      exact hframe z hz.2.1 fun hmem => hz.2.2 (hperm'.mem_iff.1 hmem)

/-- The `index` of a piece is set. -/
def PieceList.setIndex (l : PieceList n) (x : Fin n) (i : Option ℕ) : PieceList n :=
  { l with table := ⟨l.table.items, Function.update l.table.pos x i⟩ }

/-- A piece is taken off the list, where its `index` may be set before. -/
theorem listed_remove (h : Listed prio l.table l.boundaries S) (hx : prio x = some p)
    (hk : l.table.pos x = some k) (i : Option ℕ) :
    (remove p k (l.setIndex x i)).Sorted (Function.update prio x none) ∧
      Keeps (l.setIndex x i) (remove p k (l.setIndex x i)) := by
  obtain ⟨A, s₁, s₂, T, rfl, rfl, hpos⟩ := h.split hx
  obtain rfl := Option.some.inj (hk.symm.trans hpos)
  have hitems : (l.setIndex x i).table.items = A.flatten ++ s₁ ++ x :: ((s₂ :: T).flatten ++ []) := by
    rw [PieceList.setIndex, h.items, flatten_split, List.append_nil, List.flatten_cons]
  have hindexed := h.indexed
  have hnot := (List.nodup_cons.1 (List.nodup_middle.1 ((h.items.trans flatten_split) ▸
    h.indexed.nodup))).1
  rw [List.mem_append, not_or] at hnot
  rw [h.items, flatten_split, indexed_append, indexed_cons, Nat.zero_add, ← List.flatten_cons] at hindexed
  have hends : ends A.flatten.length ((s₁ ++ x :: s₂) :: T) =
      ends ((A.flatten ++ s₁).length + 1) (s₂ :: T) := by
    rw [ends_section_cons, List.length_append]
  obtain ⟨T₁, t', h', hloop, -, hperm, hitems', hP', -, hframe⟩ :=
    removeLoop_spec hitems (hindexed.1.update hnot.1 i)
      (by rw [List.append_nil]; exact hindexed.2.2.update hnot.2 i)
  have hbounds : (l.setIndex x i).boundaries = ends 0 (A ++ (s₁ ++ x :: s₂) :: T) := h.bounds
  have hshift := shift_eq (B := (s₁ ++ x :: s₂) :: T) (T := [])
    (by rw [List.append_nil]; exact hbounds) (· - 1)
  unfold remove
  rw [drop_boundaries hbounds, hends, ← List.length_append, hloop, hbounds, length_ends, hshift]
  dsimp only
  have hitems₁ : t'.items.dropLast = A.flatten ++ s₁ ++ T₁.flatten := by
    rw [hitems', List.dropLast_concat]
  cases hperm with
  | @cons _ s' _ T' hs hT =>
    refine ⟨⟨A ++ (s₁ ++ s') :: T', ?_, ?_, ?_, ?_⟩, fun z hz => ?_⟩
    · dsimp only
      rw [hitems₁]
      simp
    · rw [hends, map_pred_ends, ends_nil, List.append_nil, ends_append, Nat.zero_add, ends_section,
        List.length_append, ends_congr (.cons hs hT)]
    · rw [hitems₁]
      exact hP'
    · refine (h.sorted.erase ?_).congr (List.rel_append (forall₂_perm_refl A) (.cons (hs.append_left _) hT))
      simp only [List.mem_append, not_or] at hnot ⊢
      exact ⟨hnot.1.2, hnot.2.1⟩
    · dsimp only at hz ⊢
      rw [hitems₁, List.mem_append, not_or] at hz
      exact hframe z fun hmem => hz.2 ((flatten_perm (.cons hs hT)).mem_iff.1 hmem)

/-- A piece is exchanged with another one of its priority. -/
theorem listed_shuffle (h : Listed prio l.table l.boundaries S) (hx : prio x = some p)
    (hk : l.table.pos x = some k) (rand : ℕ) :
    (shuffle p k rand l).Sorted prio ∧ Keeps l (shuffle p k rand l) := by
  obtain ⟨A, s₁, s₂, T, rfl, rfl, hpos⟩ := h.split hx
  obtain rfl := Option.some.inj (hk.symm.trans hpos)
  unfold shuffle
  rw [priorityRange_eq h.bounds]
  dsimp only
  split_ifs with hother
  · exact ⟨⟨_, h⟩, fun z _ => rfl⟩
  · have hitems : l.table.items = A.flatten ++ ((s₁ ++ x :: s₂) ++ T.flatten) := by
      rw [h.items, List.flatten_append, List.flatten_cons]
    have hlt := Nat.mod_lt rand (show 0 < A.flatten.length + (s₁ ++ x :: s₂).length - A.flatten.length by
      simp)
    rw [Nat.add_comm] at hother
    obtain ⟨s', hitems', hperm, hindexed, hframe⟩ := Table.swap_spec hitems h.indexed
      (show rand % (A.flatten.length + (s₁ ++ x :: s₂).length - A.flatten.length) <
        (s₁ ++ x :: s₂).length by omega) (show s₁.length < (s₁ ++ x :: s₂).length by simp) (by omega)
    rw [Nat.add_comm] at hitems' hindexed hframe
    have hperms : List.Forall₂ List.Perm (A ++ (s₁ ++ x :: s₂) :: T) (A ++ s' :: T) :=
      List.rel_append (forall₂_perm_refl A) (.cons hperm (forall₂_perm_refl T))
    refine ⟨⟨A ++ s' :: T, ?_, ?_, hindexed, h.sorted.congr hperms⟩, fun z hz => hframe z ?_⟩
    · rw [hitems', List.flatten_append, List.flatten_cons]
    · rw [← ends_congr hperms]
      exact h.bounds
    · dsimp only at hz
      rw [hitems'] at hz
      rw [hitems]
      exact fun hmem => hz (((hperm.append_right _).append_left _).mem_iff.1 hmem)

/-- After a piece has moved to another section, it is exchanged with a piece there. -/
theorem listed_moved {q : ℕ} (l' : PieceList n) (h : Listed (Function.update prio x (some q)) l'.table
    l'.boundaries S) (hk : l'.table.pos x = some k) (hkeeps : Keeps l l') (rand : ℕ) :
    (shuffle q k rand l').Sorted (Function.update prio x (some q)) ∧ Keeps l (shuffle q k rand l') := by
  obtain ⟨⟨S', h'⟩, hkeeps'⟩ := listed_shuffle h (Function.update_self ..) hk rand
  refine ⟨⟨S', h'⟩, fun z hz => (hkeeps' z hz).trans (hkeeps z fun hmem => hz ?_)⟩
  exact h'.mem_items.2 (h.mem_items.1 hmem)

/-- A piece is moved to a lower priority. -/
theorem listed_moveDown {s₁ s₂ u : List (Fin n)}
    (h : Listed prio l.table l.boundaries (A ++ u :: B ++ (s₁ ++ x :: s₂) :: T)) (rand : ℕ) :
    let p := (A ++ u :: B).length
    let r := moveDownLoop ((A ++ u :: B).flatten.length + s₁.length) x
      ((l.boundaries.take p).drop A.length).reverse l.table
    let l' := shuffle A.length r.1 rand ⟨r.2.put r.1 x, l.shift (· + 1) A.length p⟩
    l'.Sorted (Function.update prio x (some A.length)) ∧ Keeps l l' := by
  have hflatten : (A ++ u :: B).flatten ++ s₁ = A.flatten ++ u ++ B.flatten ++ s₁ := by simp
  have hitems : l.table.items = A.flatten ++ u ++ B.flatten ++ s₁ ++ x :: (s₂ ++ T.flatten) := by
    rw [h.items, flatten_split, hflatten]
  have hindexed := h.indexed
  rw [hitems, indexed_append, indexed_cons, Nat.zero_add] at hindexed
  have hnodup := List.nodup_cons.1 (List.nodup_middle.1 (hitems ▸ h.indexed.nodup))
  have hx := hnodup.1
  rw [List.mem_append, not_or] at hx
  obtain ⟨B', s', t', h', hloop, hB, hs, hitems', hP', hR', hframe⟩ :=
    moveDownLoop_spec hitems hindexed.1 hindexed.2.2 hx.1
  have hvisited : ((l.boundaries.take (A ++ u :: B).length).drop A.length).reverse =
      ((A.flatten ++ u).length :: ends (A.flatten ++ u).length B).reverse := by
    rw [take_boundaries h.bounds, ends_cons, List.length_append]
  intro p r l'
  have hr : r = ((A.flatten ++ u).length, t') := by
    unfold r p
    rw [hvisited, ← List.length_append, hflatten, hloop]
  have hput := Table.put_items (x := x) hitems'
  have hrest : (B'.flatten ++ s' ++ (s₂ ++ T.flatten)).Perm (B.flatten ++ s₁ ++ (s₂ ++ T.flatten)) :=
    ((flatten_perm hB).symm.append hs.symm).append_right _
  simp only [List.mem_append, not_or] at hx
  have hmoved : Listed (Function.update prio x (some A.length)) (t'.put (A.flatten ++ u).length x)
      (l.shift (· + 1) A.length p) (A ++ (u ++ [x]) :: (B' ++ (s' ++ s₂) :: T)) := by
    refine ⟨?_, ?_, ?_, ?_⟩
    · rw [hput]
      simp
    · have hfirst : ends (A.flatten.length + 1) (u :: B) = ends A.flatten.length ((u ++ [x]) :: B') := by
        refine (ends_congr (.cons (.refl u) hB)).trans (ends_cons_congr ?_)
        rw [List.length_append, List.length_singleton]
        omega
      have hlast : ends (A ++ u :: B).flatten.length ((s₁ ++ x :: s₂) :: T) =
          ends (A.flatten.length + ((u ++ [x]) :: B').flatten.length) ((s' ++ s₂) :: T) := by
        have hB' := (flatten_perm hB).length_eq
        refine ends_cons_congr ?_
        simp only [List.flatten_append, List.flatten_cons, List.length_append, List.length_cons,
          List.length_nil, hs.length_eq, hB']
        omega
      rw [shift_eq h.bounds, map_succ_ends, hfirst, hlast, ends_append (S := A), Nat.zero_add,
        ← List.cons_append, ends_append (S := (u ++ [x]) :: B'), List.append_assoc]
    · rw [hput, Table.put_pos, indexed_append, List.tail_cons, indexed_cons, Nat.zero_add]
      refine ⟨hP'.update (by simp [hx]) _, Function.update_self .., hR'.update ?_ _⟩
      rw [hrest.mem_iff]
      simp only [List.mem_append, not_or]
      exact ⟨⟨hx.1.1.2, hx.1.2⟩, hx.2⟩
    · have herase := h.sorted.erase (by simp only [List.mem_append, not_or]; exact ⟨hx.1.2, hx.2.1⟩)
      rw [List.append_assoc, List.cons_append] at herase
      have hinsert := herase.insert (Function.update_self ..)
      rw [Function.update_idem] at hinsert
      exact hinsert.congr (List.rel_append (forall₂_perm_refl A)
        (.cons (List.perm_append_singleton x u).symm
          (List.rel_append hB (.cons (hs.append_right s₂) (forall₂_perm_refl T)))))
  unfold l'
  rw [hr]
  refine listed_moved ⟨_, _⟩ hmoved (Function.update_self ..) (fun z hz => ?_) rand
  change z ∉ (t'.put (A.flatten ++ u).length x).items at hz
  rw [hput, List.tail_cons] at hz
  simp only [List.mem_append, List.mem_cons, not_or] at hz
  refine (Function.update_of_ne hz.2.1 ..).trans ?_
  exact hframe z (fun hmem => hz.2.2.1.1 ((flatten_perm hB).mem_iff.1 hmem))
    fun hmem => hz.2.2.1.2 (hs.mem_iff.1 hmem)

/-- A piece is moved to a higher priority. -/
theorem listed_moveUp {s₁ s₂ u : List (Fin n)}
    (h : Listed prio l.table l.boundaries (A ++ (s₁ ++ x :: s₂) :: B ++ u :: T)) (rand : ℕ) :
    let q := (A ++ (s₁ ++ x :: s₂) :: B).length
    let r := moveUpLoop (A.flatten.length + s₁.length) x
      ((l.boundaries.take q).drop A.length) l.table
    let l' := shuffle q r.1 rand ⟨r.2.put r.1 x, l.shift (· - 1) A.length q⟩
    l'.Sorted (Function.update prio x (some q)) ∧ Keeps l l' := by
  have hitems : l.table.items = A.flatten ++ s₁ ++ x :: ((s₂ :: B).flatten ++ (u ++ T.flatten)) := by
    rw [h.items]
    simp
  have hindexed := h.indexed
  rw [hitems, indexed_append, indexed_cons, Nat.zero_add] at hindexed
  have hx := (List.nodup_cons.1 (List.nodup_middle.1 (hitems ▸ h.indexed.nodup))).1
  rw [List.mem_append, not_or] at hx
  obtain ⟨T₁, t', h', -, hloop, hperm, hitems', hP', hR', hframe⟩ :=
    removeLoop_spec hitems hindexed.1 hindexed.2.2
  have hloop := hloop hx.2
  have hends : ends A.flatten.length ((s₁ ++ x :: s₂) :: B) =
      ends ((A.flatten ++ s₁).length + 1) (s₂ :: B) := by
    rw [ends_section_cons, List.length_append]
  intro q r l'
  have hr : r = ((A.flatten ++ s₁ ++ T₁.flatten).length, t') := by
    unfold r q
    rw [take_boundaries h.bounds, hends, ← List.length_append, hloop]
  have hput := Table.put_items (x := x) hitems'
  have hT₁ := flatten_perm hperm
  simp only [List.mem_append, not_or] at hx
  have hxT₁ : x ∉ T₁.flatten := fun hmem => hx.2.1 (hT₁.mem_iff.2 hmem)
  obtain ⟨s', B', rfl, hs, hB⟩ : ∃ s' B', T₁ = s' :: B' ∧ s₂.Perm s' ∧ List.Forall₂ List.Perm B B' := by
    cases hperm with
    | cons hs hB => exact ⟨_, _, rfl, hs, hB⟩
  have hmoved : Listed (Function.update prio x (some q))
      (t'.put (A.flatten ++ s₁ ++ (s' :: B').flatten).length x) (l.shift (· - 1) A.length q)
      (A ++ (s₁ ++ s') :: B' ++ (x :: u) :: T) := by
    refine ⟨?_, ?_, ?_, ?_⟩
    · rw [hput]
      simp
    · have hfirst : (ends A.flatten.length ((s₁ ++ x :: s₂) :: B)).map (· - 1) =
          ends A.flatten.length ((s₁ ++ s') :: B') := by
        rw [hends, map_pred_ends, ends_section, List.length_append, ends_congr (.cons hs hB)]
      have hlast : ends (A ++ (s₁ ++ x :: s₂) :: B).flatten.length (u :: T) =
          ends (A.flatten.length + ((s₁ ++ s') :: B').flatten.length) ((x :: u) :: T) := by
        have hB' := (flatten_perm hB).length_eq
        refine ends_cons_congr ?_
        simp only [List.flatten_append, List.flatten_cons, List.length_append, List.length_cons,
          hs.length_eq, hB']
        omega
      rw [shift_eq h.bounds, hfirst, hlast, List.append_assoc A, ends_append (S := A), Nat.zero_add,
        ends_append (S := (s₁ ++ s') :: B'), List.append_assoc]
    · rw [hput, Table.put_pos, indexed_append, List.tail_cons, indexed_cons, Nat.zero_add]
      refine ⟨hP'.update ?_ _, Function.update_self .., hR'.update ?_ _⟩
      · simp only [List.mem_append, not_or]
        exact ⟨hx.1, hxT₁⟩
      · simp only [List.mem_append, not_or]
        exact hx.2.2
    · have hnot : x ∉ s₁ ++ s₂ := by
        simp only [List.mem_append, List.flatten_cons, not_or] at hx ⊢
        exact ⟨hx.1.2, hx.2.1.1⟩
      have hsorted := h.sorted
      rw [List.append_assoc, List.cons_append] at hsorted
      have herase := hsorted.erase hnot
      rw [← List.cons_append, ← List.append_assoc] at herase
      have hinsert := herase.insert (Function.update_self ..)
      rw [Function.update_idem] at hinsert
      have hlen : (A ++ (s₁ ++ s₂) :: B).length = q := by
        unfold q
        simp
      rw [hlen] at hinsert
      exact hinsert.congr (List.rel_append (List.rel_append (forall₂_perm_refl A)
        (.cons (hs.append_left s₁) hB)) (forall₂_perm_refl _))
  unfold l'
  rw [hr]
  refine listed_moved ⟨_, _⟩ hmoved (Function.update_self ..) (fun z hz => ?_) rand
  change z ∉ (t'.put (A.flatten ++ s₁ ++ (s' :: B').flatten).length x).items at hz
  rw [hput, List.tail_cons, List.mem_append, List.mem_append, List.mem_cons] at hz
  simp only [not_or] at hz
  refine (Function.update_of_ne hz.2.1 ..).trans ?_
  exact hframe z fun hmem => hz.1.2 (hT₁.mem_iff.1 hmem)

/-- The place of a piece is changed to that of its new priority. -/
theorem listed_update (h : Listed prio l.table l.boundaries S) (hx : prio x = some p)
    (hk : l.table.pos x = some k) (prio' : Fin n → Option ℕ) (rand : ℕ) :
    (update prio' p k rand l).Sorted (Function.update prio x (prio' x)) ∧
      Keeps l (update prio' p k rand l) := by
  have hget : l.table.items[k]? = some x := by
    obtain ⟨i, -, hpos, hi, -⟩ := h.between hx
    rw [hk, Option.some_inj] at hpos
    rwa [hpos]
  unfold update
  rw [hget]
  dsimp only
  cases hnew : prio' x with
  | none =>
    have hremove := listed_remove h hx hk (l.table.pos x)
    rwa [show l.setIndex x (l.table.pos x) = l by rw [PieceList.setIndex, Function.update_eq_self]]
      at hremove
  | some q =>
    dsimp only
    by_cases hsame : q = p
    · rw [if_pos hsame, hsame, ← hx, Function.update_eq_self]
      exact ⟨⟨S, h⟩, fun z _ => rfl⟩
    rw [if_neg hsame]
    obtain ⟨S₁, h₁, hlen⟩ := listed_resize h (q + 1)
    obtain ⟨C, s₁, s₂, T, rfl, rfl, hpos⟩ := h₁.split hx
    obtain rfl := Option.some.inj (hk.symm.trans hpos)
    by_cases hlt : q < C.length
    · obtain ⟨A, u, B, rfl, rfl⟩ := exists_split hlt
      rw [if_pos hlt]
      exact listed_moveDown h₁ rand
    · rw [if_neg hlt]
      -- the new section is one of those behind
      obtain ⟨B, u, T, rfl, hB⟩ := exists_split (show q - C.length - 1 < T.length by
        simp only [List.length_append, List.length_cons] at hlen
        omega)
      have hq : q = (C ++ (s₁ ++ x :: s₂) :: B).length := by
        rw [List.length_append, List.length_cons]
        omega
      rw [← List.cons_append, ← List.append_assoc] at h₁
      rw [hq]
      rw [hq] at h₁
      exact listed_moveUp h₁ rand

end Changes

end P2Player.PriorityList
