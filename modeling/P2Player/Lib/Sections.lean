import Mathlib.Tactic

/-!
# A list in consecutive sections whose elements know their positions

A list is cut into sections by the positions where they end, and a table tells for each element of the list
at which position it is.  An element is taken from one section to another by moving one element of each
section between them.

* `ends`: where the sections end;
* `Indexed`: the positions that are recorded are those in the list;
* `Table`: a list with the recorded positions, `Table.put` and `Table.swap`;
* `Sorted`: section `p` has the elements of priority `p`; with `Sorted.insert`, `Sorted.erase` and
  `Sorted.congr`;
* `Listed`: a table in sections, sorted by priority; `Listed.mem_items`, `Listed.pairwise` and `Listed.between`
  are what that means for the list itself.
-/

namespace P2Player.Sections

variable {α : Type*} {S T : List (List α)} {l l' P Q : List α} {pos : α → Option ℕ} {start k : ℕ} {x y : α}

/-! ### Where the sections end -/

/-- The ends of consecutive sections. -/
def ends (start : ℕ) : List (List α) → List ℕ
  | [] => []
  | l :: S => (start + l.length) :: ends (start + l.length) S

@[simp] theorem ends_nil : ends start ([] : List (List α)) = [] := rfl

theorem ends_cons : ends start (l :: S) = (start + l.length) :: ends (start + l.length) S := rfl

theorem ends_cons_congr {start' : ℕ} (h : start + l.length = start' + l'.length) :
    ends start (l :: S) = ends start' (l' :: S) := by
  rw [ends_cons, ends_cons, h]

/-- The first section may be taken to start later. -/
theorem ends_section : ends start ((l ++ l') :: S) = ends (start + l.length) (l' :: S) := by
  rw [ends_cons, ends_cons, List.length_append, Nat.add_assoc]

theorem ends_section_cons :
    ends start ((l ++ x :: l') :: S) = ends (start + l.length + 1) (l' :: S) := by
  rw [List.append_cons, ends_section, List.length_append, List.length_singleton, Nat.add_assoc]

@[simp] theorem length_ends : (ends start S).length = S.length := by
  induction S generalizing start with
  | nil => rfl
  | cons l S ih => rw [ends_cons, List.length_cons, ih, List.length_cons]

theorem ends_append : ends start (S ++ T) = ends start S ++ ends (start + S.flatten.length) T := by
  induction S generalizing start with
  | nil => rfl
  | cons l S ih =>
    rw [List.cons_append, ends_cons, ih, ends_cons, List.flatten_cons, List.length_append, Nat.add_assoc,
      List.cons_append]

theorem getElem?_ends {p : ℕ} (hp : p < S.length) :
    (ends start S)[p]? = some (start + (S.take (p + 1)).flatten.length) := by
  induction S generalizing start p with
  | nil => cases hp
  | cons l S ih =>
    rw [ends_cons]
    cases p with
    | zero => simp
    | succ p =>
      rw [List.getElem?_cons_succ, ih (by simpa using hp), List.take_succ_cons, List.flatten_cons,
        List.length_append, Nat.add_assoc]

theorem map_ends (f : ℕ → ℕ) (hf : ∀ i, f (start + i) = f start + i) :
    (ends start S).map f = ends (f start) S := by
  induction S generalizing start with
  | nil => rfl
  | cons l S ih =>
    rw [ends_cons, List.map_cons, ends_cons, hf, ih]
    · rw [hf]
    · intro i
      rw [Nat.add_assoc, hf, hf, Nat.add_assoc]

theorem map_succ_ends : (ends start S).map (· + 1) = ends (start + 1) S :=
  map_ends (· + 1) fun i => by omega

theorem map_pred_ends : (ends (start + 1) S).map (· - 1) = ends start S :=
  map_ends (· - 1) fun i => by omega

theorem ends_congr (h : List.Forall₂ List.Perm S T) : ends start S = ends start T := by
  induction h generalizing start with
  | nil => rfl
  | cons hl _ ih => rw [ends_cons, ends_cons, hl.length_eq, ih]

/-- Empty sections at the end. -/
theorem ends_replicate : ends start (List.replicate k ([] : List α)) = List.replicate k start := by
  induction k with
  | zero => rfl
  | succ k ih => rw [List.replicate_succ, ends_cons, List.length_nil, Nat.add_zero, ih, List.replicate_succ]

theorem flatten_split {A : List (List α)} :
    (A ++ (l ++ x :: l') :: T).flatten = A.flatten ++ l ++ x :: (l' ++ T.flatten) := by
  simp

theorem getElem?_length : (P ++ Q)[P.length]? = Q.head? := by
  rw [List.getElem?_append_right le_rfl, Nat.sub_self, List.head?_eq_getElem?]

theorem flatten_perm (h : List.Forall₂ List.Perm S T) : S.flatten.Perm T.flatten := by
  induction h with
  | nil => exact .refl _
  | cons hl _ ih => exact hl.append ih

theorem forall₂_perm_refl (S : List (List α)) : List.Forall₂ List.Perm S S :=
  List.forall₂_same.2 fun _ _ => .refl _

/-! ### Positions -/

/-- The recorded position of each element of the list, which starts at `start`. -/
def Indexed (pos : α → Option ℕ) (start : ℕ) (l : List α) : Prop :=
  ∀ k x, l[k]? = some x → pos x = some (start + k)

theorem indexed_nil : Indexed pos start [] := fun _ _ h => by simp at h

theorem indexed_cons : Indexed pos start (x :: l) ↔ pos x = some start ∧ Indexed pos (start + 1) l := by
  constructor
  · intro h
    refine ⟨h 0 x rfl, fun k y hk => ?_⟩
    rw [h (k + 1) y hk, Nat.add_assoc, Nat.add_comm 1]
  · rintro ⟨hx, h⟩ k y hk
    cases k with
    | zero =>
      cases hk
      exact hx
    | succ k => rw [h k y hk, Nat.add_assoc, Nat.add_comm 1]

theorem indexed_append :
    Indexed pos start (l ++ l') ↔ Indexed pos start l ∧ Indexed pos (start + l.length) l' := by
  induction l generalizing start with
  | nil => simp [indexed_nil]
  | cons x l ih =>
    rw [List.cons_append, indexed_cons, indexed_cons, ih, List.length_cons, and_assoc,
      show start + 1 + l.length = start + (l.length + 1) by omega]

theorem Indexed.tail (h : Indexed pos start l) : Indexed pos (start + 1) l.tail := by
  cases l with
  | nil => exact indexed_nil
  | cons x l => exact (indexed_cons.1 h).2

/-- The position of an element of the list. -/
theorem Indexed.exists_pos (h : Indexed pos start l) (hx : x ∈ l) :
    ∃ k, k < l.length ∧ pos x = some (start + k) := by
  obtain ⟨k, hk, rfl⟩ := List.mem_iff_getElem.1 hx
  exact ⟨k, hk, h k _ (List.getElem?_eq_getElem hk)⟩

theorem Indexed.ne_none (h : Indexed pos start l) (hx : x ∈ l) : pos x ≠ none := by
  obtain ⟨k, -, hk⟩ := h.exists_pos hx
  rw [hk]
  exact Option.some_ne_none _

/-- Elements that are recorded at a position outside the list are not in it. -/
theorem Indexed.notMem (h : Indexed pos start l) (hx : pos x = some k)
    (hk : k < start ∨ start + l.length ≤ k) : x ∉ l := by
  intro hmem
  obtain ⟨i, hi, he⟩ := h.exists_pos hmem
  rw [hx, Option.some_inj] at he
  omega

theorem Indexed.disjoint (h : Indexed pos start l) {start' : ℕ} (h' : Indexed pos start' l')
    (hle : start + l.length ≤ start') (hx : x ∈ l') : x ∉ l := by
  obtain ⟨k, -, hk⟩ := h'.exists_pos hx
  exact h.notMem hk (.inr (by omega))

theorem Indexed.nodup (h : Indexed pos start l) : l.Nodup := by
  refine List.nodup_iff_getElem?_ne_getElem?.2 fun i j hij hj he => ?_
  rw [List.getElem?_eq_getElem hj] at he
  have hi := h i _ he
  rw [h j _ (List.getElem?_eq_getElem hj), Option.some_inj] at hi
  omega

/-- A position that is recorded for another element. -/
theorem Indexed.update [DecidableEq α] (h : Indexed pos start l) (hx : x ∉ l) (i : Option ℕ) :
    Indexed (Function.update pos x i) start l := by
  intro k y hk
  have hne : y ≠ x := fun he => hx (he ▸ List.mem_of_getElem? hk)
  rw [Function.update_of_ne hne]
  exact h k y hk

/-! ### The table -/

/-- A list, with the recorded positions. -/
@[ext]
structure Table (α : Type*) where
  items : List α
  pos : α → Option ℕ

variable [DecidableEq α] {t t' : Table α}

/-- An element is written at a position, which may be the one behind the end. -/
def Table.put (t : Table α) (k : ℕ) (x : α) : Table α :=
  ⟨t.items.take k ++ x :: t.items.drop (k + 1), Function.update t.pos x (some k)⟩

theorem Table.put_pos : (t.put k x).pos = Function.update t.pos x (some k) := rfl

theorem Table.put_items (h : t.items = P ++ Q) : (t.put P.length x).items = P ++ x :: Q.tail := by
  simp [put, h]

/-- A new element takes the place of the one at its position. -/
theorem Table.indexed_put (h : t.items = P ++ Q) (hpos : Indexed t.pos 0 t.items) (hx : x ∉ t.items) :
    Indexed (t.put P.length x).pos 0 (t.put P.length x).items := by
  rw [put_items h, put_pos]
  have hpos' := hpos.update hx (some P.length)
  rw [h, indexed_append] at hpos'
  refine indexed_append.2 ⟨hpos'.1, indexed_cons.2 ⟨?_, hpos'.2.tail⟩⟩
  rw [Function.update_self, Nat.zero_add]

/-- The elements at two positions are exchanged, with the positions that are recorded for them. -/
def Table.swap (t : Table α) (i j : ℕ) : Table α :=
  match t.items[i]?, t.items[j]? with
  | some a, some b =>
    ⟨(t.items.set i b).set j a, Function.update (Function.update t.pos a (t.pos b)) b (t.pos a)⟩
  | _, _ => t

/-- An exchange within a section. -/
theorem Table.swap_spec {F R : List α} (h : t.items = F ++ (l ++ R)) (hpos : Indexed t.pos 0 t.items)
    {i j : ℕ} (hi : i < l.length) (hj : j < l.length) (hij : i ≠ j) :
    ∃ l', (t.swap (F.length + i) (F.length + j)).items = F ++ (l' ++ R) ∧ l.Perm l' ∧
      Indexed (t.swap (F.length + i) (F.length + j)).pos 0
        (t.swap (F.length + i) (F.length + j)).items ∧
      ∀ z, z ∉ t.items → (t.swap (F.length + i) (F.length + j)).pos z = t.pos z := by
  have hget : ∀ k (hk : k < l.length), t.items[F.length + k]? = some l[k] := by
    intro k hk
    rw [h, List.getElem?_append_right (by omega), Nat.add_sub_cancel_left,
      List.getElem?_append_left hk, List.getElem?_eq_getElem hk]
  have ha := hpos _ _ (hget i hi)
  have hb := hpos _ _ (hget j hj)
  have hne : l[i] ≠ l[j] := by
    intro he
    rw [he, hb, Option.some_inj] at ha
    omega
  unfold swap
  simp only [hget i hi, hget j hj]
  have hitems : (t.items.set (F.length + i) l[j]).set (F.length + j) l[i] =
      F ++ ((l.set i l[j]).set j l[i] ++ R) := by
    rw [h, List.set_append_right _ _ (by omega), List.set_append_right _ _ (by omega),
      Nat.add_sub_cancel_left, Nat.add_sub_cancel_left, List.set_append_left _ _ hi,
      List.set_append_left _ _ (by rwa [List.length_set])]
  refine ⟨_, hitems, (List.set_set_perm hi hj).symm, ?_, fun z hz => ?_⟩
  · intro k z hk
    rw [List.getElem?_set, List.getElem?_set] at hk
    simp only [List.length_set] at hk
    split_ifs at hk with hkj _ hki _
    · cases hk
      rw [Function.update_of_ne hne, Function.update_self, hb, hkj]
    · cases hk
      rw [Function.update_self, ha, hki]
    · -- the other elements are recorded at other positions
      have hz := hpos k z hk
      rw [Function.update_of_ne, Function.update_of_ne, hz]
      · rintro rfl
        rw [ha, Option.some_inj] at hz
        omega
      · rintro rfl
        rw [hb, Option.some_inj] at hz
        omega
  · rw [Function.update_of_ne, Function.update_of_ne]
    · rintro rfl
      exact hz (List.mem_of_getElem? (hget i hi))
    · rintro rfl
      exact hz (List.mem_of_getElem? (hget j hj))

/-! ### Priorities -/

variable {prio : α → Option ℕ}

/-- Section `p` has the elements of priority `p`. -/
def Sorted (prio : α → Option ℕ) (S : List (List α)) : Prop :=
  ∀ x p, prio x = some p ↔ ∃ l, S[p]? = some l ∧ x ∈ l

omit [DecidableEq α] in
theorem Sorted.congr (h : Sorted prio S) (hST : List.Forall₂ List.Perm S T) : Sorted prio T := by
  intro x p
  rw [h]
  have hget := List.forall₂_iff_get.1 hST
  constructor
  · rintro ⟨l, hl, hx⟩
    obtain ⟨hp, rfl⟩ := List.getElem?_eq_some_iff.1 hl
    exact ⟨T[p], List.getElem?_eq_getElem (hget.1 ▸ hp), (hget.2 p hp (hget.1 ▸ hp)).mem_iff.1 hx⟩
  · rintro ⟨l, hl, hx⟩
    obtain ⟨hp, rfl⟩ := List.getElem?_eq_some_iff.1 hl
    exact ⟨S[p], List.getElem?_eq_getElem (hget.1.symm ▸ hp),
      (hget.2 p (hget.1.symm ▸ hp) hp).mem_iff.2 hx⟩

omit [DecidableEq α] in
/-- More sections, which are empty. -/
theorem Sorted.append_replicate (h : Sorted prio S) (k : ℕ) :
    Sorted prio (S ++ List.replicate k []) := by
  intro x p
  rw [h]
  refine exists_congr fun l => and_congr_left fun hx => ?_
  rw [List.getElem?_append]
  split_ifs with hp
  · rfl
  · rw [List.getElem?_eq_none (by omega), List.getElem?_replicate]
    split_ifs
    · refine iff_of_false (by simp) fun he => ?_
      cases he
      cases hx
    · rfl

omit [DecidableEq α] in
theorem getElem?_section (S T : List (List α)) (l l' : List α) {p : ℕ} (hp : p ≠ S.length) :
    (S ++ l :: T)[p]? = (S ++ l' :: T)[p]? := by
  rcases Nat.lt_or_gt_of_ne hp with hp | hp
  · rw [List.getElem?_append_left hp, List.getElem?_append_left hp]
  · rw [List.getElem?_append_right hp.le, List.getElem?_append_right hp.le,
      show p - S.length = p - S.length - 1 + 1 by omega]
    rfl

omit [DecidableEq α] in
theorem exists_section (S T : List (List α)) (l : List α) (y : α) :
    (∃ l', (S ++ l :: T)[S.length]? = some l' ∧ y ∈ l') ↔ y ∈ l := by
  simp

/-- An element is added to its section. -/
theorem Sorted.insert (h : Sorted prio (S ++ l :: T)) (hx : prio x = none) :
    Sorted (Function.update prio x (some S.length)) (S ++ (x :: l) :: T) := by
  intro y p
  by_cases hp : p = S.length
  · rw [hp, exists_section]
    by_cases hy : y = x
    · rw [hy, Function.update_self]
      exact iff_of_true rfl List.mem_cons_self
    · rw [Function.update_of_ne hy, h, exists_section, List.mem_cons, or_iff_right hy]
  · rw [getElem?_section S T (x :: l) l hp, ← h]
    by_cases hy : y = x
    · rw [hy, Function.update_self, hx, Option.some_inj]
      exact iff_of_false (Ne.symm hp) nofun
    · rw [Function.update_of_ne hy]

/-- An element is taken out of its section. -/
theorem Sorted.erase (h : Sorted prio (S ++ (l ++ x :: l') :: T)) (hx : x ∉ l ++ l') :
    Sorted (Function.update prio x none) (S ++ (l ++ l') :: T) := by
  have hprio : prio x = some S.length :=
    (h x S.length).2 ((exists_section ..).2 (List.mem_append_right _ List.mem_cons_self))
  intro y p
  by_cases hp : p = S.length
  · rw [hp, exists_section]
    by_cases hy : y = x
    · rw [hy, Function.update_self]
      exact iff_of_false nofun hx
    · rw [Function.update_of_ne hy, h, exists_section, List.mem_append, List.mem_append, List.mem_cons,
        or_iff_right hy]
  · rw [getElem?_section S T (l ++ l') (l ++ x :: l') hp, ← h]
    by_cases hy : y = x
    · rw [hy, Function.update_self, hprio, Option.some_inj]
      exact iff_of_false nofun (Ne.symm hp)
    · rw [Function.update_of_ne hy]

/-- A table in sections that are sorted by priority, and their ends. -/
structure Listed (prio : α → Option ℕ) (t : Table α) (bounds : List ℕ) (S : List (List α)) : Prop where
  items : t.items = S.flatten
  bounds : bounds = ends 0 S
  indexed : Indexed t.pos 0 t.items
  sorted : Sorted prio S

omit [DecidableEq α]

variable {bounds : List ℕ}

/-- The list has the elements that have a priority. -/
theorem Listed.mem_items (h : Listed prio t bounds S) : x ∈ t.items ↔ ∃ p, prio x = some p := by
  rw [h.items, List.mem_flatten]
  constructor
  · rintro ⟨l, hl, hx⟩
    obtain ⟨p, hp⟩ := List.mem_iff_getElem?.1 hl
    exact ⟨p, (h.sorted x p).2 ⟨l, hp, hx⟩⟩
  · rintro ⟨p, hp⟩
    obtain ⟨l, hl, hx⟩ := (h.sorted x p).1 hp
    exact ⟨l, List.mem_of_getElem? hl, hx⟩

/-- The list is in the order of the priorities. -/
theorem Listed.pairwise (h : Listed prio t bounds S) :
    t.items.Pairwise fun x y => ∀ p q, prio x = some p → prio y = some q → p ≤ q := by
  have hmem : ∀ {l : List α} {p q x}, S[p]? = some l → x ∈ l → prio x = some q → q = p :=
    fun hl hx hq => Option.some.inj (hq.symm.trans ((h.sorted _ _).2 ⟨_, hl, hx⟩))
  rw [h.items, List.pairwise_flatten]
  refine ⟨fun l hl => ?_, List.pairwise_iff_getElem.2 fun i j hi hj hij x hx y hy p q hp hq => ?_⟩
  · obtain ⟨i, hi⟩ := List.mem_iff_getElem?.1 hl
    refine List.pairwise_of_forall_mem_list fun x hx y hy p q hp hq => ?_
    rw [hmem hi hx hp, hmem hi hy hq]
  · rw [hmem (List.getElem?_eq_getElem hi) hx hp, hmem (List.getElem?_eq_getElem hj) hy hq]
    exact hij.le

/-- An element splits its section, and the list of the sections. -/
theorem Listed.split (h : Listed prio t bounds S) {p : ℕ} (hx : prio x = some p) :
    ∃ A l l' T, S = A ++ (l ++ x :: l') :: T ∧ A.length = p ∧
      t.pos x = some (A.flatten.length + l.length) := by
  obtain ⟨s, hs, hmem⟩ := (h.sorted x p).1 hx
  obtain ⟨l, l', rfl⟩ := List.append_of_mem hmem
  obtain ⟨hp, hs⟩ := List.getElem?_eq_some_iff.1 hs
  have hS : S = S.take p ++ (l ++ x :: l') :: S.drop (p + 1) := by
    rw [← hs, List.getElem_cons_drop, List.take_append_drop]
  refine ⟨S.take p, l, l', S.drop (p + 1), hS, List.length_take_of_le hp.le, ?_⟩
  have hitems := h.items
  rw [hS, flatten_split] at hitems
  have hpos := h.indexed ((S.take p).flatten ++ l).length x (by rw [hitems]; exact getElem?_length)
  rwa [Nat.zero_add, List.length_append] at hpos

/-- Each element is recorded at its position, which is between the ends of the section before and of its
own one. -/
theorem Listed.between (h : Listed prio t bounds S) {p : ℕ} (hx : prio x = some p) :
    ∃ k stop, t.pos x = some k ∧ t.items[k]? = some x ∧ bounds[p]? = some stop ∧ k < stop ∧
      ∀ q < p, ∀ b, bounds[q]? = some b → b ≤ k := by
  obtain ⟨A, l, l', T, rfl, rfl, hpos⟩ := h.split hx
  refine ⟨_, A.flatten.length + (l ++ x :: l').length, hpos, ?_, ?_, ?_, ?_⟩
  · rw [h.items, flatten_split, ← List.length_append]
    exact getElem?_length
  · rw [h.bounds, ends_append, List.getElem?_append_right (by rw [length_ends]), length_ends, Nat.sub_self,
      Nat.zero_add]
    rfl
  · rw [List.length_append, List.length_cons]
    omega
  · intro q hq b hb
    rw [h.bounds, ends_append, List.getElem?_append_left (by rwa [length_ends]), getElem?_ends hq,
      Option.some_inj, Nat.zero_add] at hb
    have hle := (List.Sublist.flatten (List.take_sublist (q + 1) A)).length_le
    omega

end P2Player.Sections
