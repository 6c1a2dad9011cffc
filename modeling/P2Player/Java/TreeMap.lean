import Mathlib.Tactic

/-!
# `java.util.TreeMap`

A map with ordered keys, as the list of its entries with the keys in increasing order.
-/

namespace P2Player.Java

/-- `TreeMap<K, V>`. -/
structure TreeMap (K V : Type) [LinearOrder K] where
  entries : List (K × V)
  sorted : entries.Pairwise fun a b => a.1 < b.1

namespace TreeMap

variable {K V : Type} [LinearOrder K]

/-- An entry is put in front of the first larger key. -/
def insertEntry (k : K) (v : V) : List (K × V) → List (K × V)
  | [] => [(k, v)]
  | (k', v') :: l =>
    if k < k' then (k, v) :: (k', v') :: l
    else if k = k' then (k, v) :: l
    else (k', v') :: insertEntry k v l

theorem key_mem_insertEntry {k : K} {v : V} {l : List (K × V)} {e : K × V}
    (h : e ∈ insertEntry k v l) : e.1 = k ∨ e ∈ l := by
  induction l with
  | nil =>
    rw [insertEntry, List.mem_singleton] at h
    exact Or.inl (congrArg Prod.fst h)
  | cons e' l ih =>
    rw [insertEntry] at h
    split_ifs at h with hlt heq
    · rcases List.mem_cons.1 h with rfl | h
      · exact Or.inl rfl
      · exact Or.inr h
    · rcases List.mem_cons.1 h with rfl | h
      · exact Or.inl rfl
      · exact Or.inr (List.mem_cons_of_mem _ h)
    · rcases List.mem_cons.1 h with rfl | h
      · exact Or.inr List.mem_cons_self
      · exact (ih h).imp_right (List.mem_cons_of_mem _)

theorem sorted_insertEntry (k : K) (v : V) {l : List (K × V)}
    (h : l.Pairwise fun a b => a.1 < b.1) :
    (insertEntry k v l).Pairwise fun a b => a.1 < b.1 := by
  induction l with
  | nil => exact List.pairwise_singleton _ _
  | cons e l ih =>
    obtain ⟨he, hl⟩ := List.pairwise_cons.1 h
    rw [insertEntry]
    split_ifs with hlt heq
    · refine List.pairwise_cons.2 ⟨fun x hx => ?_, h⟩
      rcases List.mem_cons.1 hx with rfl | hx
      · exact hlt
      · exact hlt.trans (he x hx)
    · refine List.pairwise_cons.2 ⟨fun x hx => ?_, hl⟩
      show k < x.1
      rw [heq]
      exact he x hx
    · refine List.pairwise_cons.2 ⟨fun x hx => ?_, ih hl⟩
      rcases key_mem_insertEntry hx with hk | hx
      · show e.1 < x.1
        rw [hk]
        exact lt_of_le_of_ne (not_lt.1 hlt) (Ne.symm heq)
      · exact he x hx

/-- The empty map. -/
def empty : TreeMap K V := ⟨[], List.Pairwise.nil⟩

/-- `put`. -/
def put (m : TreeMap K V) (k : K) (v : V) : TreeMap K V :=
  ⟨insertEntry k v m.entries, sorted_insertEntry k v m.sorted⟩

/-- `floorEntry`: the entry with the greatest key that is at most `k`; `none` for null. -/
def floorEntry (m : TreeMap K V) (k : K) : Option (K × V) :=
  (m.entries.filter (·.1 ≤ k)).getLast?

/-- `firstKey`; `none` is a `NoSuchElementException`. -/
def firstKey (m : TreeMap K V) : Option K := m.entries.head?.map Prod.fst

/-- `remove`. -/
def remove (m : TreeMap K V) (k : K) : TreeMap K V :=
  ⟨m.entries.filter (·.1 ≠ k), m.sorted.filter _⟩

/-! ### Keys -/

theorem mem_insertEntry_self (k : K) (v : V) (l : List (K × V)) : (k, v) ∈ insertEntry k v l := by
  induction l with
  | nil => exact List.mem_singleton_self _
  | cons e l ih =>
    rw [insertEntry]
    split_ifs with hlt heq
    · exact List.mem_cons_self
    · exact List.mem_cons_self
    · exact List.mem_cons_of_mem _ ih

/-- An entry stays, or its key gets the new value. -/
theorem mem_insertEntry_of_mem {k : K} {v : V} {l : List (K × V)} {e : K × V} (h : e ∈ l) :
    ∃ e' ∈ insertEntry k v l, e'.1 = e.1 := by
  induction l with
  | nil => cases h
  | cons e₀ l ih =>
    rw [insertEntry]
    split_ifs with hlt heq
    · exact ⟨e, List.mem_cons_of_mem _ h, rfl⟩
    · rcases List.mem_cons.1 h with rfl | h
      · exact ⟨(k, v), List.mem_cons_self, heq⟩
      · exact ⟨e, List.mem_cons_of_mem _ h, rfl⟩
    · rcases List.mem_cons.1 h with rfl | h
      · exact ⟨_, List.mem_cons_self, rfl⟩
      · obtain ⟨e', he', hkey⟩ := ih h
        exact ⟨e', List.mem_cons_of_mem _ he', hkey⟩

/-- The map has a key that is at most `k`. -/
def HasFloor (m : TreeMap K V) (k : K) : Prop := ∃ e ∈ m.entries, e.1 ≤ k

variable {m : TreeMap K V} {k k' : K} {e : K × V}

theorem HasFloor.mono (h : m.HasFloor k) (hk : k ≤ k') : m.HasFloor k' := by
  obtain ⟨e, he, hle⟩ := h
  exact ⟨e, he, hle.trans hk⟩

theorem HasFloor.put (h : m.HasFloor k) (k₀ : K) (v : V) : (m.put k₀ v).HasFloor k := by
  obtain ⟨e, he, hle⟩ := h
  obtain ⟨e', he', hkey⟩ := mem_insertEntry_of_mem (k := k₀) (v := v) he
  exact ⟨e', he', hkey ▸ hle⟩

theorem hasFloor_put (m : TreeMap K V) {k₀ : K} (v : V) (h : k₀ ≤ k) : (m.put k₀ v).HasFloor k :=
  ⟨(k₀, v), mem_insertEntry_self k₀ v m.entries, h⟩

theorem mem_of_floorEntry (h : m.floorEntry k = some e) : e ∈ m.entries ∧ e.1 ≤ k := by
  have hmem := List.mem_filter.1 (List.mem_of_getLast? h)
  exact ⟨hmem.1, of_decide_eq_true hmem.2⟩

/-- An entry found by `floorEntry` is not lost with a smaller key. -/
theorem HasFloor.remove (h : m.floorEntry k = some e) (hlt : k' < e.1) :
    (m.remove k').HasFloor k := by
  obtain ⟨he, hle⟩ := mem_of_floorEntry h
  exact ⟨e, List.mem_filter.2 ⟨he, decide_eq_true hlt.ne'⟩, hle⟩

end TreeMap

end P2Player.Java
