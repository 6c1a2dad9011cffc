import P2Player.Java.Integer
import Mathlib.Order.SuccPred.IntervalSucc
import Mathlib.Order.CompletePartialOrder

/-!
# The parts of a download

`MultipartDownloader.download` divides the length of the file by the number of parts and hands one
range of bytes to each `PartDownloader`; the last one gets the remainder as well.

* `partRanges`: the loop that computes the ranges;
* `partRanges_eq`: part `k` is what lies between the bounds `k` and `k + 1`;
* `Partitions`: the ranges are not empty, pairwise disjoint, and make up the file;
* `partitions_iff`: they do unless there are more parts than bytes.
-/

namespace P2Player.MultipartDownloader

open Java

/-! ### The loop -/

/-- The local variables of the loop. -/
structure Ranges where
  start : ℤ
  «end» : ℤ
  results : List (ℤ × ℤ)

/-- The body of the loop: a `PartDownloader` for the range, then the next range. -/
def nextRange (fileLen partSize numPart : ℤ) (s : Ranges) (i : ℤ) : Ranges where
  start := toLong (s.end + 1)
  «end» := if i ≠ toInt (numPart - 2) then toLong (s.end + partSize) else toLong (fileLen - 1)
  results := s.results ++ [(s.start, s.end)]

/-- The ranges that are handed to the `PartDownloader`s, first and last position. -/
def partRanges (fileLen : ℤ) (numPart : ℕ) : List (ℤ × ℤ) :=
  let partSize := fileLen.tdiv numPart
  ((List.range numPart).foldl (fun s (i : ℕ) => nextRange fileLen partSize numPart s i)
    ⟨0, toLong (partSize - 1), []⟩).results

/-- The first position of part `k`, and the end of the file for `k = numPart`. -/
def bound (fileLen : ℤ) (numPart k : ℕ) : ℤ :=
  if k < numPart then k * (fileLen / numPart) else fileLen

/-- The bytes of part `k`. -/
def part (fileLen : ℤ) (numPart k : ℕ) : ℤ × ℤ :=
  (bound fileLen numPart k, bound fileLen numPart (k + 1) - 1)

section Loop

variable {fileLen : ℤ} {numPart : ℕ}

theorem mul_partSize_le (h0 : 0 ≤ fileLen) {k : ℕ} (hk : k < numPart) :
    k * (fileLen / numPart) ≤ fileLen := by
  have hsize : 0 ≤ fileLen / numPart := Int.ediv_nonneg h0 (Int.natCast_nonneg _)
  calc k * (fileLen / numPart)
      ≤ numPart * (fileLen / numPart) := mul_le_mul_of_nonneg_right (by exact_mod_cast hk.le) hsize
    _ ≤ fileLen := Int.mul_ediv_self_le (by omega)

theorem bound_monotone (h0 : 0 ≤ fileLen) : Monotone (bound fileLen numPart) := by
  have hsize : 0 ≤ fileLen / numPart := Int.ediv_nonneg h0 (Int.natCast_nonneg _)
  intro k l hkl
  unfold bound
  split_ifs with h1 h2
  · exact mul_le_mul_of_nonneg_right (by exact_mod_cast hkl) hsize
  · exact mul_partSize_le h0 h1
  · omega
  · exact le_rfl

theorem bound_le (h0 : 0 ≤ fileLen) (k : ℕ) : bound fileLen numPart k ≤ fileLen := by
  unfold bound
  split_ifs with h
  · exact mul_partSize_le h0 h
  · exact le_rfl

theorem bound_nonneg (h0 : 0 ≤ fileLen) (k : ℕ) : 0 ≤ bound fileLen numPart k := by
  have hsize : 0 ≤ fileLen / numPart := Int.ediv_nonneg h0 (Int.natCast_nonneg _)
  unfold bound
  split_ifs
  · exact mul_nonneg (Int.natCast_nonneg k) hsize
  · exact h0

theorem bound_zero (hpos : 0 < numPart) : bound fileLen numPart 0 = 0 := by
  rw [bound, if_pos hpos, Nat.cast_zero, zero_mul]

theorem bound_succ {k : ℕ} (h : k + 1 < numPart) :
    bound fileLen numPart (k + 1) = bound fileLen numPart k + fileLen / numPart := by
  rw [bound, bound, if_pos h, if_pos (by omega)]
  push_cast
  ring

/-- After `i` turns the ranges are the first `i` parts, and the next one is part `i`. -/
structure Ranges.Inv (fileLen : ℤ) (numPart i : ℕ) (s : Ranges) : Prop where
  results_eq : s.results = (List.range i).map (part fileLen numPart)
  next : i < numPart → (s.start, s.end) = part fileLen numPart i

/-- One turn of the loop. -/
theorem inv_nextRange (h0 : 0 ≤ fileLen) (hlong : IsLong fileLen) (hint : IsInt numPart) {i : ℕ}
    (hi : i < numPart) {s : Ranges} (hs : s.Inv fileLen numPart i) :
    (nextRange fileLen (fileLen / numPart) numPart s i).Inv fileLen numPart (i + 1) := by
  have hnext := hs.next hi
  constructor
  · rw [nextRange, hnext, hs.results_eq, List.range_succ, List.map_append]
    rfl
  · intro hi'
    have hend : s.end = bound fileLen numPart (i + 1) - 1 := congrArg Prod.snd hnext
    have hle := @bound_le _ numPart h0 (i + 1)
    have hnonneg := @bound_nonneg _ numPart h0 (i + 1)
    have hmax := hlong.2
    have hstart : toLong (s.end + 1) = bound fileLen numPart (i + 1) := by
      rw [hend, sub_add_cancel, toLong_of_isLong ⟨by omega, by omega⟩]
    have hminus : toInt ((numPart : ℤ) - 2) = numPart - 2 :=
      toInt_of_isInt ⟨by omega, by have := hint.2; omega⟩
    simp only [nextRange, part, hstart, hminus, Prod.mk.injEq, true_and]
    by_cases hlast : i + 1 + 1 < numPart
    · have hle' := @bound_le _ numPart h0 (i + 1 + 1)
      have hnonneg' := @bound_nonneg _ numPart h0 (i + 1 + 1)
      rw [if_pos (by omega), hend, sub_add_eq_add_sub, ← bound_succ hlast,
        toLong_of_isLong ⟨by omega, by omega⟩]
    · -- the end of the last part is taken from the length of the file
      have hbound : bound fileLen numPart (i + 1 + 1) = fileLen := if_neg hlast
      rw [if_neg (by omega), hbound, toLong_of_isLong ⟨by omega, by omega⟩]

/-- The ranges are the parts. -/
theorem partRanges_eq (h0 : 0 ≤ fileLen) (hlong : IsLong fileLen) (hint : IsInt numPart)
    (hpos : 0 < numPart) : partRanges fileLen numPart = (List.range numPart).map
      (part fileLen numPart) := by
  have hmax := hlong.2
  have hsize : 0 ≤ fileLen / numPart := Int.ediv_nonneg h0 (Int.natCast_nonneg _)
  have hinit : (⟨0, toLong (fileLen / numPart - 1), []⟩ : Ranges).Inv fileLen numPart 0 := by
    refine ⟨rfl, fun _ => ?_⟩
    have hone : bound fileLen numPart 1 = fileLen / numPart := by
      unfold bound
      split_ifs with h
      · rw [Nat.cast_one, one_mul]
      · rw [show numPart = 1 by omega, Nat.cast_one, Int.ediv_one]
    have hle := @bound_le _ numPart h0 1
    rw [hone] at hle
    rw [part, bound_zero hpos, hone, toLong_of_isLong ⟨by omega, by omega⟩]
  have hloop : ∀ i ≤ numPart, ((List.range i).foldl
      (fun s (i : ℕ) => nextRange fileLen (fileLen / numPart) numPart s i)
      ⟨0, toLong (fileLen / numPart - 1), []⟩).Inv fileLen numPart i := by
    intro i
    induction i with
    | zero => exact fun _ => hinit
    | succ i ih =>
      intro hi
      rw [List.range_succ, List.foldl_append]
      exact inv_nextRange h0 hlong hint hi (ih (by omega))
  rw [partRanges, Int.tdiv_eq_ediv_of_nonneg h0]
  exact (hloop numPart le_rfl).results_eq

end Loop

/-! ### The parts make up the file -/

/-- The intervals between successive values of a monotone sequence make up the whole. -/
theorem exists_mem_Ico_succ_iff {α : Type*} [LinearOrder α] {f : ℕ → α} (hf : Monotone f) {n : ℕ}
    {x : α} : (∃ k < n, x ∈ Set.Ico (f k) (f (k + 1))) ↔ x ∈ Set.Ico (f 0) (f n) := by
  constructor
  · rintro ⟨k, hk, hx⟩
    exact ⟨(hf k.zero_le).trans hx.1, hx.2.trans_le (hf hk)⟩
  · intro hx
    induction n with
    | zero => exact absurd hx.2 hx.1.not_gt
    | succ n ih =>
      rcases lt_or_ge x (f n) with hlt | hge
      · obtain ⟨k, hk, hmem⟩ := ih ⟨hx.1, hlt⟩
        exact ⟨k, hk.trans n.lt_succ_self, hmem⟩
      · exact ⟨n, n.lt_succ_self, hge, hx.2⟩

/-- The ranges are not empty, pairwise disjoint, and their union is the file. -/
structure Partitions (fileLen : ℤ) (ranges : List (ℤ × ℤ)) : Prop where
  nonempty : ∀ r ∈ ranges, (Set.Icc r.1 r.2).Nonempty
  disjoint : ranges.Pairwise fun r r' => Disjoint (Set.Icc r.1 r.2) (Set.Icc r'.1 r'.2)
  union : ⋃ r ∈ ranges, Set.Icc r.1 r.2 = Set.Icc 0 (fileLen - 1)

theorem Icc_part (fileLen : ℤ) (numPart k : ℕ) :
    Set.Icc (part fileLen numPart k).1 (part fileLen numPart k).2 =
      Set.Ico (bound fileLen numPart k) (bound fileLen numPart (k + 1)) := by
  ext x
  simp only [part, Set.mem_Icc, Set.mem_Ico, Int.le_sub_one_iff]

section Parts

variable {fileLen : ℤ} {numPart : ℕ}

theorem bound_lt_succ (hle : (numPart : ℤ) ≤ fileLen) {k : ℕ} (hk : k < numPart) :
    bound fileLen numPart k < bound fileLen numPart (k + 1) := by
  have hsize : 1 ≤ fileLen / numPart := (Int.le_ediv_iff_mul_le (by omega)).2 (by omega)
  by_cases hlast : k + 1 < numPart
  · rw [bound_succ hlast]
    omega
  · have hnum : numPart = k + 1 := by omega
    have hmul := Int.mul_ediv_self_le (x := fileLen) (k := numPart) (by omega)
    rw [bound, bound, if_pos hk, if_neg hlast]
    calc k * (fileLen / numPart)
        < k * (fileLen / numPart) + fileLen / numPart := by omega
      _ = numPart * (fileLen / numPart) := by
        rw [← add_one_mul]
        congr 1
        exact_mod_cast hnum.symm
      _ ≤ fileLen := hmul

theorem bound_one_of_lt (h0 : 0 ≤ fileLen) (hlt : fileLen < numPart) (hnum : 1 < numPart) :
    bound fileLen numPart 1 = 0 := by
  rw [bound, if_pos hnum, Int.ediv_eq_zero_of_lt h0 hlt, mul_zero]

theorem disjoint_parts (h0 : 0 ≤ fileLen) :
    ((List.range numPart).map (part fileLen numPart)).Pairwise
      fun r r' => Disjoint (Set.Icc r.1 r.2) (Set.Icc r'.1 r'.2) := by
  rw [List.pairwise_map]
  refine List.nodup_range.pairwise_of_forall_ne fun k _ l _ hkl => ?_
  rw [Icc_part, Icc_part]
  exact (bound_monotone h0).pairwise_disjoint_on_Ico_succ hkl

theorem iUnion_parts (h0 : 0 ≤ fileLen) (hpos : 0 < numPart) :
    ⋃ r ∈ (List.range numPart).map (part fileLen numPart), Set.Icc r.1 r.2 =
      Set.Icc 0 (fileLen - 1) := by
  have hlast : bound fileLen numPart numPart = fileLen := if_neg (lt_irrefl _)
  ext x
  calc x ∈ ⋃ r ∈ (List.range numPart).map (part fileLen numPart), Set.Icc r.1 r.2
      ↔ ∃ k < numPart, x ∈ Set.Ico (bound fileLen numPart k) (bound fileLen numPart (k + 1)) := by
        simp only [List.mem_map, List.mem_range, Set.mem_iUnion, exists_prop, exists_exists_and_eq_and,
          Icc_part]
    _ ↔ x ∈ Set.Ico (bound fileLen numPart 0) (bound fileLen numPart numPart) :=
        exists_mem_Ico_succ_iff (bound_monotone h0)
    _ ↔ x ∈ Set.Icc 0 (fileLen - 1) := by
        rw [bound_zero hpos, hlast, Set.mem_Ico, Set.mem_Icc, Int.le_sub_one_iff]

/-- **The ranges of the parts partition the file exactly when there are not more parts than bytes.** -/
theorem partitions_iff (hlen : 1 ≤ fileLen) (hlong : IsLong fileLen) (hpart : 1 ≤ numPart)
    (hint : IsInt numPart) :
    Partitions fileLen (partRanges fileLen numPart) ↔ (numPart : ℤ) ≤ fileLen := by
  have h0 : 0 ≤ fileLen := by omega
  rw [partRanges_eq h0 hlong hint hpart]
  constructor
  · intro h
    by_contra hlt
    -- the first part ends where it begins
    have hone := bound_one_of_lt h0 (not_le.1 hlt) (by omega)
    have hfirst := h.nonempty (part fileLen numPart 0)
      (List.mem_map_of_mem (List.mem_range.2 hpart))
    rw [Icc_part, bound_zero hpart, zero_add, hone, Set.Ico_self] at hfirst
    exact Set.not_nonempty_empty hfirst
  · intro hle
    refine ⟨fun r hr => ?_, disjoint_parts h0, iUnion_parts h0 hpart⟩
    obtain ⟨k, hk, rfl⟩ := List.mem_map.1 hr
    rw [Icc_part, Set.nonempty_Ico]
    exact bound_lt_succ hle (List.mem_range.1 hk)

end Parts

/-- Ten bytes in three parts. -/
theorem partitions_ten : Partitions 10 (partRanges 10 3) :=
  (partitions_iff (by decide) (by decide) (by decide) (by decide)).2 (by decide)

/-- Two bytes in three parts: the first two parts are empty. -/
theorem not_partitions_two : ¬ Partitions 2 (partRanges 2 3) := by
  intro h
  have hranges : partRanges 2 3 = [(0, -1), (0, -1), (0, 1)] := by decide
  have hfirst := h.nonempty (0, -1) (by rw [hranges]; decide)
  rw [Set.nonempty_Icc] at hfirst
  exact absurd hfirst (by decide)

end P2Player.MultipartDownloader
