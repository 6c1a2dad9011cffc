import Mathlib.Tactic
import Mathlib.Data.List.Basic

/-!
# Contiguous slices of a list

`slice l a n` is the sublist of `l` of length at most `n` that starts at position `a`.  Every
transfer of bytes in this development copies a slice, so the facts below say how slices split,
nest and extend:

* `slice_add`: a slice is the concatenation of two adjacent ones;
* `slice_slice`: a slice of a slice;
* `slice_prefix`: a shorter slice is a prefix of a longer one with the same start;
* `slice_overwrite`: a slice of the part of a list that was overwritten;
* `overwrite_zero`: what is left when the beginning of a list is overwritten.
-/

namespace P2Player

variable {α : Type*}

/-- The elements at positions `a, …, a + n - 1`, as far as they exist. -/
def slice (l : List α) (a n : ℕ) : List α := (l.drop a).take n

@[simp] theorem slice_zero (l : List α) (a : ℕ) : slice l a 0 = [] := by simp [slice]

@[simp] theorem length_slice (l : List α) (a n : ℕ) :
    (slice l a n).length = min n (l.length - a) := by simp [slice]

theorem length_slice_of_le {l : List α} {a n : ℕ} (h : a + n ≤ l.length) :
    (slice l a n).length = n := by
  rw [length_slice]; omega

theorem slice_add (l : List α) (a m n : ℕ) :
    slice l a (m + n) = slice l a m ++ slice l (a + m) n := by
  rw [slice, List.take_add, List.drop_drop]; rfl

theorem slice_prefix (l : List α) (a : ℕ) {m n : ℕ} (h : m ≤ n) : slice l a m <+: slice l a n := by
  obtain ⟨k, rfl⟩ := Nat.exists_eq_add_of_le h
  exact ⟨slice l (a + m) k, (slice_add l a m k).symm⟩

theorem take_slice (l : List α) (a : ℕ) {m n : ℕ} (h : m ≤ n) :
    (slice l a n).take m = slice l a m := by
  rw [slice, List.take_take, Nat.min_eq_left h]; rfl

/-- A prefix of a slice is extended by the elements that follow. -/
theorem append_slice_prefix {l w : List α} {a m n : ℕ} (hw : w <+: slice l a m)
    (h : w.length + n ≤ m) : w ++ slice l (a + w.length) n <+: slice l a m := by
  have hlen := hw.length_le
  rw [length_slice] at hlen
  have hwl : w = slice l a w.length := by
    rw [← take_slice l a (show w.length ≤ m by omega)]
    exact List.prefix_iff_eq_take.1 hw
  calc w ++ slice l (a + w.length) n
      = slice l a w.length ++ slice l (a + w.length) n := by rw [← hwl]
    _ = slice l a (w.length + n) := (slice_add ..).symm
    _ <+: slice l a m := slice_prefix l a h

theorem slice_slice (l : List α) (a b : ℕ) {m n : ℕ} (h : b + m ≤ n) :
    slice (slice l a n) b m = slice l (a + b) m := by
  unfold slice
  rw [List.drop_take, List.take_take, List.drop_drop, Nat.min_eq_left (by omega)]

theorem getElem?_slice (l : List α) (a : ℕ) {i n : ℕ} (h : i < n) :
    (slice l a n)[i]? = l[a + i]? := by
  rw [slice, List.getElem?_take_of_lt h, List.getElem?_drop]

/-! ### Overwriting a part of a list -/

/-- The elements of `d` in place of those at positions `a, …, a + d.length - 1`. -/
def overwrite (l : List α) (a : ℕ) (d : List α) : List α := l.take a ++ d ++ l.drop (a + d.length)

theorem length_overwrite {l d : List α} {a : ℕ} (h : a + d.length ≤ l.length) :
    (overwrite l a d).length = l.length := by
  simp only [overwrite, List.length_append, List.length_take, List.length_drop]
  omega

theorem getElem?_overwrite {l d : List α} {a : ℕ} (h : a + d.length ≤ l.length) (i : ℕ) :
    (overwrite l a d)[i]? = if a ≤ i ∧ i < a + d.length then d[i - a]? else l[i]? := by
  have ha : (l.take a).length = a := List.length_take_of_le (by omega)
  unfold overwrite
  split_ifs with hi
  · rw [List.append_assoc, List.getElem?_append_right (by omega), ha,
      List.getElem?_append_left (by omega)]
  · rcases Nat.lt_or_ge i a with hlt | hge
    · rw [List.append_assoc, List.getElem?_append_left (by omega), List.getElem?_take_of_lt hlt]
    · rw [List.getElem?_append_right (by rw [List.length_append]; omega), List.getElem?_drop,
        List.length_append, ha]
      congr 1
      omega

theorem slice_overwrite {l d : List α} {a : ℕ} (h : a + d.length ≤ l.length) {i n : ℕ}
    (hn : i + n ≤ d.length) : slice (overwrite l a d) (a + i) n = slice d i n := by
  have ha : (l.take a).length = a := by rw [List.length_take]; omega
  have hdrop : (overwrite l a d).drop (a + i) = d.drop i ++ l.drop (a + d.length) := by
    rw [overwrite, List.append_assoc, List.drop_append, ha, Nat.add_sub_cancel_left,
      List.drop_eq_nil_of_le (by omega), List.nil_append, List.drop_append_of_le_length (by omega)]
  rw [slice, hdrop, List.take_append_of_le_length (by rw [List.length_drop]; omega)]
  rfl

/-! ### Overwriting the beginning -/

theorem overwrite_zero (l d : List α) : overwrite l 0 d = d ++ l.drop d.length := by
  rw [overwrite, List.take_zero, List.nil_append, Nat.zero_add]

theorem overwrite_zero_eq_iff {l d : List α} :
    overwrite l 0 d = d ↔ l.length ≤ d.length := by
  rw [overwrite_zero, List.append_right_eq_self, List.drop_eq_nil_iff]

theorem overwrite_zero_eq_self_iff {l d : List α} :
    overwrite l 0 d = l ↔ d <+: l := by
  rw [overwrite_zero]
  constructor
  · intro h
    rw [← h]
    exact List.prefix_append _ _
  · rintro ⟨r, rfl⟩
    rw [List.drop_left]

theorem getElem?_overwrite_zero (l d : List α) (i : ℕ) :
    (overwrite l 0 d)[i]? = if i < d.length then d[i]? else l[i]? := by
  rw [overwrite_zero]
  split_ifs with h
  · exact List.getElem?_append_left h
  · rw [List.getElem?_append_right (by omega), List.getElem?_drop]
    congr 1
    omega

end P2Player
