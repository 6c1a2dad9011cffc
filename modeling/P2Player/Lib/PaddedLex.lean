import Mathlib.Data.List.GetD
import Mathlib.Order.PiLex

/-!
# Lists padded with zeros, in lexicographic order

A list stands for the sequence that goes on with zeros.  Two lists are compared by the first position
at which their sequences differ.

* `padded`: the sequence of a list, in the linear order `Lex (ℕ → α)`;
* `padded_cons_lt_cons`: comparing by the heads first;
* `pad`, `pad_lt_pad_iff`: padding to equal length gives the same order;
* `padded_append_replicate`: zeros at the end do not matter.
-/

namespace P2Player

variable {α : Type*} [Zero α]

/-- The list filled up with zeros to the length `n`. -/
def pad (n : ℕ) (l : List α) : List α := l ++ List.replicate (n - l.length) 0

theorem length_pad {n : ℕ} {l : List α} (h : l.length ≤ n) : (pad n l).length = n := by
  rw [pad, List.length_append, List.length_replicate, Nat.add_sub_cancel' h]

/-- The elements of the list, then zeros. -/
def padded (l : List α) : Lex (ℕ → α) := toLex fun i => l.getD i 0

theorem padded_append_replicate (l : List α) (n : ℕ) :
    padded (l ++ List.replicate n 0) = padded l := by
  refine congrArg toLex (funext fun i => ?_)
  rcases lt_or_ge i l.length with h | h
  · rw [List.getD_append _ _ _ _ h]
  · rw [List.getD_append_right _ _ _ _ h, List.getD_eq_default _ _ h]
    rcases lt_or_ge (i - l.length) n with hn | hn
    · rw [List.getD_replicate _ hn]
    · rw [List.getD_eq_default _ _ (by rwa [List.length_replicate])]

/-- Nothing is as good as a zero. -/
theorem padded_nil : padded ([] : List α) = padded [0] := (padded_append_replicate [] 1).symm

variable [LinearOrder α]

theorem padded_lt_iff {x y : List α} : padded x < padded y ↔
    ∃ i, (∀ j < i, x.getD j 0 = y.getD j 0) ∧ x.getD i 0 < y.getD i 0 :=
  Iff.rfl

theorem padded_cons_lt_cons {a b : α} {x y : List α} :
    padded (a :: x) < padded (b :: y) ↔ a < b ∨ a = b ∧ padded x < padded y := by
  rw [padded_lt_iff, padded_lt_iff]
  constructor
  · rintro ⟨i, heq, hlt⟩
    cases i with
    | zero => exact Or.inl hlt
    | succ i => exact Or.inr ⟨heq 0 i.succ_pos, i, fun j hj => heq (j + 1) (Nat.succ_lt_succ hj), hlt⟩
  · rintro (hlt | ⟨rfl, i, heq, hlt⟩)
    · exact ⟨0, fun j hj => absurd hj j.not_lt_zero, hlt⟩
    · refine ⟨i + 1, fun j hj => ?_, hlt⟩
      cases j with
      | zero => rfl
      | succ j => exact heq j (Nat.lt_of_succ_lt_succ hj)

/-- Lists of equal length are ordered as their sequences are. -/
theorem lt_iff_padded_lt {x y : List α} (h : x.length = y.length) : x < y ↔ padded x < padded y := by
  induction x generalizing y with
  | nil =>
    rw [List.eq_nil_of_length_eq_zero h.symm]
    exact ⟨fun hlt => absurd hlt (List.not_lt_nil _), fun hlt => absurd hlt (lt_irrefl _)⟩
  | cons a x ih =>
    cases y with
    | nil => cases h
    | cons b y =>
      rw [List.cons_lt_cons_iff, padded_cons_lt_cons, ih (Nat.succ.inj h)]

theorem pad_lt_pad_iff {n : ℕ} {x y : List α} (hx : x.length ≤ n) (hy : y.length ≤ n) :
    pad n x < pad n y ↔ padded x < padded y := by
  rw [lt_iff_padded_lt ((length_pad hx).trans (length_pad hy).symm), pad, pad,
    padded_append_replicate, padded_append_replicate]

end P2Player
