import Mathlib.Tactic

/-!
# Parts of a scale, rounded down

How much is done of something is told on a scale from 0 to `m`, rounded down, and of several things
by the average, rounded down again.

* `scaled`: what `p` of `s` is on the scale;
* `average`: the average of a list;
* `scaled_eq_iff`, `average_eq_iff`: rounding down never shows a complete scale early.
-/

namespace P2Player.Rounding

/-! ### One part -/

/-- `p` of `s` on a scale to `m`. -/
def scaled (m p s : ℤ) : ℤ := p * m / s

section Scaled

variable {m p q s : ℤ}

theorem scaled_nonneg (hm : 0 ≤ m) (hs : 0 < s) (hp : 0 ≤ p) : 0 ≤ scaled m p s :=
  Int.ediv_nonneg (mul_nonneg hp hm) hs.le

theorem scaled_mono (hm : 0 ≤ m) (hs : 0 < s) (h : p ≤ q) : scaled m p s ≤ scaled m q s :=
  Int.ediv_le_ediv hs (mul_le_mul_of_nonneg_right h hm)

theorem scaled_self (hs : 0 < s) : scaled m s s = m := Int.mul_ediv_cancel_left m hs.ne'

theorem scaled_le (hm : 0 ≤ m) (hs : 0 < s) (h : p ≤ s) : scaled m p s ≤ m :=
  (scaled_mono hm hs h).trans_eq (scaled_self hs)

/-- The scale is complete for the whole only. -/
theorem scaled_eq_iff (hm : 0 < m) (hs : 0 < s) (h : p ≤ s) : scaled m p s = m ↔ p = s := by
  constructor
  · intro heq
    by_contra hne
    have hlt : p * m < m * s := by
      rw [mul_comm m]
      exact mul_lt_mul_of_pos_right (lt_of_le_of_ne h hne) hm
    exact absurd heq (Int.ediv_lt_of_lt_mul hs hlt).ne
  · rintro rfl
    exact scaled_self hs

end Scaled

/-! ### The average -/

/-- The average of a list. -/
def average (l : List ℤ) : ℤ := l.sum / l.length

section Average

variable {m : ℤ} {l l' : List ℤ}

theorem length_pos_of_ne_nil (h : l ≠ []) : (0 : ℤ) < l.length := by
  exact_mod_cast List.length_pos_of_ne_nil h

theorem sum_le (h : ∀ x ∈ l, x ≤ m) : l.sum ≤ m * l.length := by
  rw [mul_comm, ← nsmul_eq_mul]
  exact List.sum_le_card_nsmul l m h

theorem sum_eq_iff (h : ∀ x ∈ l, x ≤ m) : l.sum = m * l.length ↔ ∀ x ∈ l, x = m := by
  induction l with
  | nil => simp
  | cons x l ih =>
    have hx := h x List.mem_cons_self
    have hl : ∀ y ∈ l, y ≤ m := fun y hy => h y (List.mem_cons_of_mem x hy)
    have hsum := sum_le hl
    rw [List.forall_mem_cons, ← ih hl, List.sum_cons, List.length_cons, Nat.cast_succ, mul_add_one]
    omega

theorem average_nonneg (h : ∀ x ∈ l, 0 ≤ x) : 0 ≤ average l :=
  Int.ediv_nonneg (List.sum_nonneg h) (Int.natCast_nonneg _)

theorem average_le (hne : l ≠ []) (h : ∀ x ∈ l, x ≤ m) : average l ≤ m :=
  Int.ediv_le_of_le_mul (length_pos_of_ne_nil hne) (sum_le h)

/-- The average is the bound only where every member is. -/
theorem average_eq_iff (hne : l ≠ []) (h : ∀ x ∈ l, x ≤ m) :
    average l = m ↔ ∀ x ∈ l, x = m := by
  have hpos := length_pos_of_ne_nil hne
  rw [← sum_eq_iff h]
  constructor
  · intro heq
    have hge : m * l.length ≤ l.sum := (Int.le_ediv_iff_mul_le hpos).1 heq.ge
    exact le_antisymm (sum_le h) hge
  · intro heq
    rw [average, heq, Int.mul_ediv_cancel m hpos.ne']

theorem average_mono (h : List.Forall₂ (· ≤ ·) l l') : average l ≤ average l' := by
  have hlen : l.length = l'.length := h.length_eq
  rcases eq_or_ne l [] with rfl | hne
  · rw [List.length_eq_zero_iff.1 hlen.symm]
  · rw [average, average, ← hlen]
    exact Int.ediv_le_ediv (length_pos_of_ne_nil hne) h.sum_le_sum

end Average

end P2Player.Rounding
