import Mathlib.Data.Int.Log
import Mathlib.Data.Rat.Floor
import Mathlib.Tactic

/-!
# Numbers of type `float`

A `float` has 24 significant bits, and the result of a conversion or of an operation is the nearest of
them, the even one of two. The numbers here are the quotients of two `int`s, so that no exponent is
too large or too small.

* `roundEven`: the nearest integer;
* `toFloat`: the nearest `float`;
* `quotientBelow`: the comparison `n / (float) l < x`;
* `quotientBelow_eq_false`: rounding does not make a quotient that is clearly above `x` less than it.
-/

namespace P2Player.Java

/-- The nearest integer, the even one of two. -/
def roundEven (x : ℚ) : ℤ :=
  if x - ⌊x⌋ < 1 / 2 then ⌊x⌋
  else if 1 / 2 < x - ⌊x⌋ then ⌊x⌋ + 1
  else if Even ⌊x⌋ then ⌊x⌋ else ⌊x⌋ + 1

theorem abs_roundEven_sub_le (x : ℚ) : |roundEven x - x| ≤ 1 / 2 := by
  have hle := Int.floor_le x
  have hlt := Int.lt_floor_add_one x
  unfold roundEven
  split_ifs <;> rw [abs_le] <;> push_cast <;> constructor <;> linarith

/-- The distance of the `float`s about `q`. -/
def ulp (q : ℚ) : ℚ := 2 ^ (Int.log 2 |q| - 23)

/-- The nearest `float`. -/
def toFloat (q : ℚ) : ℚ := if q = 0 then 0 else roundEven (q / ulp q) * ulp q

theorem ulp_pos (q : ℚ) : 0 < ulp q := zpow_pos (by norm_num) _

theorem ulp_le {q : ℚ} (hq : q ≠ 0) : ulp q ≤ |q| / 2 ^ 23 := by
  have hlog := Int.zpow_log_le_self one_lt_two (abs_pos.2 hq)
  unfold ulp
  rw [zpow_sub₀ two_ne_zero]
  exact div_le_div_of_nonneg_right (by exact_mod_cast hlog) (by norm_num)

/-- Rounding moves a number by half the distance of the `float`s at most. -/
theorem abs_toFloat_sub_le (q : ℚ) : |toFloat q - q| ≤ |q| / 2 ^ 24 := by
  unfold toFloat
  split_ifs with hq
  · simp [hq]
  have hpos := ulp_pos q
  have hround := abs_roundEven_sub_le (q / ulp q)
  have hsplit : roundEven (q / ulp q) * ulp q - q = (roundEven (q / ulp q) - q / ulp q) * ulp q := by
    rw [sub_mul, div_mul_cancel₀ _ hpos.ne']
  calc |roundEven (q / ulp q) * ulp q - q|
      = |roundEven (q / ulp q) - q / ulp q| * ulp q := by
        rw [hsplit, abs_mul, abs_of_pos hpos]
    _ ≤ 1 / 2 * ulp q := mul_le_mul_of_nonneg_right hround hpos.le
    _ ≤ 1 / 2 * (|q| / 2 ^ 23) := mul_le_mul_of_nonneg_left (ulp_le hq) (by norm_num)
    _ = |q| / 2 ^ 24 := by ring

/-- Rounding loses less than a thousandth of a positive number, and adds less. -/
theorem toFloat_bounds {q : ℚ} (hq : 0 ≤ q) :
    999 / 1000 * q ≤ toFloat q ∧ toFloat q ≤ 1001 / 1000 * q := by
  have h := abs_le.1 (abs_toFloat_sub_le q)
  rw [abs_of_nonneg hq] at h
  constructor <;> linarith [h.1, h.2]

/-- `n / (float) l < x` for a number `x` of the source. A quotient by zero has no finite value: it is not
a number, or infinite with the sign of `n`. -/
def quotientBelow (n l : ℤ) (x : ℚ) : Bool :=
  if l = 0 then n < 0 else toFloat (toFloat n / toFloat l) < toFloat x

/-- A quotient that is far enough above `x` is not below it. -/
theorem quotientBelow_eq_false {n l : ℤ} {x : ℚ} (hl : 0 < l) (hn : 0 ≤ n) (hx : 0 ≤ x)
    (h : 101 / 100 * x * l ≤ n) : quotientBelow n l x = false := by
  have hl' : (0 : ℚ) < l := by exact_mod_cast hl
  have hn' : (0 : ℚ) ≤ n := by exact_mod_cast hn
  obtain ⟨hnlow, -⟩ := toFloat_bounds hn'
  obtain ⟨hllow, hlhigh⟩ := toFloat_bounds hl'.le
  obtain ⟨-, hxhigh⟩ := toFloat_bounds hx
  have hlpos : 0 < toFloat l := by linarith
  have hquot : 1005 / 1000 * x ≤ toFloat n / toFloat l := by
    rw [le_div_iff₀ hlpos]
    calc 1005 / 1000 * x * toFloat l ≤ 1005 / 1000 * x * (1001 / 1000 * l) :=
          mul_le_mul_of_nonneg_left hlhigh (by linarith)
      _ ≤ 999 / 1000 * (101 / 100 * x * l) := by nlinarith [mul_nonneg hx hl'.le]
      _ ≤ 999 / 1000 * n := by linarith
      _ ≤ toFloat n := hnlow
  obtain ⟨hqlow, -⟩ := toFloat_bounds (div_nonneg (by linarith) hlpos.le : 0 ≤ toFloat n / toFloat l)
  unfold quotientBelow
  rw [if_neg hl.ne', decide_eq_false_iff_not, not_lt]
  linarith

example : quotientBelow 1 5 (3 / 10) = true := by decide +kernel

end P2Player.Java
