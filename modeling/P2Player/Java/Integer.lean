import Mathlib.Tactic

/-!
# Java's fixed-width integers

An `int` or `long` is an integer; an arithmetic result is brought back to the type's range by
`toInt` or `toLong`, which wrap around in two's complement.  A narrowing cast `(int) x` is `toInt`
as well.
-/

namespace P2Player.Java

/-- `Integer.MAX_VALUE`. -/
def maxInt : ℤ := 2147483647

/-- `Long.MAX_VALUE`. -/
def maxLong : ℤ := 9223372036854775807

/-- The value of type `int` congruent to `x` modulo `2 ^ 32`. -/
def toInt (x : ℤ) : ℤ := (x + 2147483648) % 4294967296 - 2147483648

/-- The value of type `long` congruent to `x` modulo `2 ^ 64`. -/
def toLong (x : ℤ) : ℤ := (x + 9223372036854775808) % 18446744073709551616 - 9223372036854775808

/-- The values of type `int`. -/
def IsInt (x : ℤ) : Prop := -2147483648 ≤ x ∧ x ≤ 2147483647

/-- The values of type `long`. -/
def IsLong (x : ℤ) : Prop := -9223372036854775808 ≤ x ∧ x ≤ 9223372036854775807

instance (x : ℤ) : Decidable (IsInt x) := inferInstanceAs (Decidable (_ ∧ _))

instance (x : ℤ) : Decidable (IsLong x) := inferInstanceAs (Decidable (_ ∧ _))

@[simp] theorem toInt_of_isInt {x : ℤ} (h : IsInt x) : toInt x = x := by
  unfold IsInt at h; unfold toInt; omega

@[simp] theorem toLong_of_isLong {x : ℤ} (h : IsLong x) : toLong x = x := by
  unfold IsLong at h; unfold toLong; omega

theorem toInt_natCast {n : ℕ} (h : n < 2147483648) : toInt n = n :=
  toInt_of_isInt ⟨by omega, by omega⟩

/-- Wrapping an intermediate product does not change a wrapped difference. -/
theorem toInt_sub_toInt (x y : ℤ) : toInt (x - toInt y) = toInt (x - y) := by
  unfold toInt; omega

/-- A factor may be wrapped before the product is. -/
theorem toInt_mul_toInt (x y : ℤ) : toInt (x * toInt y) = toInt (x * y) := by
  obtain ⟨k, hk⟩ : ∃ k, toInt y = y + 4294967296 * k :=
    ⟨-((y + 2147483648) / 4294967296), by unfold toInt; omega⟩
  have hmul : x * toInt y + 2147483648 = x * y + 2147483648 + 4294967296 * (x * k) := by
    rw [hk]
    ring
  rw [toInt, hmul, Int.add_mul_emod_self_left, ← toInt]

/-- A cast to `int` undoes the wrapping of a `long`. -/
theorem toInt_toLong (x : ℤ) : toInt (toLong x) = toInt x := by
  unfold toInt toLong; omega

end P2Player.Java
