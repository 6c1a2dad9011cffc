import P2Player.Java.Text

/-!
# Strings of code units

A Java string is any list of UTF-16 code units; the characters beyond the basic plane are pairs of
surrogates in it.

* `JavaString`: all strings;
* `unitChar`: the character of a code unit;
* `utf16`, `utf16_cases`: the code units of a character, one or a pair of surrogates.
-/

namespace P2Player.Java

/-- A Java string: UTF-16 code units, surrogates paired or not. -/
abbrev JavaString := List UInt16

/-- The character of a code unit that is no surrogate. -/
def unitChar (u : UInt16) : Char := Char.ofNat u.toNat

/-- The code units of a character. -/
def utf16 (c : Char) : List UInt16 :=
  if c.toNat < 0x10000 then [UInt16.ofNat c.toNat]
  else [UInt16.ofNat (0xD800 + (c.toNat - 0x10000) / 0x400),
    UInt16.ofNat (0xDC00 + (c.toNat - 0x10000) % 0x400)]

/-- The code unit is a half of a pair. -/
def IsSurrogate (u : UInt16) : Prop := 0xD800 ≤ u.toNat ∧ u.toNat < 0xE000

/-- A character beyond the basic plane is a pair of surrogates. -/
theorem utf16_cases (c : Char) :
    (∃ u, utf16 c = [u] ∧ u.toNat = c.toNat) ∨ 0x10000 ≤ c.toNat ∧
      ∃ u v, utf16 c = [u, v] ∧ IsSurrogate u ∧ IsSurrogate v := by
  have hc : c.toNat < 0x110000 := by
    rcases c.valid with h | ⟨-, h⟩
    · exact h.trans (by decide)
    · exact h
  unfold utf16
  split_ifs with h
  · exact Or.inl ⟨_, rfl, UInt16.toNat_ofNat_of_lt' h⟩
  · refine Or.inr ⟨by omega, _, _, rfl, ?_, ?_⟩
    · rw [IsSurrogate, UInt16.toNat_ofNat_of_lt' (show _ < 0x10000 by omega)]
      omega
    · rw [IsSurrogate, UInt16.toNat_ofNat_of_lt' (show _ < 0x10000 by omega)]
      omega

theorem unitChar_of_toNat {u : UInt16} {c : Char} (h : u.toNat = c.toNat) : unitChar u = c := by
  rw [unitChar, h, Char.ofNat_toNat]

/-- A surrogate is no character of its own. -/
theorem unitChar_of_isSurrogate {u : UInt16} (h : IsSurrogate u) : unitChar u = Char.ofNat 0 := by
  have hnot : ¬ u.toNat.isValidChar := by
    rintro (hlt | ⟨hlt, -⟩)
    · exact absurd h.1 (by omega)
    · exact absurd h.2 (by omega)
  rw [unitChar, Char.ofNat, dif_neg hnot]
  rfl

theorem toNat_unitChar (u : UInt16) : (unitChar u).toNat = u.toNat ∨ (unitChar u).toNat = 0 := by
  unfold unitChar
  by_cases h : u.toNat.isValidChar
  · left
    rw [Char.ofNat, dif_pos h]
    rfl
  · right
    rw [Char.ofNat, dif_neg h]
    rfl

theorem unitChar_eq_iff {u : UInt16} {c : Char} (h0 : c.toNat ≠ 0) (hc : c.toNat < 0x10000) :
    unitChar u = c ↔ u = UInt16.ofNat c.toNat := by
  constructor
  · rintro rfl
    rcases toNat_unitChar u with h | h
    · rw [h, UInt16.ofNat_toNat]
    · exact absurd h h0
  · rintro rfl
    exact unitChar_of_toNat (UInt16.toNat_ofNat_of_lt' hc)

end P2Player.Java
