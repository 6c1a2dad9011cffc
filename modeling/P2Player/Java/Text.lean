import P2Player.Java.Integer

/-!
# Numbers in Java strings

A string is the list of its characters; a supplementary character stands for its two surrogates,
which no function below tells apart from other characters that are no digits.

* `charDigit`: `Character.digit(c, 10)`;
* `parseLong`, `parseInt`: the value, or nothing for a `NumberFormatException`;
* `longToString`: `Long.toString`, with the facts that recover the number from a longer text;
* `parseLong_of_isDigit`, `parseInt_of_isDigit`: the numbers of ASCII digits.
-/

namespace P2Player.Java

/-- A Java string. -/
abbrev JString := List Char

/-- The zeros of the blocks of decimal digits in the basic plane (Unicode 6.0, as in Java 7). -/
def digitZeros : List ℕ :=
  [0x30, 0x660, 0x6F0, 0x7C0, 0x966, 0x9E6, 0xA66, 0xAE6, 0xB66, 0xBE6, 0xC66, 0xCE6, 0xD66, 0xE50,
    0xED0, 0xF20, 0x1040, 0x1090, 0x17E0, 0x1810, 0x1946, 0x19D0, 0x1A80, 0x1A90, 0x1B50, 0x1BB0,
    0x1C40, 0x1C50, 0xA620, 0xA8D0, 0xA900, 0xA9D0, 0xAA50, 0xABF0, 0xFF10]

/-- `Character.digit(c, 10)`, with `none` for -1. -/
def charDigit (c : Char) : Option ℕ :=
  (digitZeros.find? fun z => z ≤ c.toNat && c.toNat < z + 10).map (c.toNat - ·)

/-- The value of a non-empty string of digits. -/
def digitsValue (s : JString) : Option ℕ :=
  if s = [] then none else s.foldlM (fun acc c => (charDigit c).map (10 * acc + ·)) 0

/-- A number with an optional sign. -/
def signedValue : JString → Option ℤ
  | '-' :: ds => (digitsValue ds).map fun n : ℕ => -(n : ℤ)
  | '+' :: ds => (digitsValue ds).map fun n : ℕ => (n : ℤ)
  | ds => (digitsValue ds).map fun n : ℕ => (n : ℤ)

/-- `Long.parseLong`. -/
def parseLong (s : JString) : Option ℤ := (signedValue s).filter fun v => IsLong v

/-- `Integer.parseInt`. -/
def parseInt (s : JString) : Option ℤ := (signedValue s).filter fun v => IsInt v

/-- `Long.toString`. -/
def longToString (n : ℤ) : JString :=
  if n < 0 then '-' :: Nat.toDigits 10 n.natAbs else Nat.toDigits 10 n.toNat

/-- A text is split at the first occurrence of a separator in one way. -/
theorem append_sep_inj {c : Char} {s t r r' : JString} (hs : c ∉ s) (ht : c ∉ t)
    (h : s ++ c :: r = t ++ c :: r') : s = t ∧ r = r' := by
  induction s generalizing t with
  | nil =>
    cases t with
    | nil => exact ⟨rfl, (List.cons.inj h).2⟩
    | cons d t => exact absurd (List.cons.inj h).1 (List.ne_of_not_mem_cons ht)
  | cons d s ih =>
    cases t with
    | nil => exact absurd (List.cons.inj h).1.symm (List.ne_of_not_mem_cons hs)
    | cons e t =>
      obtain ⟨rfl, htail⟩ := List.cons.inj h
      obtain ⟨rfl, hr⟩ :=
        ih (List.not_mem_of_not_mem_cons hs) (List.not_mem_of_not_mem_cons ht) htail
      exact ⟨rfl, hr⟩

/-- `indexOf` finds a separator behind the part that is free of it. -/
theorem indexOf_eq_some_iff {c : Char} {s : JString} {i : ℕ} :
    s.idxOf? c = some i ↔ ∃ first last, s = first ++ c :: last ∧ c ∉ first ∧ first.length = i := by
  induction s generalizing i with
  | nil => simp
  | cons d s ih =>
    rw [List.idxOf?_cons]
    by_cases hd : d = c
    · subst hd
      simp only [BEq.rfl, if_true, Option.some.injEq]
      constructor
      · rintro rfl
        exact ⟨[], s, rfl, by simp, rfl⟩
      · rintro ⟨first, last, h, hnot, rfl⟩
        cases first with
        | nil => rfl
        | cons e first => exact absurd (List.cons.inj h).1 (List.ne_of_not_mem_cons hnot)
    · simp only [beq_iff_eq, hd, if_false, Option.map_eq_some_iff, ih]
      constructor
      · rintro ⟨j, ⟨first, last, rfl, hnot, rfl⟩, rfl⟩
        exact ⟨d :: first, last, rfl, by simp [hnot, Ne.symm hd], rfl⟩
      · rintro ⟨first, last, h, hnot, rfl⟩
        cases first with
        | nil => exact absurd (List.cons.inj h).1 hd
        | cons e first =>
          obtain ⟨rfl, rfl⟩ := List.cons.inj h
          exact ⟨_, ⟨first, last, rfl, List.not_mem_of_not_mem_cons hnot, rfl⟩, rfl⟩

/-- A number without a minus sign is not negative. -/
theorem parseLong_nonneg {s : JString} {v : ℤ} (hs : '-' ∉ s) (h : parseLong s = some v) :
    0 ≤ v := by
  have hv := (Option.filter_eq_some_iff.1 h).1
  unfold signedValue at hv
  split at hv
  · simp at hs
  all_goals
    obtain ⟨n, -, rfl⟩ := Option.map_eq_some_iff.1 hv
    exact Int.natCast_nonneg _

theorem longToString_of_nonneg {n : ℤ} (h : 0 ≤ n) : longToString n = Nat.toDigits 10 n.toNat := by
  rw [longToString, if_neg (by omega)]

/-- The text of a non-negative number has digits only. -/
theorem notMem_longToString {n : ℤ} (h : 0 ≤ n) {c : Char} (hc : c.isDigit = false) :
    c ∉ longToString n := by
  rw [longToString_of_nonneg h]
  intro hmem
  rw [Nat.isDigit_of_mem_toDigits (by decide) (by decide) hmem] at hc
  cases hc

theorem longToString_inj {m n : ℤ} (hm : 0 ≤ m) (hn : 0 ≤ n)
    (h : longToString m = longToString n) : m = n := by
  rw [longToString_of_nonneg hm, longToString_of_nonneg hn] at h
  have hnat : m.toNat = n.toNat := by
    rw [← @Nat.ofDigitChars_ten_toDigits m.toNat, h, Nat.ofDigitChars_ten_toDigits]
  omega

/-- Two numbers in front of a separator that is no digit. -/
theorem longToString_append_inj {m n : ℤ} {c : Char} {r r' : JString} (hm : 0 ≤ m) (hn : 0 ≤ n)
    (hc : c.isDigit = false) (h : longToString m ++ c :: r = longToString n ++ c :: r') :
    m = n ∧ r = r' := by
  obtain ⟨hmn, hr⟩ := append_sep_inj (notMem_longToString hm hc) (notMem_longToString hn hc) h
  exact ⟨longToString_inj hm hn hmn, hr⟩

/-! ### ASCII digits -/

theorem charDigit_of_isDigit {c : Char} (h : c.isDigit = true) :
    charDigit c = some (c.toNat - '0'.toNat) := by
  have hrange : 0x30 ≤ c.toNat ∧ c.toNat < 0x30 + 10 := by
    simp only [Char.isDigit, Bool.and_eq_true, decide_eq_true_eq, ge_iff_le, UInt32.le_iff_toNat_le] at h
    exact ⟨h.1, Nat.lt_succ_of_le h.2⟩
  unfold charDigit digitZeros
  rw [List.find?_cons_of_pos (by simp [hrange])]
  rfl

theorem foldlM_charDigit {s : JString} (h : ∀ c ∈ s, c.isDigit = true) (acc : ℕ) :
    s.foldlM (fun acc c => (charDigit c).map (10 * acc + ·)) acc = some (Nat.ofDigitChars 10 s acc) := by
  induction s generalizing acc with
  | nil => rfl
  | cons c s ih =>
    rw [List.foldlM_cons, charDigit_of_isDigit (h c List.mem_cons_self)]
    exact ih (fun d hd => h d (List.mem_cons_of_mem _ hd)) _

/-- A non-empty string of ASCII digits is a number without a sign. -/
theorem signedValue_of_isDigit {s : JString} (hne : s ≠ []) (h : ∀ c ∈ s, c.isDigit = true) :
    signedValue s = some (Nat.ofDigitChars 10 s 0 : ℤ) := by
  have hvalue : digitsValue s = some (Nat.ofDigitChars 10 s 0) := by
    rw [digitsValue, if_neg hne, foldlM_charDigit h]
  unfold signedValue
  split
  · exact absurd (h '-' List.mem_cons_self) (by decide)
  · exact absurd (h '+' List.mem_cons_self) (by decide)
  · rw [hvalue]
    rfl

theorem parseLong_of_isDigit {s : JString} (hne : s ≠ []) (h : ∀ c ∈ s, c.isDigit = true) :
    parseLong s = if (Nat.ofDigitChars 10 s 0 : ℤ) ≤ maxLong then some (Nat.ofDigitChars 10 s 0 : ℤ)
      else none := by
  rw [parseLong, signedValue_of_isDigit hne h, Option.filter_some]
  congr 1
  simp [IsLong, maxLong]

theorem parseInt_of_isDigit {s : JString} (hne : s ≠ []) (h : ∀ c ∈ s, c.isDigit = true)
    (hlt : Nat.ofDigitChars 10 s 0 < 2 ^ 31) : parseInt s = some (Nat.ofDigitChars 10 s 0 : ℤ) := by
  rw [parseInt, signedValue_of_isDigit hne h, Option.filter_some, if_pos]
  simp [IsInt]
  omega

end P2Player.Java
