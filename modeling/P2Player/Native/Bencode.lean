import Mathlib.Tactic

/-!
# Bencoded entries

Resume data, the state of the session and the files of torrents are entries, which are written as bytes by
`bencode`.

* `Entry`: the entries; a dictionary is a list in the order of its keys, like `std::map`;
* `integerToStr`, `bencode`: how they are written;
* `Entry.WellFormed`, `Entry.nesting`: what can be read again;
* `digitsLoop_spec`: the digits that are written are read as the number.
-/

namespace P2Player.Bencode

/-- A byte by its character. -/
def byte (c : Char) : UInt8 := c.toUInt8

/-- `entry`. -/
inductive Entry
  | undefined
  | int (i : ℤ)
  | string (s : List UInt8)
  | list (l : List Entry)
  | dict (d : List (List UInt8 × Entry))

/-- `boost::int64_t`. -/
def int64 (x : ℤ) : ℤ := x.bmod (2 ^ 64)

/-- The loop of `integer_to_str`, with the room that is left in the buffer. -/
def digitsLoop : ℕ → ℤ → List UInt8 → List UInt8
  | 0, _, buf => buf
  | size + 1, val, buf =>
    if val = 0 then buf
    else digitsLoop size (val.tdiv 10) (UInt8.ofNat (48 + val.tmod 10).toNat :: buf)

/-- `integer_to_str`, with a buffer of 21 bytes, the last of which is zero. -/
def integerToStr (val : ℤ) : List UInt8 :=
  let sign := if val < 0 then 1 else 0
  let val := if val < 0 then int64 (-val) else val
  let buf := if val = 0 then [byte '0'] else []
  let buf := digitsLoop (20 - buf.length - sign) val buf
  if sign = 1 then byte '-' :: buf else buf

/-- A string with its length. -/
def writeString (s : List UInt8) : List UInt8 := integerToStr s.length ++ byte ':' :: s

mutual

/-- `bencode_recursive`. -/
def bencode : Entry → List UInt8
  | .int i => byte 'i' :: integerToStr i ++ [byte 'e']
  | .string s => writeString s
  | .list l => byte 'l' :: bencodeList l ++ [byte 'e']
  | .dict d => byte 'd' :: bencodeDict d ++ [byte 'e']
  | .undefined => []

def bencodeList : List Entry → List UInt8
  | [] => []
  | e :: l => bencode e ++ bencodeList l

def bencodeDict : List (List UInt8 × Entry) → List UInt8
  | [] => []
  | (key, e) :: d => writeString key ++ bencode e ++ bencodeDict d

end

/-- The last capacity that an array of entries can grow to; one and a half times as much has overflown. -/
def maxMembers : ℕ := 20767725

mutual

/-- Every entry has a type, integers have 64 bits and a sign, lengths 31 bits, keys are in order, and there
are not too many in a list or a dictionary. -/
def Entry.WellFormed : Entry → Prop
  | .int i => -2 ^ 63 < i ∧ i < 2 ^ 63
  | .string s => s.length < 2 ^ 31
  | .list l => l.length ≤ maxMembers ∧ WellFormedList l
  | .dict d => d.length ≤ maxMembers ∧ (d.map Prod.fst).Pairwise (· < ·) ∧ WellFormedDict d
  | .undefined => False

def WellFormedList : List Entry → Prop
  | [] => True
  | e :: l => e.WellFormed ∧ WellFormedList l

def WellFormedDict : List (List UInt8 × Entry) → Prop
  | [] => True
  | (key, e) :: d => key.length < 2 ^ 31 ∧ e.WellFormed ∧ WellFormedDict d

end

mutual

/-- How deep lists and dictionaries are nested. -/
def Entry.nesting : Entry → ℕ
  | .list l => nestingList l + 1
  | .dict d => nestingDict d + 1
  | _ => 0

def nestingList : List Entry → ℕ
  | [] => 0
  | e :: l => max e.nesting (nestingList l)

def nestingDict : List (List UInt8 × Entry) → ℕ
  | [] => 0
  | (_, e) :: d => max e.nesting (nestingDict d)

end

/-! ### Numbers -/

/-- `is_digit`. -/
def isDigit (c : UInt8) : Bool := byte '0' ≤ c && c ≤ byte '9'

/-- `parse_int`: the value, and the bytes from the delimiter on when only digits come before it. -/
def parseInt (delimiter : UInt8) (val : ℤ) : List UInt8 → ℤ × Option (List UInt8)
  | [] => (val, some [])
  | c :: rest =>
    if c = delimiter then (val, some (c :: rest))
    else if isDigit c then parseInt delimiter (int64 (val * 10 + (c.toNat - 48))) rest
    else (val, none)

/-- `num_digits`. -/
def numDigits (val : ℕ) : ℕ := if val < 10 then 1 else numDigits (val / 10) + 1

section Digits

variable {delimiter : UInt8}

theorem isDigit_ofNat {k : ℕ} (hk : k < 10) : isDigit (UInt8.ofNat (48 + k)) = true := by
  interval_cases k <;> rfl

theorem toNat_ofNat {k : ℕ} (hk : k < 10) : ((UInt8.ofNat (48 + k)).toNat : ℤ) - 48 = k := by
  interval_cases k <;> rfl

theorem int64_natCast {n : ℕ} (hn : n < 2 ^ 63) : int64 n = n :=
  Int.bmod_eq_of_le (by omega) (by omega)

theorem parseInt_digit (hdel : isDigit delimiter = false) {k : ℕ} (hk : k < 10) (val : ℤ)
    (rest : List UInt8) : parseInt delimiter val (UInt8.ofNat (48 + k) :: rest) =
      parseInt delimiter (int64 (val * 10 + k)) rest := by
  have hne : UInt8.ofNat (48 + k) ≠ delimiter := fun he => by
    rw [← he, isDigit_ofNat hk] at hdel
    cases hdel
  rw [parseInt, if_neg hne, if_pos (isDigit_ofNat hk), toNat_ofNat hk]

/-- The digits of a positive number, as they are read. -/
theorem digitsLoop_spec (hdel : isDigit delimiter = false) (size : ℕ) {v : ℕ} (hv : 0 < v) (hsize : v < 10 ^ size)
    (hmax : v < 2 ^ 63) (buf : List UInt8) :
    ∃ k ds, digitsLoop size v buf = UInt8.ofNat (48 + k) :: ds ++ buf ∧ k < 10 ∧
      ds.length + 1 = numDigits v ∧ (∀ c ∈ ds, isDigit c = true) ∧
        ∀ rest, parseInt delimiter k (ds ++ rest) = parseInt delimiter v rest := by
  induction size generalizing v buf with
  | zero =>
    rw [pow_zero] at hsize
    omega
  | succ size ih =>
    have hmod : ((v : ℤ).tmod 10) = (v % 10 : ℕ) := by rw [Int.tmod_eq_emod_of_nonneg (by omega)]; rfl
    have hdiv : ((v : ℤ).tdiv 10) = (v / 10 : ℕ) := by rw [Int.tdiv_eq_ediv_of_nonneg (by omega)]; rfl
    have hlt : v % 10 < 10 := Nat.mod_lt _ (by omega)
    rw [digitsLoop, if_neg (by omega), hmod, hdiv, show (48 + ((v % 10 : ℕ) : ℤ)).toNat = 48 + v % 10 by omega]
    by_cases hsmall : v < 10
    · refine ⟨v, [], ?_, hsmall, ?_, nofun, fun rest => rfl⟩
      · rw [Nat.div_eq_of_lt hsmall, Nat.mod_eq_of_lt hsmall]
        cases size with
        | zero => rfl
        | succ size => rfl
      · rw [numDigits, if_pos hsmall]
        rfl
    · obtain ⟨k, ds, hds, hk, hlen, hdigits, hparse⟩ := ih (v := v / 10) (by omega)
        (by rw [pow_succ] at hsize; omega) (by omega) (UInt8.ofNat (48 + v % 10) :: buf)
      refine ⟨k, ds ++ [UInt8.ofNat (48 + v % 10)], ?_, hk, ?_, fun c hc => ?_, fun rest => ?_⟩
      · rw [hds]
        simp
      · rw [numDigits, if_neg hsmall, ← hlen, List.length_append, List.length_singleton]
      · rcases List.mem_append.1 hc with hc | hc
        · exact hdigits c hc
        · rw [List.mem_singleton.1 hc]
          exact isDigit_ofNat hlt
      · have hval : ((v / 10 : ℕ) : ℤ) * 10 + (v % 10 : ℕ) = v := by omega
        rw [List.append_assoc, hparse, List.singleton_append, parseInt_digit hdel hlt, hval,
          int64_natCast hmax]

/-- A number that is not negative, as it is written and read. -/
theorem integerToStr_natCast (delimiter : UInt8) (hdel : isDigit delimiter = false) {n : ℕ} (hn : n < 2 ^ 63) :
    ∃ k ds, integerToStr n = UInt8.ofNat (48 + k) :: ds ∧ k < 10 ∧ ds.length + 1 = numDigits n ∧
      (∀ c ∈ ds, isDigit c = true) ∧ ∀ rest, parseInt delimiter k (ds ++ rest) = parseInt delimiter n rest := by
  have hsign : ¬ (n : ℤ) < 0 := by omega
  unfold integerToStr
  simp only [hsign, ↓reduceIte, Nat.zero_ne_one]
  by_cases hzero : n = 0
  · subst hzero
    exact ⟨0, [], rfl, by decide, by rw [numDigits]; rfl, nofun, fun rest => rfl⟩
  · obtain ⟨k, ds, hds, h⟩ := digitsLoop_spec hdel 20 (Nat.pos_of_ne_zero hzero)
      (hn.trans (by decide)) hn []
    rw [if_neg (by omega)]
    refine ⟨k, ds, ?_, h⟩
    rw [List.length_nil, Nat.sub_zero, Nat.sub_zero, hds, List.append_nil]

/-- A negative number, which is written with a sign. -/
theorem integerToStr_neg (delimiter : UInt8) (hdel : isDigit delimiter = false) {n : ℕ} (hpos : 0 < n) (hn : n < 2 ^ 63) :
    ∃ k ds, integerToStr (-n) = byte '-' :: UInt8.ofNat (48 + k) :: ds ∧ k < 10 ∧
      (∀ c ∈ ds, isDigit c = true) ∧ ∀ rest, parseInt delimiter k (ds ++ rest) = parseInt delimiter n rest := by
  have hwrap : int64 (- -(n : ℤ)) = n := by
    rw [neg_neg, int64_natCast hn]
  obtain ⟨k, ds, hds, hk, -, h⟩ := digitsLoop_spec hdel 19 hpos (hn.trans (by decide)) hn []
  refine ⟨k, ds, ?_, hk, h⟩
  have hsign : -(n : ℤ) < 0 := by omega
  have hne : ¬ (n : ℤ) = 0 := by omega
  unfold integerToStr
  simp only [hsign, ↓reduceIte, hwrap, hne]
  rw [List.length_nil, Nat.sub_zero, hds, List.append_nil]

end Digits

end P2Player.Bencode
