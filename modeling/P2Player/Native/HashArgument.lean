import Mathlib.Data.List.TakeWhile
import P2Player.Java.Utf16
import P2Player.Native.Sha1Hash

/-!
# Hash arguments of the native functions

An operation on one torrent gets the hash as a Java string.  `HASH_ASSERT` refuses a string that is
null or shorter than 40 bytes, `JStringToHash` decodes its first 40 bytes, whatever `from_hex` says of
them, and `GetTorrentInfo` looks the result up.

* `getStringUTFChars`: the bytes of a string of UTF-16 code units in JNI;
* `enter`, `operation`: an entry point up to the lookup, and around its body;
* `Encodes`, `DecodedExactly`: what the argument stands for;
* `Mistaken`: the strings taken for a torrent that they do not name;
* `decodedExactly_iff`: these are the only ones that go wrong;
* `jStringToHash_eq`: strings of characters are decoded as before.
-/

namespace P2Player.Native

open Java

/-! ### Strings -/

/-- A code unit in modified UTF-8. -/
def modifiedUTF8 (u : UInt16) : List ℕ :=
  if 0 < u.toNat ∧ u.toNat < 0x80 then [u.toNat]
  else if u.toNat < 0x800 then [0xC0 + u.toNat / 0x40, 0x80 + u.toNat % 0x40]
  else [0xE0 + u.toNat / 0x1000, 0x80 + u.toNat / 0x40 % 0x40, 0x80 + u.toNat % 0x40]

/-- `GetStringUTFChars`, a character for each byte.  The terminating zero is left out. -/
def getStringUTFChars (s : JavaString) : JString := (s.flatMap modifiedUTF8).map Char.ofNat

/-- `hex_to_int` accepts the character. -/
def isHexChar (c : Char) : Bool := (hexToInt c).isSome

/-! ### An entry point -/

/-- What the native layer throws. -/
inductive Thrown
  | nullPointerException (message : String)
  | torrentException (message : String)
  deriving DecidableEq

/-- `HASH_ASSERT`. -/
def hashAssert : Option JavaString → Except Thrown JavaString
  | none => .error (.nullPointerException "Exception: torrent's hashcode must not null")
  | some s =>
    if (getStringUTFChars s).length < 40 then
      .error (.torrentException "Exception: invalid hash code torrent")
    else .ok s

/-- `JStringToHash`. -/
def JavaString.toHash (s : JavaString) : Sha1Hash :=
  ⟨fromHex 20 (getStringUTFChars s), length_fromHex 20 _⟩

/-- `GetTorrentInfo`. -/
def getTorrentInfo {I : Type} (gTorrents : Sha1Hash → Option I) (hash : Sha1Hash) :
    Except Thrown I :=
  match gTorrents hash with
  | some info => .ok info
  | none => .error (.torrentException "Exception: torrent handle not found")

/-- The torrent that an operation acts on, with the hash it was found under; `none` without a
session. -/
def enter {I : Type} (gSessionState : Bool) (gTorrents : Sha1Hash → Option I)
    (hashCode : Option JavaString) : Except Thrown (Option (Sha1Hash × I)) := do
  let s ← hashAssert hashCode
  if gSessionState then
    let info ← getTorrentInfo gTorrents (JavaString.toHash s)
    .ok (some (JavaString.toHash s, info))
  else .ok none

/-- A native function: its body on the torrent, or an exception, or the default result `result`. -/
def operation {I S R : Type} (body : Sha1Hash → I → S → Except Thrown R × S) (result : R)
    (gSessionState : Bool) (gTorrents : Sha1Hash → Option I) (hashCode : Option JavaString) (s : S) :
    Except Thrown R × S :=
  match enter gSessionState gTorrents hashCode with
  | .error e => (.error e, s)
  | .ok none => (.ok result, s)
  | .ok (some (hash, info)) => body hash info s

/-! ### What the argument stands for -/

/-- The string is the hash in hexadecimal digits of either case. -/
def Encodes (s : JavaString) (hash : Sha1Hash) : Prop :=
  s.map (fun u => (unitChar u).toLower) = toHex hash

instance (s : JavaString) (hash : Sha1Hash) : Decidable (Encodes s hash) :=
  inferInstanceAs (Decidable (_ = _))

/-- In a session, an operation acts on a tracked torrent exactly when its argument encodes the
torrent's hash, and an argument that encodes no tracked hash raises an exception and changes
nothing. -/
structure DecodedExactly {I : Type} (gTorrents : Sha1Hash → Option I)
    (hashCode : Option JavaString) : Prop where
  acts_iff : ∀ hash info, gTorrents hash = some info →
    (enter true gTorrents hashCode = .ok (some (hash, info)) ↔
      ∃ s, hashCode = some s ∧ Encodes s hash)
  raises : (∀ s hash, hashCode = some s → Encodes s hash → gTorrents hash = none) →
    ∃ e, ∀ {S R : Type} (body : Sha1Hash → I → S → Except Thrown R × S) (result : R) (s : S),
      operation body result true gTorrents hashCode s = (.error e, s)

/-- The hexadecimal digits in front, filled up with zeros to 40 or cut off there. -/
def leadingDigits (s : JavaString) : JavaString :=
  (s.takeWhile fun u => isHexChar (unitChar u)).takeD 40 0x30

/-- The string has 40 bytes or more and is no encoding of a hash, but its leading digits encode the
hash of a tracked torrent. -/
def Mistaken {I : Type} (gTorrents : Sha1Hash → Option I) (s : JavaString) : Prop :=
  40 ≤ (getStringUTFChars s).length ∧ (∀ hash, ¬ Encodes s hash) ∧
    ∃ hash, Encodes (leadingDigits s) hash ∧ (gTorrents hash).isSome

/-! ### Digits of either case -/

/-- A fact about the characters below a bound. -/
theorem forall_char_of_lt {P : Char → Prop} {b : ℕ} (h : ∀ n < b, P (Char.ofNat n)) {c : Char}
    (hc : c.toNat < b) : P c := by
  have hfact := h c.toNat hc
  rwa [Char.ofNat_toNat] at hfact

theorem hexToInt_of_le {c : Char} (h : 128 ≤ c.toNat) : hexToInt c = none := by
  have hlt : ∀ d : Char, d.toNat < 128 → ¬ c ≤ d := by
    intro d hd hcd
    have hnat : c.toNat ≤ d.toNat := hcd
    omega
  rw [hexToInt, if_neg fun hc => hlt '9' (by decide) hc.2, if_neg fun hc => hlt 'F' (by decide) hc.2,
    if_neg fun hc => hlt 'f' (by decide) hc.2]

theorem toLower_of_le {c : Char} (h : 128 ≤ c.toNat) : c.toLower = c := by
  refine dif_neg fun hc => ?_
  have hnat : c.toNat ≤ 'Z'.toNat := hc.2
  have hZ : 'Z'.toNat = 90 := rfl
  omega

/-- The digits are the characters whose lower case `to_hex` writes. -/
theorem hexToInt_eq_some_iff {c : Char} {n : ℕ} :
    hexToInt c = some n ↔ n < 16 ∧ c.toLower = hexChar n := by
  have hdigit : ∀ m < 16, (hexChar m).toNat < 128 := by decide
  rcases lt_or_ge c.toNat 128 with hc | hc
  · have hsome : ∀ n ∈ hexToInt c, n < 16 ∧ c.toLower = hexChar n :=
      @forall_char_of_lt (fun c => ∀ n ∈ hexToInt c, n < 16 ∧ c.toLower = hexChar n) 128
        (by decide) c hc
    have hchar : ∀ n < 16, c.toLower = hexChar n → hexToInt c = some n :=
      @forall_char_of_lt (fun c => ∀ n < 16, c.toLower = hexChar n → hexToInt c = some n) 128
        (by decide) c hc
    exact ⟨fun h => hsome n h, fun h => hchar n h.1 h.2⟩
  · rw [hexToInt_of_le hc, toLower_of_le hc]
    refine ⟨fun h => (by cases h), fun h => ?_⟩
    have hlt := hdigit n h.1
    rw [← h.2] at hlt
    omega

/-! ### Decoding -/

theorem byteToHex_ofNat {t u : ℕ} (ht : t < 16) (hu : u < 16) :
    byteToHex (UInt8.ofNat (16 * t + u)) = [hexChar t, hexChar u] := by
  have hval : (UInt8.ofNat (16 * t + u)).toNat = 16 * t + u := UInt8.toNat_ofNat_of_lt' (show _ < 256 by omega)
  rw [byteToHex, hval, show (16 * t + u) / 16 = t by omega, show (16 * t + u) % 16 = u by omega]

theorem flatMap_byteToHex_zero (n : ℕ) :
    (List.replicate n (0 : UInt8)).flatMap byteToHex = List.replicate (2 * n) '0' := by
  induction n with
  | zero => rfl
  | succ n ih =>
    rw [List.replicate_succ, List.flatMap_cons, ih]
    rfl

/-- What is decoded are the digits in front of the first other character, and zeros behind them. -/
theorem flatMap_fromHex (n : ℕ) (s : JString) :
    (fromHex n s).flatMap byteToHex =
      ((s.takeWhile isHexChar).takeD (2 * n) '0').map Char.toLower := by
  have hzero : '0'.toLower = '0' := rfl
  fun_induction fromHex n s with
  | case1 s => rfl
  | case2 n => simp [flatMap_byteToHex_zero, hzero]
  | case3 n c s hc =>
    simp [flatMap_byteToHex_zero, isHexChar, hc, hzero]
  | case4 n c t hc =>
    obtain ⟨ht, hlower⟩ := hexToInt_eq_some_iff.1 hc
    have hbyte : byteToHex (UInt8.ofNat (16 * t)) = [hexChar t, '0'] :=
      byteToHex_ofNat (u := 0) ht (by decide)
    rw [List.flatMap_cons, hbyte, flatMap_byteToHex_zero]
    simp [isHexChar, hc, hzero, hlower, Nat.mul_succ]
  | case5 n c t hc d s hd =>
    obtain ⟨ht, hlower⟩ := hexToInt_eq_some_iff.1 hc
    have hbyte : byteToHex (UInt8.ofNat (16 * t)) = [hexChar t, '0'] :=
      byteToHex_ofNat (u := 0) ht (by decide)
    rw [List.flatMap_cons, hbyte, flatMap_byteToHex_zero]
    simp [isHexChar, hc, hd, hzero, hlower, Nat.mul_succ]
  | case6 n c t hc d s u hd ih =>
    obtain ⟨ht, hlower⟩ := hexToInt_eq_some_iff.1 hc
    obtain ⟨hu, hlower'⟩ := hexToInt_eq_some_iff.1 hd
    rw [List.flatMap_cons, byteToHex_ofNat ht hu, ih]
    simp [isHexChar, hc, hd, hlower, hlower', Nat.mul_succ]

theorem isHexChar_ofNat {n : ℕ} (h : 128 ≤ n) : isHexChar (Char.ofNat n) = false := by
  unfold isHexChar
  by_cases hvalid : n.isValidChar
  · have hnat : (Char.ofNat n).toNat = n := by
      rw [Char.ofNat, dif_pos hvalid]
      rfl
    rw [hexToInt_of_le (by omega)]
    rfl
  · rw [Char.ofNat, dif_neg hvalid]
    rfl

/-- A code unit is one byte, or it is no digit and neither is its first byte. -/
theorem modifiedUTF8_cases (u : UInt16) :
    modifiedUTF8 u = [u.toNat] ∨ isHexChar (unitChar u) = false ∧
      ∃ b bs, modifiedUTF8 u = b :: bs ∧ isHexChar (Char.ofNat b) = false := by
  unfold modifiedUTF8 unitChar
  split_ifs with h1 h2
  · exact Or.inl rfl
  · refine Or.inr ⟨?_, _, _, rfl, isHexChar_ofNat (by omega)⟩
    rcases Nat.eq_zero_or_pos u.toNat with h0 | hpos
    · rw [h0]
      rfl
    · exact isHexChar_ofNat (by omega)
  · exact Or.inr ⟨isHexChar_ofNat (by omega), _, _, rfl, isHexChar_ofNat (by omega)⟩

theorem getStringUTFChars_cons (u : UInt16) (s : JavaString) :
    getStringUTFChars (u :: s) = (modifiedUTF8 u).map Char.ofNat ++ getStringUTFChars s := by
  rw [getStringUTFChars, List.flatMap_cons, List.map_append]
  rfl

/-- The digits in front of the bytes are those in front of the string. -/
theorem takeWhile_getStringUTFChars (s : JavaString) :
    (getStringUTFChars s).takeWhile isHexChar =
      (s.takeWhile fun u => isHexChar (unitChar u)).map unitChar := by
  induction s with
  | nil => rfl
  | cons u s ih =>
    rw [getStringUTFChars_cons]
    rcases modifiedUTF8_cases u with h | ⟨hu, b, bs, h, hb⟩
    · have hunit : Char.ofNat u.toNat = unitChar u := rfl
      rw [h, List.map_singleton, List.singleton_append, hunit]
      by_cases hu : isHexChar (unitChar u) = true
      · rw [List.takeWhile_cons_of_pos hu, ih,
          List.takeWhile_cons_of_pos (p := fun u => isHexChar (unitChar u)) hu, List.map_cons]
      · rw [List.takeWhile_cons_of_neg hu,
          List.takeWhile_cons_of_neg (p := fun u => isHexChar (unitChar u)) hu]
        rfl
    · rw [h, List.map_cons, List.cons_append, List.takeWhile_cons_of_neg (by simp [hb]),
        List.takeWhile_cons_of_neg (by simp [hu])]
      rfl

theorem map_takeD {α β : Type*} (f : α → β) (n : ℕ) (l : List α) (a : α) :
    (l.takeD n a).map f = (l.map f).takeD n (f a) := by
  induction n generalizing l with
  | zero => rfl
  | succ n ih =>
    rw [List.takeD_succ, List.takeD_succ, List.map_cons, ih]
    cases l <;> rfl

/-- **A string is decoded to the hash that its leading digits encode.** -/
theorem encodes_leadingDigits (s : JavaString) : Encodes (leadingDigits s) (JavaString.toHash s) := by
  have hzero : unitChar 0x30 = '0' := rfl
  have hmap : (leadingDigits s).map unitChar =
      ((getStringUTFChars s).takeWhile isHexChar).takeD (2 * 20) '0' := by
    rw [leadingDigits, map_takeD, takeWhile_getStringUTFChars, hzero]
  have hlower := flatMap_fromHex 20 (getStringUTFChars s)
  rw [← hmap, List.map_map] at hlower
  exact hlower.symm

theorem Encodes.unique {s : JavaString} {hash hash' : Sha1Hash} (h : Encodes s hash)
    (h' : Encodes s hash') : hash = hash' :=
  toHex_injective (h.symm.trans h')

theorem Encodes.length {s : JavaString} {hash : Sha1Hash} (h : Encodes s hash) : s.length = 40 := by
  rw [← length_toHex hash, ← h, List.length_map]

theorem Encodes.isHexChar {s : JavaString} {hash : Sha1Hash} (h : Encodes s hash) {u : UInt16}
    (hu : u ∈ s) : isHexChar (unitChar u) = true := by
  have hmem : (unitChar u).toLower ∈ toHex hash := by
    rw [← h]
    exact List.mem_map_of_mem hu
  obtain ⟨n, hn, hchar⟩ := mem_toHex hmem
  rw [Native.isHexChar, hexToInt_eq_some_iff.2 ⟨hn, hchar⟩]
  rfl

theorem Encodes.leadingDigits {s : JavaString} {hash : Sha1Hash} (h : Encodes s hash) :
    Native.leadingDigits s = s := by
  have hall : s.takeWhile (fun u => Native.isHexChar (unitChar u)) = s := by
    exact List.takeWhile_eq_self_iff.2 fun u hu => h.isHexChar hu
  rw [Native.leadingDigits, hall, List.takeD_eq_take _ h.length.ge, ← h.length, List.take_length]

theorem Encodes.toHash {s : JavaString} {hash : Sha1Hash} (h : Encodes s hash) :
    JavaString.toHash s = hash := by
  have hs := encodes_leadingDigits s
  rw [h.leadingDigits] at hs
  exact hs.unique h

theorem Encodes.length_getStringUTFChars {s : JavaString} {hash : Sha1Hash} (h : Encodes s hash) :
    (getStringUTFChars s).length = 40 := by
  have hone : ∀ x ∈ s.map fun u => (modifiedUTF8 u).length, x = 1 := by
    intro x hx
    obtain ⟨u, hu, rfl⟩ := List.mem_map.1 hx
    rcases modifiedUTF8_cases u with h1 | ⟨hnot, -⟩
    · rw [h1]
      rfl
    · rw [h.isHexChar hu] at hnot
      cases hnot
  rw [getStringUTFChars, List.length_map, List.length_flatMap, List.eq_replicate_of_mem hone,
    List.sum_replicate, List.length_map, h.length]
  rfl

/-! ### The lookup -/

section Lookup

variable {I : Type} {gTorrents : Sha1Hash → Option I}

/-- In a session, a string that is long enough leads to the torrent of the decoded hash. -/
theorem enter_some (s : JavaString) :
    enter true gTorrents (some s) =
      if (getStringUTFChars s).length < 40 then
        .error (.torrentException "Exception: invalid hash code torrent")
      else match gTorrents (JavaString.toHash s) with
        | some info => .ok (some (JavaString.toHash s, info))
        | none => .error (.torrentException "Exception: torrent handle not found") := by
  rw [enter, hashAssert]
  by_cases h : (getStringUTFChars s).length < 40
  · rw [if_pos h, if_pos h]
    rfl
  · rw [if_neg h, if_neg h]
    dsimp only [bind, Except.bind, getTorrentInfo]
    cases gTorrents (JavaString.toHash s) <;> rfl

theorem enter_eq_ok_iff {s : JavaString} {hash : Sha1Hash} {info : I} :
    enter true gTorrents (some s) = .ok (some (hash, info)) ↔
      40 ≤ (getStringUTFChars s).length ∧ JavaString.toHash s = hash ∧ gTorrents hash = some info := by
  rw [enter_some]
  split_ifs with h
  · exact ⟨fun he => (by cases he), fun he => absurd he.1 (by omega)⟩
  · constructor
    · intro he
      cases hg : gTorrents (JavaString.toHash s) with
      | none => rw [hg] at he; cases he
      | some info' =>
        rw [hg] at he
        cases he
        exact ⟨by omega, rfl, hg⟩
    · rintro ⟨-, rfl, hg⟩
      rw [hg]

/-- Nothing is done for a string that is too short or decoded to a hash that is not tracked. -/
theorem enter_eq_error {s : JavaString}
    (h : 40 ≤ (getStringUTFChars s).length → gTorrents (JavaString.toHash s) = none) :
    ∃ e, enter true gTorrents (some s) = .error e := by
  rw [enter_some]
  split_ifs with hlt
  · exact ⟨_, rfl⟩
  · rw [h (by omega)]
    exact ⟨_, rfl⟩

/-- An operation is decoded exactly unless it acts on a torrent that the string does not name. -/
theorem decodedExactly_some_iff {s : JavaString} :
    DecodedExactly gTorrents (some s) ↔ ∀ hash info,
      enter true gTorrents (some s) = .ok (some (hash, info)) → Encodes s hash := by
  constructor
  · intro h hash info he
    obtain ⟨-, -, hg⟩ := enter_eq_ok_iff.1 he
    obtain ⟨s', hs', henc⟩ := (h.acts_iff hash info hg).1 he
    cases hs'
    exact henc
  · intro h
    constructor
    · intro hash info hg
      refine ⟨fun he => ⟨s, rfl, h hash info he⟩, ?_⟩
      rintro ⟨s', hs', henc⟩
      cases hs'
      exact enter_eq_ok_iff.2 ⟨henc.length_getStringUTFChars.ge, henc.toHash, hg⟩
    · intro hnone
      obtain ⟨e, he⟩ : ∃ e, enter true gTorrents (some s) = .error e := by
        refine enter_eq_error fun hle => ?_
        cases hg : gTorrents (JavaString.toHash s) with
        | none => rfl
        | some info =>
          have henc := h _ info (enter_eq_ok_iff.2 ⟨hle, rfl, hg⟩)
          exact absurd (hnone s _ rfl henc) (by rw [hg]; simp)
      exact ⟨e, fun body result st => by rw [operation, he]⟩

/-- **A hash argument is decoded exactly if and only if it is not mistaken for a tracked torrent:
longer than a hash, or with another character among its digits.** -/
theorem decodedExactly_iff (gTorrents : Sha1Hash → Option I) (hashCode : Option JavaString) :
    DecodedExactly gTorrents hashCode ↔ ∀ s, hashCode = some s → ¬ Mistaken gTorrents s := by
  cases hashCode with
  | none =>
    refine ⟨fun _ s hs => (by cases hs), fun _ => ⟨fun hash info _ => ?_, fun _ => ?_⟩⟩
    · refine ⟨fun he => (by cases he), ?_⟩
      rintro ⟨s, hs, -⟩
      cases hs
    · exact ⟨_, fun body result st => rfl⟩
  | some s =>
    rw [decodedExactly_some_iff]
    constructor
    · rintro h s' hs' ⟨hle, hnot, hash, henc, htracked⟩
      cases hs'
      obtain ⟨info, hg⟩ := Option.isSome_iff_exists.1 htracked
      have hhash : JavaString.toHash s = hash := (encodes_leadingDigits s).unique henc
      exact hnot hash (h hash info (enter_eq_ok_iff.2 ⟨hle, hhash, hg⟩))
    · intro h hash info he
      obtain ⟨hle, rfl, hg⟩ := enter_eq_ok_iff.1 he
      by_contra hnot
      refine h s rfl ⟨hle, fun hash henc => ?_, JavaString.toHash s, encodes_leadingDigits s,
        by rw [hg]; rfl⟩
      rw [← henc.toHash] at henc
      exact hnot henc

end Lookup

/-! ### Strings of characters -/

theorem length_modifiedUTF8 (u : UInt16) : (modifiedUTF8 u).length =
    if u.toNat = 0 then 2 else if u.toNat < 0x80 then 1 else if u.toNat < 0x800 then 2 else 3 := by
  unfold modifiedUTF8
  split_ifs <;> first | rfl | omega

theorem length_flatMap_utf16 (c : Char) :
    ((utf16 c).flatMap modifiedUTF8).length = utfLength c := by
  rcases utf16_cases c with ⟨u, hu, hnat⟩ | ⟨hc, u, v, huv, ⟨hu, -⟩, hv, -⟩
  · have hlt : u.toNat < 0x10000 := u.toNat_lt
    rw [hu, List.flatMap_cons, List.flatMap_nil, List.append_nil, length_modifiedUTF8, utfLength,
      hnat]
    split_ifs <;> first | rfl | omega
  · rw [huv, List.flatMap_cons, List.flatMap_cons, List.flatMap_nil, List.append_nil,
      List.length_append, length_modifiedUTF8, length_modifiedUTF8, utfLength]
    split_ifs <;> first | rfl | omega

theorem length_getStringUTFChars_utf16 (s : JString) :
    (getStringUTFChars (s.flatMap utf16)).length = (s.map utfLength).sum := by
  induction s with
  | nil => rfl
  | cons c s ih =>
    rw [getStringUTFChars, List.length_map] at ih ⊢
    rw [List.flatMap_cons, List.flatMap_append, List.length_append, ih, length_flatMap_utf16,
      List.map_cons, List.sum_cons]

theorem takeWhile_utf16 (s : JString) :
    (getStringUTFChars (s.flatMap utf16)).takeWhile isHexChar = s.takeWhile isHexChar := by
  rw [takeWhile_getStringUTFChars]
  induction s with
  | nil => rfl
  | cons c s ih =>
    rw [List.flatMap_cons]
    rcases utf16_cases c with ⟨u, hu, hnat⟩ | ⟨hc, u, v, huv, ⟨hu, -⟩, -⟩
    · have hunit : unitChar u = c := by rw [unitChar, hnat, Char.ofNat_toNat]
      rw [hu, List.singleton_append]
      by_cases hhex : isHexChar c = true
      · rw [List.takeWhile_cons_of_pos hhex, List.takeWhile_cons_of_pos
          (p := fun u => isHexChar (unitChar u)) (by rw [hunit]; exact hhex), List.map_cons, hunit, ih]
      · rw [List.takeWhile_cons_of_neg hhex, List.takeWhile_cons_of_neg
          (p := fun u => isHexChar (unitChar u)) (by rw [hunit]; exact hhex)]
        rfl
    · have hnot : isHexChar (unitChar u) = false := isHexChar_ofNat (by omega)
      have hnot' : isHexChar c = false := by
        rw [isHexChar, hexToInt_of_le (by omega)]
        rfl
      rw [huv, List.cons_append, List.takeWhile_cons_of_neg (by simp [hnot]),
        List.takeWhile_cons_of_neg (by simp [hnot'])]
      rfl

/-- **A string of characters is decoded as its code units are.** -/
theorem jStringToHash_eq (s : JString) :
    jStringToHash s = if (getStringUTFChars (s.flatMap utf16)).length < 40 then none
      else some (JavaString.toHash (s.flatMap utf16)) := by
  have hdecode : fromHex 20 (getStringUTFChars (s.flatMap utf16)) = fromHex 20 s := by
    have heq : toHex ⟨_, length_fromHex 20 (getStringUTFChars (s.flatMap utf16))⟩ =
        toHex ⟨_, length_fromHex 20 s⟩ := by
      rw [toHex, toHex, flatMap_fromHex, flatMap_fromHex, takeWhile_utf16]
    exact congrArg Subtype.val (toHex_injective heq)
  rw [jStringToHash, length_getStringUTFChars_utf16]
  split_ifs with h
  · rfl
  · exact congrArg some (Subtype.ext hdecode.symm)

/-- 40 zeros and one character more. -/
def tooLong : JavaString := List.replicate 41 0x30

/-- The hash of 20 zeros. -/
def zeroHash : Sha1Hash := ⟨List.replicate 20 0, rfl⟩

/-- The torrent of the hash of zeros is the only one. -/
def onlyZero (hash : Sha1Hash) : Option Unit := if hash = zeroHash then some () else none

/-- A string of 41 digits acts on the torrent of its first 40. -/
theorem not_decodedExactly_tooLong : ¬ DecodedExactly onlyZero (some tooLong) := by
  intro h
  have he : enter true onlyZero (some tooLong) = .ok (some (zeroHash, ())) :=
    enter_eq_ok_iff.2 ⟨by decide, by decide, by decide⟩
  have henc := decodedExactly_some_iff.1 h _ _ he
  exact absurd henc.length (by decide)

end P2Player.Native
