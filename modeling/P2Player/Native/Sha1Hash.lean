import P2Player.Java.Text

/-!
# Info hashes and their hexadecimal form

The Java side names a torrent by the 40 lower-case hexadecimal digits of its info hash; the native
side turns such a string back into the 20 bytes of a `sha1_hash`.

* `Sha1Hash`, `toHex`: the hash and the string that the native layer hands out;
* `fromHex`, `jStringToHash`: the decoding, which leaves zeros behind the first character that is
  no hexadecimal digit;
* `jStringToHash_toHex`: decoding undoes encoding.
-/

namespace P2Player.Native

open Java

/-- `libtorrent::sha1_hash`. -/
abbrev Sha1Hash := { bytes : List UInt8 // bytes.length = 20 }

/-- `hex_chars`. -/
def hexChars : JString :=
  ['0', '1', '2', '3', '4', '5', '6', '7', '8', '9', 'a', 'b', 'c', 'd', 'e', 'f']

/-- The digit of a half byte. -/
def hexChar (n : ℕ) : Char := hexChars.getD n '0'

/-- `to_hex` of one byte. -/
def byteToHex (b : UInt8) : JString := [hexChar (b.toNat / 16), hexChar (b.toNat % 16)]

/-- `to_hex` of a hash. -/
def toHex (h : Sha1Hash) : JString := h.1.flatMap byteToHex

/-- `hex_to_int`, with `none` for -1. -/
def hexToInt (c : Char) : Option ℕ :=
  if '0' ≤ c ∧ c ≤ '9' then some (c.toNat - '0'.toNat)
  else if 'A' ≤ c ∧ c ≤ 'F' then some (c.toNat - 'A'.toNat + 10)
  else if 'a' ≤ c ∧ c ≤ 'f' then some (c.toNat - 'a'.toNat + 10)
  else none

/-- `from_hex` into `n` cleared bytes.  The terminating zero of the string and the bytes of a
character beyond ASCII are no digits. -/
def fromHex : ℕ → JString → List UInt8
  | 0, _ => []
  | n + 1, [] => List.replicate (n + 1) 0
  | n + 1, c :: s =>
    match hexToInt c with
    | none => List.replicate (n + 1) 0
    | some t =>
      match s with
      | [] => UInt8.ofNat (16 * t) :: List.replicate n 0
      | d :: s =>
        match hexToInt d with
        | none => UInt8.ofNat (16 * t) :: List.replicate n 0
        | some u => UInt8.ofNat (16 * t + u) :: fromHex n s

theorem length_fromHex (n : ℕ) (s : JString) : (fromHex n s).length = n := by
  fun_induction fromHex n s <;> simp_all

/-- The length of a character in JNI's modified UTF-8. -/
def utfLength (c : Char) : ℕ :=
  if c.toNat = 0 then 2
  else if c.toNat < 0x80 then 1
  else if c.toNat < 0x800 then 2
  else if c.toNat < 0x10000 then 3
  else 6

/-- `HASH_ASSERT` and `JStringToHash`: the hash a non-null string is taken for, unless it is too
short. -/
def jStringToHash (s : JString) : Option Sha1Hash :=
  if (s.map utfLength).sum < 40 then none else some ⟨fromHex 20 s, length_fromHex 20 s⟩

/-! ### Decoding undoes encoding -/

theorem hexToInt_hexChar : ∀ n < 16, hexToInt (hexChar n) = some n := by decide

theorem utfLength_hexChar : ∀ n < 16, utfLength (hexChar n) = 1 := by decide

theorem fromHex_flatMap (bytes : List UInt8) :
    fromHex bytes.length (bytes.flatMap byteToHex) = bytes := by
  induction bytes with
  | nil => rfl
  | cons b bytes ih =>
    have hb : b.toNat < 256 := b.toNat_lt
    have h1 := hexToInt_hexChar (b.toNat / 16) (by omega)
    have h2 := hexToInt_hexChar (b.toNat % 16) (by omega)
    have hval : 16 * (b.toNat / 16) + b.toNat % 16 = b.toNat := by omega
    simp only [List.flatMap_cons, byteToHex, List.cons_append, List.nil_append, List.length_cons,
      fromHex, h1, h2, hval, UInt8.ofNat_toNat, ih]

theorem fromHex_toHex (h : Sha1Hash) : fromHex 20 (toHex h) = h.1 := by
  have hbytes := fromHex_flatMap h.1
  rwa [h.2] at hbytes

theorem toHex_injective : Function.Injective toHex := by
  intro h h' heq
  apply Subtype.ext
  calc h.1 = fromHex 20 (toHex h) := (fromHex_toHex h).symm
    _ = fromHex 20 (toHex h') := by rw [heq]
    _ = h'.1 := fromHex_toHex h'

theorem mem_toHex {h : Sha1Hash} {c : Char} (hc : c ∈ toHex h) : ∃ n < 16, c = hexChar n := by
  obtain ⟨b, -, hb⟩ := List.mem_flatMap.1 hc
  have hlt : b.toNat < 256 := b.toNat_lt
  simp only [byteToHex, List.mem_cons, List.not_mem_nil, or_false] at hb
  rcases hb with rfl | rfl
  · exact ⟨_, by omega, rfl⟩
  · exact ⟨_, by omega, rfl⟩

theorem length_flatMap_byteToHex (bytes : List UInt8) :
    (bytes.flatMap byteToHex).length = 2 * bytes.length := by
  induction bytes with
  | nil => rfl
  | cons b bytes ih =>
    rw [List.flatMap_cons, List.length_append, ih, List.length_cons]
    simp only [byteToHex, List.length_cons, List.length_nil]
    omega

@[simp] theorem length_toHex (h : Sha1Hash) : (toHex h).length = 40 := by
  rw [toHex, length_flatMap_byteToHex, h.2]

theorem sum_utfLength_toHex (h : Sha1Hash) : ((toHex h).map utfLength).sum = 40 := by
  have hone : ∀ x ∈ (toHex h).map utfLength, x = 1 := by
    intro x hx
    obtain ⟨c, hc, rfl⟩ := List.mem_map.1 hx
    obtain ⟨n, hn, rfl⟩ := mem_toHex hc
    exact utfLength_hexChar n hn
  rw [List.eq_replicate_of_mem hone, List.sum_replicate, List.length_map, length_toHex]
  rfl

/-- **The string that the native layer hands out for a hash is decoded to this hash.** -/
@[simp] theorem jStringToHash_toHex (h : Sha1Hash) : jStringToHash (toHex h) = some h := by
  rw [jStringToHash, if_neg (by rw [sum_utfLength_toHex]; decide)]
  congr 1
  apply Subtype.ext
  exact fromHex_toHex h

end P2Player.Native
