import P2Player.Http.Parse
import P2Player.Java.Utf16

/-!
# Percent encoding

`HttpHandler.decodePercent` reads the two characters behind a percent sign by `Integer.parseInt` with
the radix 16, and answers the request when that throws.

* `percentDecodedUnits`, `decodePercentUnits`: the loop on any Java string;
* `percentDecodedUnits_utf16`: strings of characters are decoded as `parseRequest` decodes them;
* `Piece`, `scan`: the percent signs that are scanned, with what follows them;
* `Exact`: the strings that are answered as the grammar asks for;
* `Piece.Lenient`: the escapes that are taken although they are none;
* `exact_iff`: these are all that goes wrong.
-/

namespace P2Player.Http

open Java Program

/-! ### The loop -/

/-- The loop of `decodePercent`, with `none` for an exception. -/
def percentDecodedUnits : JavaString → Option JavaString
  | [] => some []
  | c :: cs =>
    if c = 0x2B then (percentDecodedUnits cs).map (0x20 :: ·)
    else if c = 0x25 then
      match cs with
      | a :: b :: cs => (parseHex (unitChar a) (unitChar b)).bind fun v =>
          (percentDecodedUnits cs).map (UInt16.ofNat (v % 65536).toNat :: ·)
      | _ => none
    else (percentDecodedUnits cs).map (c :: ·)

/-- `decodePercent`. -/
def decodePercentUnits (str : JavaString) : Handling JavaString :=
  match percentDecodedUnits str with
  | some s => pure s
  | none => sendMessage .badRequest "BAD REQUEST: Bad percent-encoding.".toList

/-! ### The grammar -/

/-- A character that stands for itself, a plus sign, a percent sign with the two characters behind it,
or a percent sign with fewer. -/
inductive Piece
  | char (c : UInt16)
  | plus
  | escape (a b : UInt16)
  | cut (rest : JavaString)

/-- What the loop goes over. -/
def scan : JavaString → List Piece
  | [] => []
  | c :: cs =>
    if c = 0x2B then .plus :: scan cs
    else if c = 0x25 then
      match cs with
      | a :: b :: cs => .escape a b :: scan cs
      | rest => [.cut rest]
    else .char c :: scan cs

/-- The value of an ASCII hexadecimal digit. -/
def hexValue (u : UInt16) : Option ℕ :=
  if 0x30 ≤ u.toNat ∧ u.toNat ≤ 0x39 then some (u.toNat - 0x30)
  else if 0x41 ≤ u.toNat ∧ u.toNat ≤ 0x46 then some (u.toNat - 0x41 + 10)
  else if 0x61 ≤ u.toNat ∧ u.toNat ≤ 0x66 then some (u.toNat - 0x61 + 10)
  else none

/-- Two hexadecimal digits follow. -/
def Piece.Valid : Piece → Prop
  | .escape a b => (hexValue a).isSome ∧ (hexValue b).isSome
  | .cut _ => False
  | _ => True

/-- What a valid piece stands for. -/
def Piece.value : Piece → UInt16
  | .char c => c
  | .plus => 0x20
  | .escape a b => UInt16.ofNat (16 * (hexValue a).getD 0 + (hexValue b).getD 0)
  | .cut _ => 0

instance : DecidablePred Piece.Valid
  | .char _ | .plus => .isTrue trivial
  | .escape a b => inferInstanceAs (Decidable ((hexValue a).isSome ∧ (hexValue b).isSome))
  | .cut _ => .isFalse not_false

/-- The pieces' values are returned when all are valid, and otherwise a bad request is answered. -/
def Exact (str : JavaString) : Prop :=
  decodePercentUnits str =
    if ∀ p ∈ scan str, p.Valid then pure ((scan str).map Piece.value)
    else sendMessage .badRequest "BAD REQUEST: Bad percent-encoding.".toList

/-- `Character.digit` takes the character for a digit of base 16. -/
def IsDigit (u : UInt16) : Prop := (hexDigit (unitChar u)).isSome = true

/-- A sign and a digit, or two digits. -/
def Readable (a b : UInt16) : Prop :=
  (a = 0x2B ∨ a = 0x2D) ∧ IsDigit b ∨ IsDigit a ∧ IsDigit b

/-- A sign and a digit, or two digits that are not both ASCII. -/
def Piece.Lenient : Piece → Prop
  | .escape a b => Readable a b ∧ ¬ Piece.Valid (.escape a b)
  | _ => False

/-- Fewer than two characters, or two others. -/
def Piece.Unreadable : Piece → Prop
  | .escape a b => ¬ Readable a b
  | .cut _ => True
  | _ => False

/-! ### Digits -/

/-- What the loop appends for a piece, with `none` for an exception. -/
def Piece.decode : Piece → Option UInt16
  | .char c => some c
  | .plus => some 0x20
  | .escape a b => (parseHex (unitChar a) (unitChar b)).map fun v => UInt16.ofNat (v % 65536).toNat
  | .cut _ => none

/-- An ASCII digit has the same value for `Character.digit`. -/
theorem hexDigit_of_hexValue {u : UInt16} {n : ℕ} (h : hexValue u = some n) :
    n < 16 ∧ hexDigit (unitChar u) = some n := by
  have hascii : ∀ m < 128, ∀ x ∈ hexValue (UInt16.ofNat m),
      x < 16 ∧ hexDigit (Char.ofNat m) = some x := by decide
  have hlt : u.toNat < 128 := by
    unfold hexValue at h
    split_ifs at h <;> omega
  have hu := hascii u.toNat hlt n
  rw [UInt16.ofNat_toNat] at hu
  exact hu h

theorem hexDigit_minus : hexDigit '-' = none := by decide

theorem hexDigit_plus : hexDigit '+' = none := by decide

theorem parseHex_of_hexDigit {a b : Char} {x y : ℕ} (ha : hexDigit a = some x)
    (hb : hexDigit b = some y) : parseHex a b = some ((16 * x + y : ℕ) : ℤ) := by
  unfold parseHex
  split
  · rw [hexDigit_minus] at ha
    cases ha
  · rw [hexDigit_plus] at ha
    cases ha
  · rw [ha, hb]
    rfl

/-- `Integer.parseInt` takes a sign and a digit, or two digits. -/
theorem isSome_parseHex {a b : Char} : (parseHex a b).isSome = true ↔
    (a = '+' ∨ a = '-') ∧ (hexDigit b).isSome = true ∨
      (hexDigit a).isSome = true ∧ (hexDigit b).isSome = true := by
  unfold parseHex
  split
  · simp [hexDigit_minus]
  · simp [hexDigit_plus]
  · rename_i hminus hplus
    have hsign : ¬ (a = '+' ∨ a = '-') := by
      rintro (h | h)
      · exact hplus h
      · exact hminus h
    cases hexDigit a <;> cases hexDigit b <;> simp [hsign]

theorem readable_iff {a b : UInt16} :
    Readable a b ↔ (parseHex (unitChar a) (unitChar b)).isSome = true := by
  have hplus : unitChar a = '+' ↔ a = 0x2B := unitChar_eq_iff (by decide) (by decide)
  have hminus : unitChar a = '-' ↔ a = 0x2D := unitChar_eq_iff (by decide) (by decide)
  rw [isSome_parseHex, hplus, hminus]
  rfl

/-! ### The branches of the loop -/

theorem percentDecodedUnits_plus (cs : JavaString) :
    percentDecodedUnits (0x2B :: cs) = (percentDecodedUnits cs).map (0x20 :: ·) := by
  rw [percentDecodedUnits.eq_def]
  exact if_pos rfl

theorem percentDecodedUnits_escape (a b : UInt16) (cs : JavaString) :
    percentDecodedUnits (0x25 :: a :: b :: cs) =
      (parseHex (unitChar a) (unitChar b)).bind fun v =>
        (percentDecodedUnits cs).map (UInt16.ofNat (v % 65536).toNat :: ·) := by
  rw [percentDecodedUnits.eq_def]
  exact (if_neg (by decide)).trans (if_pos rfl)

theorem percentDecodedUnits_cut {rest : JavaString} (h : ∀ a b cs, rest = a :: b :: cs → False) :
    percentDecodedUnits (0x25 :: rest) = none := by
  rw [percentDecodedUnits.eq_def]
  dsimp only
  rw [if_neg (by decide), if_pos rfl]
  split
  · exact absurd rfl (h _ _ _)
  · rfl

theorem percentDecodedUnits_char {c : UInt16} (hplus : c ≠ 0x2B) (hpercent : c ≠ 0x25)
    (cs : JavaString) : percentDecodedUnits (c :: cs) = (percentDecodedUnits cs).map (c :: ·) := by
  rw [percentDecodedUnits.eq_def]
  exact (if_neg hplus).trans (if_neg hpercent)

/-! ### Pieces -/

theorem Piece.decode_of_valid {p : Piece} (h : p.Valid) : p.decode = some p.value := by
  cases p with
  | char c => rfl
  | plus => rfl
  | escape a b =>
    obtain ⟨ha, hb⟩ := h
    obtain ⟨x, hx⟩ := Option.isSome_iff_exists.1 ha
    obtain ⟨y, hy⟩ := Option.isSome_iff_exists.1 hb
    obtain ⟨hx16, hdx⟩ := hexDigit_of_hexValue hx
    obtain ⟨hy16, hdy⟩ := hexDigit_of_hexValue hy
    have hmod : (((16 * x + y : ℕ) : ℤ) % 65536).toNat = 16 * x + y := by omega
    rw [Piece.decode, parseHex_of_hexDigit hdx hdy, Option.map_some, hmod, Piece.value, hx, hy]
    rfl
  | cut rest => exact absurd h not_false

theorem Piece.unreadable_iff {p : Piece} : p.Unreadable ↔ p.decode = none := by
  cases p with
  | char c => exact ⟨fun h => h.elim, fun h => (by cases h)⟩
  | plus => exact ⟨fun h => h.elim, fun h => (by cases h)⟩
  | escape a b =>
    rw [Piece.Unreadable, readable_iff, Piece.decode, Option.map_eq_none_iff,
      Bool.not_eq_true, Option.isSome_eq_false_iff, Option.isNone_iff_eq_none]
  | cut rest => exact ⟨fun _ => rfl, fun _ => trivial⟩

/-- A piece that is not valid is lenient or unreadable. -/
theorem Piece.lenient_iff {p : Piece} : p.Lenient ↔ ¬ p.Valid ∧ ¬ p.Unreadable := by
  cases p with
  | char c => exact ⟨fun h => h.elim, fun h => h.1 trivial⟩
  | plus => exact ⟨fun h => h.elim, fun h => h.1 trivial⟩
  | escape a b =>
    rw [Piece.Lenient, Piece.Unreadable, not_not]
    exact and_comm
  | cut rest => exact ⟨fun h => h.elim, fun h => h.2 trivial⟩

theorem mapM_cons_option {α β : Type*} (f : α → Option β) (a : α) (l : List α) :
    (a :: l).mapM f = (f a).bind fun b => (l.mapM f).map (b :: ·) := by
  rw [List.mapM_cons]
  cases f a with
  | none => rfl
  | some b => cases l.mapM f <;> rfl

theorem mapM_eq_some {α β : Type*} {f : α → Option β} {g : α → β} {l : List α}
    (h : ∀ a ∈ l, f a = some (g a)) : l.mapM f = some (l.map g) := by
  induction l with
  | nil => rfl
  | cons a l ih =>
    rw [mapM_cons_option, h a List.mem_cons_self, ih fun b hb => h b (List.mem_cons_of_mem a hb)]
    rfl

theorem mapM_eq_none_iff {α β : Type*} {f : α → Option β} {l : List α} :
    l.mapM f = none ↔ ∃ a ∈ l, f a = none := by
  induction l with
  | nil => simp
  | cons a l ih =>
    rw [mapM_cons_option, Option.bind_eq_none_iff]
    simp only [Option.map_eq_none_iff, ih, List.mem_cons, exists_eq_or_imp]
    cases f a <;> simp

/-- The loop decodes the pieces one after the other. -/
theorem percentDecodedUnits_eq (str : JavaString) :
    percentDecodedUnits str = (scan str).mapM Piece.decode := by
  fun_induction scan str with
  | case1 => rfl
  | case2 cs ih =>
    rw [percentDecodedUnits_plus, mapM_cons_option, ih]
    rfl
  | case3 a b cs h ih =>
    rw [percentDecodedUnits_escape, mapM_cons_option, ih, Piece.decode, Option.bind_map]
    rfl
  | case4 rest hrest h =>
    rw [percentDecodedUnits_cut hrest, mapM_cons_option, Piece.decode, Option.bind_none]
  | case5 c cs hplus hpercent ih =>
    rw [percentDecodedUnits_char hplus hpercent, mapM_cons_option, ih]
    rfl

/-! ### Strings of characters -/

theorem find?_block {zeros : List ℕ} {c : Char} {w z : ℕ}
    (h : (zeros.find? fun z => z ≤ c.toNat && c.toNat < z + w) = some z) :
    z ∈ zeros ∧ z ≤ c.toNat ∧ c.toNat < z + w := by
  have hp := List.find?_some h
  rw [Bool.and_eq_true, decide_eq_true_iff, decide_eq_true_iff] at hp
  exact ⟨List.mem_of_find?_eq_some h, hp⟩

/-- Digits are in the basic plane. -/
theorem hexDigit_lt {c : Char} {n : ℕ} (h : hexDigit c = some n) :
    n < 16 ∧ c.toNat < 0x10000 := by
  have hzeros : ∀ z ∈ digitZeros, z ≤ 0xFF10 := by decide
  have hletters : ∀ z ∈ [0x41, 0x61, 0xFF21, 0xFF41], z ≤ 0xFF41 := by decide
  unfold hexDigit at h
  split at h
  · rename_i d hd
    cases h
    unfold charDigit at hd
    obtain ⟨z, hz, rfl⟩ := Option.map_eq_some_iff.1 hd
    obtain ⟨hmem, hle, hlt⟩ := find?_block hz
    have := hzeros z hmem
    omega
  · obtain ⟨z, hz, rfl⟩ := Option.map_eq_some_iff.1 h
    obtain ⟨hmem, hle, hlt⟩ := find?_block hz
    have := hletters z hmem
    omega

theorem parseHex_bounds {a b : Char} {v : ℤ} (h : parseHex a b = some v) : -16 < v ∧ v < 256 := by
  unfold parseHex at h
  split at h
  · obtain ⟨d, hd, rfl⟩ := Option.map_eq_some_iff.1 h
    have := hexDigit_lt hd
    omega
  · obtain ⟨d, hd, rfl⟩ := Option.map_eq_some_iff.1 h
    have := hexDigit_lt hd
    omega
  · obtain ⟨d, hd, h⟩ := Option.bind_eq_some_iff.1 h
    obtain ⟨e, he, rfl⟩ := Option.map_eq_some_iff.1 h
    have := hexDigit_lt hd
    have := hexDigit_lt he
    omega

/-- What is appended for an escape is one code unit. -/
theorem utf16_of_parseHex {a b : Char} {v : ℤ} (h : parseHex a b = some v) :
    utf16 (Char.ofNat (v % 65536).toNat) = [UInt16.ofNat (v % 65536).toNat] := by
  obtain ⟨hmin, hmax⟩ := parseHex_bounds h
  have hvalid : (v % 65536).toNat.isValidChar := by
    rcases lt_or_ge v 0 with hneg | hnonneg
    · exact Or.inr ⟨by omega, by omega⟩
    · exact Or.inl (by omega)
  have hnat : (Char.ofNat (v % 65536).toNat).toNat = (v % 65536).toNat := by
    rw [Char.ofNat, dif_pos hvalid]
    rfl
  rw [utf16, hnat, if_pos (by omega)]

/-- Nothing is read from a second character that is no digit. -/
theorem parseHex_eq_none_right (a : Char) {b : Char} (hb : hexDigit b = none) :
    parseHex a b = none := by
  rw [← Option.isNone_iff_eq_none, ← Option.isSome_eq_false_iff, ← Bool.not_eq_true,
    isSome_parseHex, hb]
  simp

/-- Nothing is read from a first character that is neither a digit nor a sign. -/
theorem parseHex_eq_none_left {a : Char} (ha : hexDigit a = none) (hplus : a ≠ '+')
    (hminus : a ≠ '-') (b : Char) : parseHex a b = none := by
  rw [← Option.isNone_iff_eq_none, ← Option.isSome_eq_false_iff, ← Bool.not_eq_true,
    isSome_parseHex, ha]
  simp [hplus, hminus]

theorem hexDigit_of_le {c : Char} (h : 0x10000 ≤ c.toNat) : hexDigit c = none := by
  cases hc : hexDigit c with
  | none => rfl
  | some n => exact absurd (hexDigit_lt hc).2 (not_lt.2 h)

theorem hexDigit_of_isSurrogate {u : UInt16} (h : IsSurrogate u) :
    hexDigit (unitChar u) = none := by
  rw [unitChar_of_isSurrogate h]
  decide

/-- An escape of surrogates throws. -/
theorem parseHex_of_isSurrogate {u : UInt16} (h : IsSurrogate u) (b : Char) :
    parseHex (unitChar u) b = none := by
  refine parseHex_eq_none_left (hexDigit_of_isSurrogate h) ?_ ?_ b
  · rw [unitChar_of_isSurrogate h]
    decide
  · rw [unitChar_of_isSurrogate h]
    decide

theorem parseHex_of_le {a : Char} (h : 0x10000 ≤ a.toNat) (b : Char) : parseHex a b = none := by
  refine parseHex_eq_none_left (hexDigit_of_le h) ?_ ?_ b
  · rintro rfl
    exact absurd h (by decide)
  · rintro rfl
    exact absurd h (by decide)

/-- **A string of characters is decoded as its code units are.** -/
theorem percentDecodedUnits_utf16 (s : JString) :
    percentDecodedUnits (s.flatMap utf16) = (percentDecoded s).map (·.flatMap utf16) := by
  have hplusUnits : utf16 '+' = [0x2B] := rfl
  have hpercentUnits : utf16 '%' = [0x25] := rfl
  fun_induction percentDecoded s with
  | case1 => rfl
  | case2 cs ih =>
    rw [List.flatMap_cons, hplusUnits, List.singleton_append, percentDecodedUnits_plus, ih,
      Option.map_map, Option.map_map]
    rfl
  | case3 a b cs ih =>
    rw [List.flatMap_cons, List.flatMap_cons, List.flatMap_cons, hpercentUnits,
      List.singleton_append]
    rcases utf16_cases a with ⟨u, hu, hua⟩ | ⟨ha, u, u', hu, hsurr, -⟩
    · rcases utf16_cases b with ⟨v, hv, hvb⟩ | ⟨hb, v, v', hv, hsurr, -⟩
      · rw [hu, hv, List.singleton_append, List.singleton_append, percentDecodedUnits_escape,
          unitChar_of_toNat hua, unitChar_of_toNat hvb, ih]
        cases hvalue : parseHex a b with
        | none => rfl
        | some v =>
          simp only [Option.bind_some, Option.map_map, Function.comp_def, List.flatMap_cons,
            utf16_of_parseHex hvalue, List.singleton_append]
      · rw [hu, hv, List.singleton_append, List.cons_append, percentDecodedUnits_escape,
          parseHex_eq_none_right _ (hexDigit_of_isSurrogate hsurr),
          parseHex_eq_none_right _ (hexDigit_of_le hb)]
        rfl
    · rw [hu, List.cons_append, List.cons_append, percentDecodedUnits_escape,
        parseHex_of_isSurrogate hsurr, parseHex_of_le ha]
      rfl
  | case4 rest hrest =>
    rw [List.flatMap_cons, hpercentUnits, List.singleton_append, Option.map_none]
    match rest, hrest with
    | [], _ => exact percentDecodedUnits_cut (by simp)
    | [c], _ =>
      rw [List.flatMap_cons, List.flatMap_nil, List.append_nil]
      rcases utf16_cases c with ⟨u, hu, -⟩ | ⟨-, u, u', hu, hsurr, -⟩
      · rw [hu]
        exact percentDecodedUnits_cut (by simp)
      · rw [hu, percentDecodedUnits_escape, parseHex_of_isSurrogate hsurr]
        rfl
    | a :: b :: cs, hrest => exact absurd rfl (hrest a b cs)
  | case5 c cs hplus _ hpercent ih =>
    rw [List.flatMap_cons]
    rcases utf16_cases c with ⟨u, hu, huc⟩ | ⟨-, u, u', hu, hsurr, hsurr'⟩
    · have hchar := unitChar_of_toNat huc
      have hne : u ≠ 0x2B := by
        rintro rfl
        exact hplus hchar.symm
      have hne' : u ≠ 0x25 := by
        rintro rfl
        exact hpercent hchar.symm
      rw [hu, List.singleton_append, percentDecodedUnits_char hne hne', ih, Option.map_map,
        Option.map_map]
      simp only [Function.comp_def, List.flatMap_cons, hu, List.singleton_append]
    · have hne : ∀ {w : UInt16}, IsSurrogate w → w ≠ 0x2B ∧ w ≠ 0x25 := by
        rintro w ⟨hw, -⟩
        constructor
        · rintro rfl
          exact absurd hw (by decide)
        · rintro rfl
          exact absurd hw (by decide)
      obtain ⟨h1, h2⟩ := hne hsurr
      obtain ⟨h3, h4⟩ := hne hsurr'
      rw [hu, List.cons_append, List.singleton_append, percentDecodedUnits_char h1 h2,
        percentDecodedUnits_char h3 h4, ih, Option.map_map, Option.map_map, Option.map_map]
      simp only [Function.comp_def, List.flatMap_cons, hu, List.cons_append, List.nil_append]

/-! ### What is answered -/

/-- The loop throws when it comes to an unreadable piece. -/
theorem percentDecodedUnits_eq_none_iff {str : JavaString} :
    percentDecodedUnits str = none ↔ ∃ p ∈ scan str, p.Unreadable := by
  simp only [percentDecodedUnits_eq, mapM_eq_none_iff, Piece.unreadable_iff]

/-- **Percent decoding.** A string is answered as the grammar asks for exactly when none of its
escapes is lenient, or some percent sign is followed by something unreadable. -/
theorem exact_iff (str : JavaString) : Exact str ↔
    (∃ p ∈ scan str, p.Unreadable) ∨ ∀ p ∈ scan str, ¬ p.Lenient := by
  by_cases hbad : ∃ p ∈ scan str, p.Unreadable
  · have hcode := percentDecodedUnits_eq_none_iff.2 hbad
    obtain ⟨p, hp, hunreadable⟩ := hbad
    have hnot : ¬ ∀ p ∈ scan str, p.Valid := fun h => by
      have hdecode := Piece.decode_of_valid (h p hp)
      rw [Piece.unreadable_iff.1 hunreadable] at hdecode
      cases hdecode
    refine iff_of_true ?_ (Or.inl ⟨p, hp, hunreadable⟩)
    rw [Exact, decodePercentUnits, hcode, if_neg hnot]
  · rw [or_iff_right hbad]
    by_cases hvalid : ∀ p ∈ scan str, p.Valid
    · refine iff_of_true ?_ fun p hp hlenient => (Piece.lenient_iff.1 hlenient).1 (hvalid p hp)
      rw [Exact, decodePercentUnits, percentDecodedUnits_eq,
        mapM_eq_some fun p hp => Piece.decode_of_valid (hvalid p hp), if_pos hvalid]
    · refine iff_of_false (fun hexact => ?_) fun h => hvalid fun p hp => ?_
      · -- the string is decoded, but the grammar asks for a bad request
        rw [Exact, decodePercentUnits, if_neg hvalid] at hexact
        obtain ⟨s, hs⟩ := Option.ne_none_iff_exists'.1
          fun hnone => hbad (percentDecodedUnits_eq_none_iff.1 hnone)
        rw [hs] at hexact
        have hwritten := congrFun hexact .new
        cases hwritten
      · by_contra hnot
        exact h p hp (Piece.lenient_iff.2 ⟨hnot, fun hu => hbad ⟨p, hp, hu⟩⟩)

/-- `%-1` is decoded to the character U+FFFF. -/
theorem not_exact_sign : decodePercentUnits [0x25, 0x2D, 0x31] = pure [0xFFFF] ∧
    ¬ Exact [0x25, 0x2D, 0x31] := by
  have hcode : decodePercentUnits [0x25, 0x2D, 0x31] = pure [0xFFFF] := by
    have hdecode : percentDecodedUnits [0x25, 0x2D, 0x31] = some [0xFFFF] := by decide
    rw [decodePercentUnits, hdecode]
  refine ⟨hcode, fun hexact => ?_⟩
  rw [Exact, hcode, if_neg (by decide)] at hexact
  have hwritten := congrFun hexact .new
  cases hwritten

end P2Player.Http
