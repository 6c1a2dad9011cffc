import P2Player.Http.Serve

/-!
# The bytes that a range header selects

A single byte range has one of the forms `bytes=a-b`, `bytes=a-` and `bytes=-n` (RFC 7233).
`HttpHandler.serve` looks for the first minus sign and reads a number on each side of it.

* `Digits`, `ByteRange`: the syntax;
* `ByteRange.prescribed`: the first and the last byte that the range selects;
* `Selects`: what `serve` should answer;
* `ByteRange.Supported`: the ranges that are understood;
* `selects_iff`: the answer is the one prescribed exactly for these.

A range that begins with the minus sign is taken for the whole file, and the last position is not cut
off at the end of the file.
-/

namespace P2Player.Http

open Java

/-! ### Syntax and meaning -/

/-- `1*DIGIT`. -/
structure Digits where
  text : JString
  ne_nil : text ≠ []
  isDigit : ∀ c ∈ text, c.isDigit = true

/-- The number. -/
def Digits.value (d : Digits) : ℕ := Nat.ofDigitChars 10 d.text 0

/-- The forms `a-b` with `a ≤ b`, `a-` and `-n`. -/
inductive ByteRange
  | closed (first last : Digits) (le : first.value ≤ last.value)
  | onward (first : Digits)
  | suffix (n : Digits)

/-- The value of the header. -/
def ByteRange.text : ByteRange → JString
  | .closed first last _ => bytesPrefix ++ first.text ++ '-' :: last.text
  | .onward first => bytesPrefix ++ first.text ++ ['-']
  | .suffix n => bytesPrefix ++ '-' :: n.text

/-- The first and the last byte selected in a file of length `fileLen`; the last one comes before the
first one when there are none. -/
def ByteRange.prescribed (fileLen : ℤ) : ByteRange → ℤ × ℤ
  | .closed first last _ => (first.value, min (last.value : ℤ) (fileLen - 1))
  | .onward first => (first.value, fileLen - 1)
  | .suffix n => (fileLen - min (n.value : ℤ) fileLen, fileLen - 1)

/-- The answer announces the bytes, or that there are none. -/
def Selects (request : HttpRequest) (res : TorrentRequest) (fileLen : ℤ) : ℤ × ℤ → Prop
  | (a, b) =>
    if a ≤ b then res.status = .partialContent ∧ Announces request res fileLen a b
    else res.status = .rangeNotSatisfiable

/-- The first position is a `long`; the last one is in the file or too large for a `long`, unless the
first one is behind the file; and a suffix is the whole file. -/
def ByteRange.Supported (fileLen : ℤ) : ByteRange → Prop
  | .closed first last _ => (first.value : ℤ) ≤ maxLong ∧
      (fileLen ≤ first.value ∨ (last.value : ℤ) < fileLen ∨ maxLong < last.value)
  | .onward first => (first.value : ℤ) ≤ maxLong
  | .suffix n => fileLen ≤ n.value

/-! ### What the header leaves behind -/

theorem Digits.notMem_minus (d : Digits) : '-' ∉ d.text := by
  intro hmem
  exact absurd (d.isDigit _ hmem) (by decide)

theorem Digits.parseLong_text (d : Digits) :
    parseLong d.text = if (d.value : ℤ) ≤ maxLong then some (d.value : ℤ) else none :=
  parseLong_of_isDigit d.ne_nil d.isDigit

theorem parseRange_closed (first last : Digits) (le : first.value ≤ last.value) :
    parseRange (some (ByteRange.closed first last le).text) =
      if (first.value : ℤ) ≤ maxLong then
        ((first.value : ℤ), if (last.value : ℤ) ≤ maxLong then (last.value : ℤ) else -1)
      else (0, -1) := by
  rw [ByteRange.text, parseRange_minus first.ne_nil first.notMem_minus, first.parseLong_text,
    last.parseLong_text]
  split_ifs <;> rfl

theorem parseRange_onward (first : Digits) :
    parseRange (some (ByteRange.onward first).text) =
      if (first.value : ℤ) ≤ maxLong then ((first.value : ℤ), -1) else (0, -1) := by
  rw [ByteRange.text, parseRange_minus first.ne_nil first.notMem_minus, first.parseLong_text]
  split_ifs <;> rfl

/-- A minus sign at the front is not looked behind. -/
theorem parseRange_suffix (n : Digits) :
    parseRange (some (ByteRange.suffix n).text) = (0, -1) := by
  have hpre : bytesPrefix <+: bytesPrefix ++ '-' :: n.text := List.prefix_append _ _
  have hidx : ('-' :: n.text).idxOf? '-' = some 0 :=
    indexOf_eq_some_iff.2 ⟨[], n.text, rfl, List.not_mem_nil, rfl⟩
  simp only [ByteRange.text, parseRange, if_pos hpre, List.drop_left, hidx, lt_irrefl, if_false]

/-! ### The answer -/

section Answer

variable {env : Env} {request : HttpRequest} {movieId index : ℤ} {entry : FileEntry}
  {res : TorrentRequest}

/-- A request with a range header gets a part of the file, or none when that part would begin behind
the file. -/
theorem status_of_range (hl : locate env request = .ok (movieId, index, entry))
    (hs : serve env request = .ok res) (hr : request.range.isSome) :
    res.status = if entry.size ≤ (parseRange request.range).1 then .rangeNotSatisfiable
      else .partialContent := by
  have hstart := (parseRange_cases request.range).1
  rw [serve, hl] at hs
  simp only [bind, Except.bind, respond] at hs
  split at hs
  · cases hs
  · cases hs
    simp only [rangeResponse, if_pos (And.intro hr hstart)]
    split_ifs <;> rfl

/-- Bytes are selected when they are the ones between the two positions, and none when the first
position is behind the file. -/
theorem selects_iff_positions (hl : locate env request = .ok (movieId, index, entry))
    (hs : serve env request = .ok res) (hr : request.range.isSome) {a b : ℤ} (hb : b < entry.size) :
    Selects request res entry.size (a, b) ↔
      if a ≤ b then a = (parseRange request.range).1 ∧ b = lastPosition request.range entry.size
      else entry.size ≤ (parseRange request.range).1 := by
  have hstatus := status_of_range hl hs hr
  simp only [Selects]
  split_ifs with hab
  · constructor
    · rintro ⟨h206, hann⟩
      obtain ⟨rfl, rfl, -⟩ := (announces_iff hl hs h206).1 hann
      exact ⟨rfl, rfl⟩
    · rintro ⟨rfl, rfl⟩
      have h206 : res.status = .partialContent := by rw [hstatus, if_neg (by omega)]
      exact ⟨h206, (announces_iff hl hs h206).2 ⟨rfl, rfl, hab, hb⟩⟩
  · rw [hstatus]
    split_ifs with hle <;> simp [hle]

/-- The last byte of the file takes the place of a last position that is missing. -/
theorem selects_iff_of_missing (hl : locate env request = .ok (movieId, index, entry))
    (hs : serve env request = .ok res) (hpos : 0 < entry.size) {range : JString}
    (hr : request.range = some range) {start : ℤ} (hparse : parseRange (some range) = (start, -1))
    {a b : ℤ} (hb : b < entry.size) : Selects request res entry.size (a, b) ↔
      if a ≤ b then a = start ∧ b = entry.size - 1 else entry.size ≤ start := by
  obtain ⟨-, hmax⟩ := entry.isLong_size
  have hlast : lastPosition (some range) entry.size = entry.size - 1 := by
    rw [lastPosition, hparse, if_pos (by norm_num), toLong_of_isLong ⟨by omega, by omega⟩]
  rw [selects_iff_positions hl hs (by rw [hr]; rfl) hb, hr, hparse, hlast]

/-- **The answer to a range header selects the bytes that the header prescribes exactly when the
range is supported.** -/
theorem selects_iff (hl : locate env request = .ok (movieId, index, entry))
    (hs : serve env request = .ok res) (hpos : 0 < entry.size) {range : ByteRange}
    (hr : request.range = some range.text) :
    Selects request res entry.size (range.prescribed entry.size) ↔ range.Supported entry.size := by
  have hmax : entry.size ≤ maxLong := entry.isLong_size.2
  cases range with
  | closed first last le =>
    have hparse := parseRange_closed first last le
    simp only [ByteRange.prescribed, ByteRange.Supported]
    by_cases hfirst : (first.value : ℤ) ≤ maxLong
    · rw [if_pos hfirst] at hparse
      by_cases hlast : (last.value : ℤ) ≤ maxLong
      · rw [if_pos hlast] at hparse
        have hend : lastPosition (some (ByteRange.closed first last le).text) entry.size =
            last.value := by
          rw [lastPosition, hparse]
          exact if_neg (by simp)
        rw [selects_iff_positions hl hs (by rw [hr]; rfl) (by omega), hr, hparse, hend]
        dsimp only
        split_ifs <;> omega
      · rw [if_neg hlast] at hparse
        rw [selects_iff_of_missing hl hs hpos hr hparse (by omega)]
        split_ifs <;> omega
    · -- the first position is lost as well
      rw [if_neg hfirst] at hparse
      rw [selects_iff_of_missing hl hs hpos hr hparse (by omega)]
      split_ifs <;> omega
  | onward first =>
    have hparse := parseRange_onward first
    simp only [ByteRange.prescribed, ByteRange.Supported]
    by_cases hfirst : (first.value : ℤ) ≤ maxLong
    · rw [if_pos hfirst] at hparse
      rw [selects_iff_of_missing hl hs hpos hr hparse (by omega)]
      split_ifs <;> omega
    · rw [if_neg hfirst] at hparse
      rw [selects_iff_of_missing hl hs hpos hr hparse (by omega)]
      split_ifs <;> omega
  | suffix n =>
    rw [ByteRange.prescribed,
      selects_iff_of_missing hl hs hpos hr (parseRange_suffix n) (by omega)]
    simp only [ByteRange.Supported, and_true]
    split_ifs <;> omega

end Answer

/-- The number 0. -/
def zero : Digits := ⟨['0'], by decide, List.all_eq_true.1 (by decide)⟩

/-- The number 10. -/
def ten : Digits := ⟨['1', '0'], by decide, List.all_eq_true.1 (by decide)⟩

/-- `bytes=0-10` of a file of 100 bytes. -/
theorem selects_first_bytes :
    ∃ res, serve singleFileEnv (getRange (ByteRange.closed zero ten (by decide)).text) = .ok res ∧
      Selects (getRange (ByteRange.closed zero ten (by decide)).text) res singleFile.size (0, 10) := by
  refine ⟨_, rfl, (@selects_iff singleFileEnv _ (-1) 0 singleFile _ rfl rfl (by decide)
    (.closed zero ten (by decide)) rfl).2 ?_⟩
  exact ⟨by decide, Or.inr (Or.inl (by decide))⟩

/-- `bytes=-10` of a file of 100 bytes asks for the last 10 and gets all of them. -/
theorem not_selects_last_bytes :
    ∃ res, serve singleFileEnv (getRange (ByteRange.suffix ten).text) = .ok res ∧
      res.transferOffset = 0 ∧ res.dataLength = 100 ∧
      ¬ Selects (getRange (ByteRange.suffix ten).text) res singleFile.size
        ((ByteRange.suffix ten).prescribed singleFile.size) := by
  refine ⟨_, rfl, rfl, rfl, ?_⟩
  rintro ⟨-, hann⟩
  exact absurd (hann.body rfl).1 (by decide)

end P2Player.Http
