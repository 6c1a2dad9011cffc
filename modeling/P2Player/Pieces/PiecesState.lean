import P2Player.Java.Integer
import P2Player.Lib.Slice

/-!
# Piece states: the bitfield, `PiecesState` and the native `getPieceState`

The native layer keeps one bit for each piece of a torrent in libtorrent's `bitfield`.  The player
looks at a window of pieces `[fromIdx, fromIdx + len)` through a `PiecesState`, which holds the
bytes of the bitfield that the window touches and lets `LibTorrent.getPieceState` refresh them.

* `Bitfield`: the bytes of a piece bitfield, most significant bit first;
* `PiecesState`: the Java object, with `setFromIdx`, `setLength` and `isDone`;
* `nativeGetPieceState`: the body of the JNI function for a torrent found in `gTorrents`;
* `refresh_ok_iff`: the windows for which a refresh copies what it should.

The clamp of the JNI function is written `(size + 7) >> 3 - fromIdx`, where `-` binds tighter than
`>>`.  It shifts by `3 - fromIdx` instead of subtracting `fromIdx` from the number of bytes.
-/

namespace P2Player

open Java

/-- Bit `i` of a byte, counted from the most significant one: `b & (0x80 >> (i & 7))`. -/
def bitOf (b : UInt8) (i : ℕ) : Bool := b &&& (0x80 >>> UInt8.ofNat (i % 8)) != 0

/-- libtorrent's `bitfield`.  The number of bits is a signed 31-bit field of the C++ structure;
`resize` allocates `(bits + 7) / 8` bytes and clears the bits behind the last one. -/
structure Bitfield where
  bytes : List UInt8
  size : ℕ
  length_bytes : bytes.length = (size + 7) / 8
  size_lt : size < 2 ^ 30
  trailing : ∀ p b, size ≤ p → bytes[p / 8]? = some b → bitOf b p = false

/-- `bitfield::get_bit`. -/
def Bitfield.getBit (b : Bitfield) (p : ℕ) : Bool :=
  match b.bytes[p / 8]? with
  | some x => bitOf x p
  | none => false

/-- A read of a Java array; `none` stands for an exception. -/
def arrayGet {α : Type*} (xs : List α) (i : ℤ) : Option α :=
  if 0 ≤ i then xs[i.toNat]? else none

/-! ### The Java object -/

/-- `PiecesState`; `states` is `none` while the array is `null`. -/
structure PiecesState where
  fromIdx : ℤ := 0
  len : ℤ := 0
  states : Option (List UInt8) := none
  stateLen : ℤ := 0
  stateIdx : ℤ := 0
  mark : UInt8 := 0

namespace PiecesState

/-- `setFromIdx`. -/
def setFromIdx (ps : PiecesState) (fromIdx : ℤ) : PiecesState :=
  if fromIdx < 0 then ps
  else { ps with
    fromIdx := fromIdx
    stateIdx := fromIdx / 8
    mark := 0xff >>> UInt8.ofNat (fromIdx % 8).toNat }

/-- Whether `setLength` allocates a new array: `states == null || stateLen > states.length ||
force`. -/
def needsArray (states : Option (List UInt8)) (stateLen : ℤ) (force : Bool) : Bool :=
  match states with
  | none => true
  | some xs => decide (stateLen > xs.length) || force

/-- `setLength`; `none` is the `NegativeArraySizeException` of `new byte[stateLen]`. -/
def setLength (ps : PiecesState) (len : ℤ) (force : Bool) : Option PiecesState :=
  if len ≤ 0 then some ps
  else
    let stateLen := toInt (toInt (ps.fromIdx + len + 7) / 8 - ps.stateIdx)
    if needsArray ps.states stateLen force then
      if stateLen < 0 then none
      else some { ps with
        len := len, stateLen := stateLen, states := some (List.replicate stateLen.toNat 0) }
    else some { ps with len := len, stateLen := stateLen }

/-- `isDone`; `none` is a `NullPointerException` or an index outside the array. -/
def isDone (ps : PiecesState) (index : ℤ) : Option Bool :=
  ps.states.bind fun xs =>
    (arrayGet xs (index / 8 - ps.stateIdx)).map fun b => bitOf b (index % 8).toNat

end PiecesState

/-! ### The native function -/

/-- What `torrent_handle::status(query_pieces)` and `has_metadata` tell about a torrent. -/
structure TorrentStatus where
  state : ℤ
  hasMetadata : Bool
  pieces : Bitfield
  metadata_of_pieces : pieces.size ≠ 0 → hasMetadata = true

/-- `torrent_status::seeding`. -/
def seeding : ℤ := 5

/-- `x >> n` for a C++ `size_t`; a negative or too large count is undefined. -/
def shiftRight (x : ℕ) (n : ℤ) : Option ℕ :=
  if 0 ≤ n ∧ n < 64 then some (x >>> n.toNat) else none

/-- `memcpy(dst, src + off, len)`; undefined when it leaves one of the two arrays. -/
def memcpy (dst src : List UInt8) (off len : ℤ) : Option (List UInt8) :=
  if 0 ≤ off ∧ 0 ≤ len ∧ off + len ≤ src.length ∧ len ≤ dst.length then
    some (slice src off.toNat len.toNat ++ dst.drop len.toNat)
  else none

/-- `memset(dst, x, len)`. -/
def memset (dst : List UInt8) (x : UInt8) (len : ℤ) : Option (List UInt8) :=
  if 0 ≤ len ∧ len ≤ dst.length then some (List.replicate len.toNat x ++ dst.drop len.toNat)
  else none

/-- `Java_com_solt_libtorrent_LibTorrent_getPieceState` on a tracked torrent: the result and the
new content of `states`.  `none` is undefined behaviour. -/
def nativeGetPieceState (s : TorrentStatus) (fromIdx len : ℤ) (states : List UInt8) :
    Option (ℤ × List UInt8) :=
  if s.state ≠ seeding ∧ s.hasMetadata then
    if s.pieces.size ≠ 0 then
      (shiftRight (s.pieces.size + 7) (3 - fromIdx)).bind fun x =>
        let i := toInt x
        let len := if len > i then i else len
        (memcpy states s.pieces.bytes fromIdx len).map fun out => (len, out)
    else some (-1, states)
  else if s.state = seeding ∧ s.hasMetadata then
    (memset states 0xff len).map fun out => (len, out)
  else some (-1, states)

/-- `LibTorrent.getPieceState(PiecesState)`: the native result and the object with its array
refreshed. -/
def getPieceState (s : TorrentStatus) (ps : PiecesState) : Option (ℤ × PiecesState) :=
  ps.states.bind fun xs =>
    (nativeGetPieceState s ps.stateIdx ps.stateLen xs).map fun r =>
      (r.1, { ps with states := some r.2 })

/-! ### One refresh of the window -/

/-- `setFromIdx(f); setLength(l, force); getPieceState(state)`: the object before the native call,
the native result and the object after it. -/
def refresh (s : TorrentStatus) (ps : PiecesState) (f l : ℤ) (force : Bool) :
    Option (PiecesState × ℤ × PiecesState) :=
  ((ps.setFromIdx f).setLength l force).bind fun before =>
    (getPieceState s before).map fun r => (before, r)

/-- The refresh copies the bytes of the window that exist, counts them, and leaves `isDone`
reporting the bitfield. -/
structure RefreshOk (b : Bitfield) (f l : ℤ) (before : PiecesState) (result : ℤ)
    (after : PiecesState) : Prop where
  count : result = min before.stateLen (b.bytes.length - before.stateIdx)
  copied : ∃ old, before.states = some old ∧ after = { before with
    states := some (slice b.bytes before.stateIdx.toNat result.toNat ++ old.drop result.toNat) }
  done : ∀ p : ℕ, f ≤ p → p < f + l → p < b.size → after.isDone p = some (b.getBit p)

/-- The calls return, without undefined behaviour, and the refresh does what it should. -/
def Refreshes (s : TorrentStatus) (ps : PiecesState) (f l : ℤ) (force : Bool) : Prop :=
  ∃ before result after, refresh s ps f l force = some (before, result, after) ∧
    RefreshOk s.pieces f l before result after

theorem bitOf_mod (b : UInt8) (i : ℕ) : bitOf b (i % 8) = bitOf b i := by
  simp [bitOf]

theorem arrayGet_natCast {α : Type*} (xs : List α) (i : ℕ) : arrayGet xs (i : ℤ) = xs[i]? := by
  simp [arrayGet]

theorem Bitfield.exists_byte (b : Bitfield) {p : ℕ} (h : p < b.size) :
    ∃ x, b.bytes[p / 8]? = some x ∧ b.getBit p = bitOf x p := by
  have hlt : p / 8 < b.bytes.length := by rw [b.length_bytes]; omega
  exact ⟨_, List.getElem?_eq_getElem hlt, by simp only [getBit, List.getElem?_eq_getElem hlt]⟩

/-- The number of bytes of a window that does not overflow an `int`. -/
theorem stateLen_eq {f l : ℤ} (hf : 0 ≤ f) (hl : 0 < l) (h : f + l + 7 ≤ maxInt) :
    toInt (toInt (f + l + 7) / 8 - f / 8) = (f + l + 7) / 8 - f / 8 := by
  unfold maxInt at h
  rw [toInt_of_isInt (x := f + l + 7) ⟨by omega, by omega⟩, toInt_of_isInt ⟨by omega, by omega⟩]

/-- Past `Integer.MAX_VALUE` the number of bytes comes out negative. -/
theorem stateLen_neg {f l : ℤ} (hf : 0 ≤ f) (hl : IsInt l) (hfi : IsInt f)
    (h : ¬ f + l + 7 ≤ maxInt) : toInt (toInt (f + l + 7) / 8 - f / 8) < 0 := by
  unfold maxInt at h
  unfold IsInt at hl hfi
  unfold toInt
  omega

/-- What `setLength` does to an object positioned by `setFromIdx`. -/
theorem setLength_spec {ps before : PiecesState} {f l : ℤ} {force : Bool} (hf : 0 ≤ f) (hl : 0 < l)
    (h : (ps.setFromIdx f).setLength l force = some before) :
    before.stateIdx = f / 8 ∧ before.stateLen = toInt (toInt (f + l + 7) / 8 - f / 8) ∧
      ∃ old, before.states = some old ∧ before.stateLen ≤ old.length := by
  have hidx : ps.setFromIdx f = { ps with
      fromIdx := f, stateIdx := f / 8, mark := 0xff >>> UInt8.ofNat (f % 8).toNat } :=
    if_neg (by omega)
  rw [hidx, PiecesState.setLength, if_neg (by omega)] at h
  dsimp only at h
  split_ifs at h with hneed hneg
  · cases h
    exact ⟨rfl, rfl, _, rfl, by simp⟩
  · cases h
    refine ⟨rfl, rfl, ?_⟩
    cases hs : ps.states with
    | none => simp [PiecesState.needsArray, hs] at hneed
    | some old =>
      simp only [PiecesState.needsArray, hs, Bool.or_eq_true, decide_eq_true_eq, not_or,
        not_lt] at hneed
      exact ⟨old, rfl, hneed.1⟩

/-- Within the range of `int` the call of `setLength` returns. -/
theorem setLength_isSome (ps : PiecesState) {f l : ℤ} (force : Bool) (hf : 0 ≤ f) (hl : 0 < l)
    (h : f + l + 7 ≤ maxInt) : ∃ before, (ps.setFromIdx f).setLength l force = some before := by
  have hidx : ps.setFromIdx f = { ps with
      fromIdx := f, stateIdx := f / 8, mark := 0xff >>> UInt8.ofNat (f % 8).toNat } :=
    if_neg (by omega)
  rw [hidx, PiecesState.setLength, if_neg (by omega)]
  dsimp only
  rw [stateLen_eq hf hl h]
  split_ifs with hneed hneg
  · omega
  · exact ⟨_, rfl⟩
  · exact ⟨_, rfl⟩

/-- The number of bytes a window starting in byte `k` may copy. -/
def copyLen (b : Bitfield) (k len : ℤ) : ℤ :=
  let i := toInt ((b.size + 7) / 2 ^ (3 - k).toNat : ℕ)
  if len > i then i else len

/-- `3 - fromIdx` is an admissible shift count exactly for the first four bytes. -/
theorem shiftRight_window (x : ℕ) {k : ℤ} (hk : 0 ≤ k) :
    shiftRight x (3 - k) = if k ≤ 3 then some (x / 2 ^ (3 - k).toNat) else none := by
  unfold shiftRight
  split_ifs with h1 h2 h2
  · rw [Nat.shiftRight_eq_div_pow]
  · omega
  · omega
  · rfl

/-- The native call on the bitfield of a torrent that is not seeding. -/
theorem nativeGetPieceState_eq {s : TorrentStatus} (hs : s.state ≠ seeding)
    (hp : s.pieces.size ≠ 0) {fromIdx : ℤ} (hk : 0 ≤ fromIdx) (len : ℤ) (states : List UInt8) :
    nativeGetPieceState s fromIdx len states =
      if fromIdx ≤ 3 then
        (memcpy states s.pieces.bytes fromIdx (copyLen s.pieces fromIdx len)).map
          fun out => (copyLen s.pieces fromIdx len, out)
      else none := by
  rw [nativeGetPieceState, if_pos ⟨hs, s.metadata_of_pieces hp⟩, if_pos hp, shiftRight_window _ hk]
  split_ifs <;> rfl

/-- The value that the shift leaves in `i` is, for the first byte, the number of bytes of the
bitfield, and for the next three at least that number. -/
theorem shifted_ge (b : Bitfield) {k : ℤ} (hk : 0 ≤ k) (hk3 : k ≤ 3) :
    toInt ((b.size + 7) / 2 ^ (3 - k).toNat : ℕ) = ((b.size + 7) / 2 ^ (3 - k).toNat : ℕ) ∧
      b.bytes.length ≤ (b.size + 7) / 2 ^ (3 - k).toNat ∧
      (k = 0 → (b.size + 7) / 2 ^ (3 - k).toNat = b.bytes.length) := by
  have hlt := b.size_lt
  have hlen := b.length_bytes
  have hle : (b.size + 7) / 2 ^ (3 - k).toNat ≤ b.size + 7 := Nat.div_le_self _ _
  refine ⟨toInt_natCast (by omega), ?_, ?_⟩
  · rw [hlen]
    exact Nat.div_le_div_left (Nat.pow_le_pow_right (by omega) (by omega) : _ ≤ 2 ^ 3) (by positivity)
  · rintro rfl
    simpa using hlen.symm

/-- A native call that returns copied `copyLen` bytes, all of them bytes of the bitfield. -/
theorem getPieceState_eq_some_iff {s : TorrentStatus} (hs : s.state ≠ seeding)
    (hp : s.pieces.size ≠ 0) {before after : PiecesState} {old : List UInt8} {r : ℤ}
    (hk : 0 ≤ before.stateIdx) (hold : before.states = some old) :
    getPieceState s before = some (r, after) ↔
      before.stateIdx ≤ 3 ∧ r = copyLen s.pieces before.stateIdx before.stateLen ∧ 0 ≤ r ∧
        before.stateIdx + r ≤ s.pieces.bytes.length ∧ r ≤ old.length ∧
        after = { before with
          states := some (slice s.pieces.bytes before.stateIdx.toNat r.toNat ++ old.drop r.toNat) } := by
  rw [getPieceState, hold, Option.bind_some, nativeGetPieceState_eq hs hp hk]
  generalize copyLen s.pieces before.stateIdx before.stateLen = n
  constructor
  · intro h
    split_ifs at h with hk3
    · unfold memcpy at h
      split_ifs at h with hmem
      · cases h
        exact ⟨hk3, rfl, hmem.2.1, hmem.2.2.1, hmem.2.2.2, rfl⟩
      · cases h
    · cases h
  · rintro ⟨hk3, rfl, h0, hread, hwrite, rfl⟩
    rw [if_pos hk3, memcpy, if_pos ⟨hk, h0, hread, hwrite⟩]
    rfl

/-- Within the window the refreshed object reports the bits of the bitfield. -/
theorem isDone_refreshed (b : Bitfield) {before : PiecesState} {old : List UInt8} {r : ℤ} {p : ℕ}
    (hk : 0 ≤ before.stateIdx) (hr : before.stateIdx + r ≤ b.bytes.length)
    (h1 : before.stateIdx ≤ (p / 8 : ℕ)) (h2 : ((p / 8 : ℕ) : ℤ) < before.stateIdx + r)
    (hp : p < b.size) :
    PiecesState.isDone { before with
      states := some (slice b.bytes before.stateIdx.toNat r.toNat ++ old.drop r.toNat) } p =
        some (b.getBit p) := by
  obtain ⟨x, hx, hbit⟩ := b.exists_byte hp
  obtain ⟨k, hk'⟩ := Int.eq_ofNat_of_zero_le hk
  obtain ⟨i, hi⟩ := Nat.exists_eq_add_of_le (show k ≤ p / 8 by omega)
  have hidx : ((p : ℤ) / 8 - before.stateIdx) = (i : ℤ) := by omega
  have hbyte : (slice b.bytes k r.toNat ++ old.drop r.toNat)[i]? = some x := by
    rw [List.getElem?_append_left (by rw [length_slice]; omega), getElem?_slice _ _ (by omega), ← hi,
      hx]
  rw [PiecesState.isDone, Option.bind_some, hidx, arrayGet_natCast,
    show before.stateIdx.toNat = k by omega, hbyte, Option.map_some, hbit,
    show ((p : ℤ) % 8).toNat = p % 8 by omega, bitOf_mod]

/-- **A refresh is right exactly for the windows that start in the first byte of the bitfield, and
for those that start in one of the next three bytes and do not reach past the last one.** -/
theorem refreshes_iff (s : TorrentStatus) (hs : s.state ≠ seeding) (ps : PiecesState) (f l : ℤ)
    (force : Bool) (hf : 0 ≤ f) (hfn : f < s.pieces.size) (hl : 0 < l) (hli : IsInt l) :
    Refreshes s ps f l force ↔
      f + l + 7 ≤ maxInt ∧ (f < 8 ∨ f < 32 ∧ (f + l + 7) / 8 ≤ s.pieces.bytes.length) := by
  have hsize := s.pieces.size_lt
  have hlen := s.pieces.length_bytes
  have hp : s.pieces.size ≠ 0 := by omega
  constructor
  · rintro ⟨before, r, after, hrun, hok⟩
    obtain ⟨before', hset, hget⟩ := Option.bind_eq_some_iff.1 hrun
    obtain ⟨⟨r', after'⟩, hget, heq⟩ := Option.map_eq_some_iff.1 hget
    cases heq
    obtain ⟨hidx, hslen, old, hold, -⟩ := setLength_spec hf hl hset
    obtain ⟨hk3, hr, h0, hread, -, -⟩ := (getPieceState_eq_some_iff hs hp (by omega) hold).1 hget
    obtain ⟨hi, hige, -⟩ := shifted_ge s.pieces (show 0 ≤ before.stateIdx by omega) hk3
    simp only [copyLen, hi] at hr
    -- after an overflow the length is negative
    have hmax : f + l + 7 ≤ maxInt := by
      by_contra hover
      have hneg := stateLen_neg hf hli ⟨by omega, by omega⟩ hover
      split_ifs at hr <;> omega
    refine ⟨hmax, ?_⟩
    rw [stateLen_eq hf hl hmax] at hslen
    by_cases h8 : f < 8
    · exact Or.inl h8
    · refine Or.inr ⟨by omega, ?_⟩
      split_ifs at hr <;> omega
  · rintro ⟨hmax, hcond⟩
    obtain ⟨before, hset⟩ := setLength_isSome ps force hf hl hmax
    obtain ⟨hidx, hslen, old, hold, hcap⟩ := setLength_spec hf hl hset
    rw [stateLen_eq hf hl hmax] at hslen
    have hk3 : before.stateIdx ≤ 3 := by omega
    obtain ⟨hi, hige, hi0⟩ := shifted_ge s.pieces (show 0 ≤ before.stateIdx by omega) hk3
    -- here the shifted length is as good as the number of bytes from the window on
    have hcopy : copyLen s.pieces before.stateIdx before.stateLen =
        min before.stateLen (s.pieces.bytes.length - before.stateIdx) := by
      simp only [copyLen, hi]
      rcases hcond with h8 | ⟨-, hfit⟩
      · have := hi0 (by omega)
        split_ifs <;> omega
      · split_ifs <;> omega
    refine ⟨before, _, _, ?_, ⟨rfl, ⟨old, hold, rfl⟩, fun p h1 h2 h3 => ?_⟩⟩
    · rw [refresh, hset, Option.bind_some,
        (getPieceState_eq_some_iff hs hp (by omega) hold).2
          ⟨hk3, hcopy.symm, by omega, by omega, by omega, rfl⟩]
      rfl
    · exact isDone_refreshed s.pieces (by omega) (by omega) (by omega) (by omega) h3

/-- A downloading torrent of sixteen pieces, all but the last four complete. -/
def sixteenPieces : TorrentStatus where
  state := 3
  hasMetadata := true
  pieces :=
    { bytes := [0xff, 0xf0]
      size := 16
      length_bytes := rfl
      size_lt := by norm_num
      trailing := fun p b hp hb => by
        rw [List.getElem?_eq_none (by simp; omega)] at hb
        cases hb }
  metadata_of_pieces := fun _ => rfl

/-- The window of the second byte is refreshed. -/
theorem refreshes_second_byte : Refreshes sixteenPieces {} 8 8 false :=
  (refreshes_iff sixteenPieces (by decide) {} 8 8 false (by decide) (by decide) (by decide)
    (by decide)).2 (by decide)

/-- The window `[8, 24)` overhangs the end of the torrent by one byte, and the native copy reads
that byte. -/
theorem not_refreshes_overhang : ¬ Refreshes sixteenPieces {} 8 16 false := by
  rintro ⟨before, r, after, hrun, -⟩
  rw [show refresh sixteenPieces {} 8 16 false = none from rfl] at hrun
  cases hrun

end P2Player
