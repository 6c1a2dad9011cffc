import P2Player.Stream.Request

/-!
# Offsets in large torrents

The streamers multiply a piece index and the piece size as `int`s, and so does the native layer for
the size of the last piece.  The products wrap around beyond 2 GiB, and the casts of the differences
undo it.

* `startPieceOffset`: where a position of the torrent is in its piece;
* `TorrentInfo`, `getPieceSize`: the size of the last piece, or of the others;
* `offsets_exact`: both are what they would be without a bound on the numbers;
* `Torrent.getPieceSize_last`: the size of the last piece is the number of its bytes.
-/

namespace P2Player.Stream

open Java

/-- `startPieceOffset` of `HyperStreamer` and `TorrentStreamerImpl`. -/
def startPieceOffset (torrentOffset pieceSize : ℤ) : ℤ :=
  let streamPiece := toInt (torrentOffset.tdiv pieceSize)
  let startPiece := streamPiece
  toInt (toLong (torrentOffset - toInt (startPiece * pieceSize)))

/-- `libtorrent::torrent_info`: an `int64` and two `int`s. -/
structure TorrentInfo where
  totalSize : ℤ
  pieceLength : ℤ
  numPieces : ℤ
  isLong_totalSize : IsLong totalSize
  isInt_pieceLength : IsInt pieceLength
  isInt_numPieces : IsInt numPieces

/-- The native `getPieceSize`. -/
def getPieceSize (info : TorrentInfo) (isLast : Bool) : ℤ :=
  if isLast then
    toInt (toLong (info.totalSize - toInt (info.pieceLength * toInt (info.numPieces - 1))))
  else info.pieceLength

theorem startPieceOffset_eq {torrentOffset pieceSize : ℤ} (h0 : 0 ≤ torrentOffset)
    (hpos : 0 < pieceSize) (hint : IsInt pieceSize) (hquot : IsInt (torrentOffset / pieceSize)) :
    startPieceOffset torrentOffset pieceSize = torrentOffset % pieceSize := by
  have hmod := Int.emod_nonneg torrentOffset hpos.ne'
  have hlt := Int.emod_lt_of_pos torrentOffset hpos
  calc startPieceOffset torrentOffset pieceSize
      = toInt (torrentOffset - torrentOffset / pieceSize * pieceSize) := by
        rw [startPieceOffset, Int.tdiv_eq_ediv_of_nonneg h0, toInt_of_isInt hquot, toInt_toLong,
          toInt_sub_toInt]
    _ = toInt (torrentOffset % pieceSize) := by rw [Int.emod_def, mul_comm]
    _ = torrentOffset % pieceSize := toInt_of_isInt ⟨by omega, by have := hint.2; omega⟩

theorem getPieceSize_last {info : TorrentInfo}
    (hlt : info.pieceLength * (info.numPieces - 1) < info.totalSize)
    (hle : info.totalSize ≤ info.pieceLength * info.numPieces) :
    getPieceSize info true = info.totalSize - info.pieceLength * (info.numPieces - 1) := by
  have hpiece := info.isInt_pieceLength.2
  have hexact : IsInt (info.totalSize - info.pieceLength * (info.numPieces - 1)) := by
    rw [mul_sub_one] at hlt ⊢
    exact ⟨by omega, by omega⟩
  rw [getPieceSize, if_pos rfl, toInt_toLong, toInt_mul_toInt, toInt_sub_toInt,
    toInt_of_isInt hexact]

/-- **The offset in the first piece and the size of the last piece are exact, although the products
wrap around.** -/
theorem offsets_exact :
    (∀ torrentOffset pieceSize : ℤ, IsLong torrentOffset → 0 ≤ torrentOffset → IsInt pieceSize →
      0 < pieceSize → IsInt (torrentOffset / pieceSize) →
      startPieceOffset torrentOffset pieceSize = torrentOffset % pieceSize) ∧
    ∀ info : TorrentInfo, info.pieceLength * (info.numPieces - 1) < info.totalSize →
      info.totalSize ≤ info.pieceLength * info.numPieces →
      getPieceSize info true = info.totalSize - info.pieceLength * (info.numPieces - 1) :=
  ⟨fun _ _ _ h0 hint hpos hquot => startPieceOffset_eq h0 hpos hint hquot,
    fun _ hlt hle => getPieceSize_last hlt hle⟩

/-- A torrent of 5,000,000,000 bytes in pieces of 1 MiB. -/
def fiveGigabytes : TorrentInfo where
  totalSize := 5000000000
  pieceLength := 1048576
  numPieces := 4769
  isLong_totalSize := by decide
  isInt_pieceLength := by decide
  isInt_numPieces := by decide

/-- A position beyond 4 GiB, and the last piece of such a torrent. -/
theorem offsets_exact_fiveGigabytes :
    startPieceOffset 4999999999 1048576 = 389631 ∧ getPieceSize fiveGigabytes true = 389632 :=
  ⟨offsets_exact.1 4999999999 1048576 (by decide) (by decide) (by decide) (by decide) (by decide),
    offsets_exact.2 fiveGigabytes (by decide) (by decide)⟩

/-! ### Torrents of the streamers -/

theorem Request.startPieceOffset_def (R : Request) :
    R.startPieceOffset = Stream.startPieceOffset R.torrentOffset R.torrent.pieceSize := by
  have htdiv : (R.torrentOffset : ℤ).tdiv R.torrent.pieceSize =
      (R.torrentOffset / R.torrent.pieceSize : ℕ) := rfl
  rw [Request.startPieceOffset, Request.startPiece, Stream.startPieceOffset, htdiv, toInt_toLong]

/-- What the native layer knows of a torrent. -/
def Torrent.info (T : Torrent) : TorrentInfo where
  totalSize := T.content.length
  pieceLength := T.pieceSize
  numPieces := T.pieceNum
  isLong_totalSize := by have := T.content_lt; exact ⟨by omega, by omega⟩
  isInt_pieceLength := by have := T.pieceSize_lt; exact ⟨by omega, by omega⟩
  isInt_numPieces := by have := T.pieces_lt; exact ⟨by omega, by unfold Torrent.pieceNum; omega⟩

/-- The last piece begins inside the torrent and reaches to its end. -/
theorem Torrent.lastPiece_bounds (T : Torrent) (h : T.content ≠ []) :
    0 < T.pieceNum ∧ (T.pieceNum - 1) * T.pieceSize < T.content.length ∧
      T.content.length ≤ T.pieceNum * T.pieceSize := by
  have hpos := T.pieceSize_pos
  have hlen := List.length_pos_iff.2 h
  have hdiv := Nat.div_add_mod' (T.content.length + T.pieceSize - 1) T.pieceSize
  have hmod := Nat.mod_lt (T.content.length + T.pieceSize - 1) hpos
  have hnum : 0 < T.pieceNum := Nat.div_pos (by omega) hpos
  rw [show (T.content.length + T.pieceSize - 1) / T.pieceSize = T.pieceNum from rfl] at hdiv
  refine ⟨hnum, ?_, by omega⟩
  rw [Nat.sub_one_mul]
  omega

/-- **The size that the native layer gives for the last piece is the number of its bytes.** -/
theorem Torrent.getPieceSize_last (T : Torrent) (h : T.content ≠ []) :
    getPieceSize T.info true = (T.piece (T.pieceNum - 1)).length := by
  obtain ⟨hnum, hlt, hle⟩ := T.lastPiece_bounds h
  have hcast : T.info.pieceLength * (T.info.numPieces - 1) =
      ((T.pieceNum - 1) * T.pieceSize : ℕ) := by
    show (T.pieceSize : ℤ) * ((T.pieceNum : ℤ) - 1) = ((T.pieceNum - 1) * T.pieceSize : ℕ)
    rw [Nat.cast_mul, Nat.cast_sub hnum, Nat.cast_one, mul_comm]
  have hsize : T.info.totalSize = (T.content.length : ℕ) := rfl
  have hle' : T.info.totalSize ≤ T.info.pieceLength * T.info.numPieces := by
    show (T.content.length : ℤ) ≤ (T.pieceSize : ℤ) * (T.pieceNum : ℤ)
    rw [mul_comm]
    exact_mod_cast hle
  rw [Stream.getPieceSize_last (by rw [hcast, hsize]; exact_mod_cast hlt) hle', hcast, hsize,
    Torrent.piece, length_slice]
  rw [Nat.sub_one_mul] at hlt ⊢
  omega

end P2Player.Stream
