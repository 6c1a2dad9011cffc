import P2Player.Java.Integer
import P2Player.Lib.Slice

/-!
# Torrents and requests for a part of an item

* `Torrent`: the geometry of a torrent, an item in it, and the bytes it is about;
* `Request`: a range of the item, as `HttpHandler` passes it to a streamer;
* `startPiece`, `endPiece`, `startPieceOffset`: the numbers that both streamers compute from it;
* `startPieceOffset_eq`: the offset in the first piece, in spite of the wrapping `int` product.
-/

namespace P2Player.Stream

open Java

/-- A torrent and one of its items.  The number of pieces is an `int`, the sizes are `long`s. -/
structure Torrent where
  pieceSize : ℕ
  itemOffset : ℕ
  itemSize : ℕ
  content : List UInt8
  pieceSize_pos : 0 < pieceSize
  pieceSize_lt : pieceSize < 2 ^ 31
  item_le : itemOffset + itemSize ≤ content.length
  content_lt : content.length < 2 ^ 63
  pieces_lt : (content.length + pieceSize - 1) / pieceSize < 2 ^ 31

/-- `getPieceNum`. -/
def Torrent.pieceNum (T : Torrent) : ℕ := (T.content.length + T.pieceSize - 1) / T.pieceSize

/-- The bytes of a piece. -/
def Torrent.piece (T : Torrent) (p : ℕ) : List UInt8 :=
  slice T.content (p * T.pieceSize) T.pieceSize

/-- The bytes of the item. -/
def Torrent.item (T : Torrent) : List UInt8 := slice T.content T.itemOffset T.itemSize

/-- A position in the torrent, or its end, is in a piece whose index is an `int`. -/
theorem Torrent.div_le_pieceNum (T : Torrent) {a : ℕ} (h : a ≤ T.content.length) :
    a / T.pieceSize ≤ T.pieceNum :=
  Nat.div_le_div_right (by have := T.pieceSize_pos; omega)

/-- A range of the item. -/
structure Request where
  torrent : Torrent
  fileOffset : ℕ
  dataLength : ℕ
  range_le : fileOffset + dataLength ≤ torrent.itemSize

namespace Request

variable (R : Request)

/-- `torrentOffset`. -/
def torrentOffset : ℕ := R.fileOffset + R.torrent.itemOffset

/-- The initial `streamPiece`. -/
def startPiece : ℤ := toInt (R.torrentOffset / R.torrent.pieceSize : ℕ)

/-- `endPiece`. -/
def endPiece : ℤ :=
  toInt (toInt ((R.torrentOffset + R.dataLength) / R.torrent.pieceSize : ℕ) + 1)

/-- `startPieceOffset`. -/
def startPieceOffset : ℤ :=
  toInt (R.torrentOffset - toInt (R.startPiece * R.torrent.pieceSize))

/-- The bytes that are asked for. -/
def range : List UInt8 := slice R.torrent.content R.torrentOffset R.dataLength

theorem end_le : R.torrentOffset + R.dataLength ≤ R.torrent.content.length := by
  have hrange := R.range_le
  have hitem := R.torrent.item_le
  unfold torrentOffset
  omega

theorem length_range : R.range.length = R.dataLength := length_slice_of_le R.end_le

theorem range_eq : R.range = slice R.torrent.item R.fileOffset R.dataLength := by
  rw [Torrent.item, slice_slice _ _ _ R.range_le, range, torrentOffset, Nat.add_comm]

theorem startPiece_eq : R.startPiece = (R.torrentOffset / R.torrent.pieceSize : ℕ) := by
  have hend := R.end_le
  have hle := R.torrent.div_le_pieceNum (show R.torrentOffset ≤ _ by omega)
  apply toInt_natCast
  exact hle.trans_lt R.torrent.pieces_lt

theorem startPieceOffset_eq :
    R.startPieceOffset = (R.torrentOffset % R.torrent.pieceSize : ℕ) := by
  have hmod := Nat.mod_lt R.torrentOffset R.torrent.pieceSize_pos
  have hlt := R.torrent.pieceSize_lt
  have hdiv := Nat.div_add_mod' R.torrentOffset R.torrent.pieceSize
  rw [startPieceOffset, toInt_sub_toInt, startPiece_eq]
  have hsub : (R.torrentOffset : ℤ) -
      (R.torrentOffset / R.torrent.pieceSize : ℕ) * (R.torrent.pieceSize : ℕ) =
      (R.torrentOffset % R.torrent.pieceSize : ℕ) := by
    rw [sub_eq_iff_eq_add, ← Nat.cast_mul, ← Nat.cast_add, add_comm, hdiv]
  rw [hsub]
  exact toInt_natCast (by omega)

end Request

end P2Player.Stream
