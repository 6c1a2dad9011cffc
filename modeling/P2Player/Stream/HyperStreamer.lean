import P2Player.Java.Float
import P2Player.Stream.Streamer

/-!
# The streaming loop of `HyperStreamer`

`HyperStreamer` may ask a data helper for a missing piece.  A piece that lies within the item is
fetched by `AddPieceService` for the native layer; of the piece at the beginning or the end of the
item, the part within the item is fetched and sent at once.

* `Helper`, `request`, `retrievePiece`: `MdDataHelper`;
* `needDataHelp`, `tryUseDataHelper`, `retrieveAndSendPice`: the use of the helper;
* `HyperStreamer.stream`: the state after any number of iterations.
-/

namespace P2Player.Stream

open Java Program

/-! ### `MdDataHelper` -/

/-- The states `COMPLETE`, `PARTIAL` and `ERROR` of a result. -/
inductive ResultState
  | complete
  | partially
  | error
  deriving DecidableEq

/-- `TDataHelper.Result`. -/
structure Result where
  state : ResultState
  offset : ℤ
  length : ℤ

/-- `ERROR_RESULT`. -/
def Result.errorResult : Result := ⟨.error, 0, 0⟩

/-- What the constructor of `MdDataHelper` gets from the native layer and the server. -/
structure Creation where
  pieceSize : Bool
  files : Bool
  connector : Bool

/-- The fields of `MdDataHelper` that do not change; `connector` tells whether the connector is not
null. -/
structure Helper where
  itemOffset : ℤ := 0
  itemLength : ℤ := 0
  startPiece : ℤ := 0
  endPiece : ℤ := 0
  pieceSize : ℤ := 0
  connector : Bool := false

/-- The constructor, which catches all exceptions. -/
def Helper.create (T : Torrent) (c : Creation) : Helper :=
  if c.pieceSize then
    if c.files then
      { pieceSize := T.pieceSize
        itemOffset := T.itemOffset
        itemLength := T.itemSize
        startPiece := toInt (T.itemOffset / T.pieceSize : ℕ)
        endPiece := toInt (toInt ((T.itemOffset + T.itemSize) / T.pieceSize : ℕ) + 1)
        connector := c.connector }
    else { pieceSize := T.pieceSize }
  else {}

/-- `MAX_ERROR_COUNTER`. -/
def maxErrorCounter : ℤ := 10

/-- `hasPiece`. -/
def Helper.hasPiece (H : Helper) (pieceIdx : ℤ) : Bool :=
  if pieceIdx < H.startPiece ∨ H.endPiece < pieceIdx then false
  else
    let startBytes := pieceIdx * H.pieceSize - H.itemOffset
    let endBytes := startBytes + H.pieceSize
    if startBytes < 0 ∨ H.itemLength < endBytes then false else true

/-- The part of a piece that `retrievePiece` asks the server for. -/
def Helper.request (H : Helper) (pieceIdx : ℤ) : Result :=
  let startBytes := pieceIdx * H.pieceSize - H.itemOffset
  let endBytes := startBytes + H.pieceSize
  let offset := if startBytes < 0 then toInt (-startBytes) else 0
  let state := if startBytes < 0 ∨ H.itemLength < endBytes then .partially else .complete
  let startBytes := max startBytes 0
  let endBytes := min endBytes H.itemLength
  ⟨state, offset, toInt (endBytes - startBytes)⟩

/-- `++errCnt`. -/
def countError : Prog Unit := modify fun s => { s with errCnt := s.errCnt + 1 }

/-- What `retrievePiece` makes of the server's answer to a request. -/
def receive (request : Result) : GetData → Prog Result
  | .done data => do
    fill request.offset data
    pure request
  | .refused => do
    countError
    pure .errorResult
  | .failed data => do
    fill request.offset data
    countError
    pure .errorResult

/-- `retrievePiece(pieceIdx, buff)`. -/
def Helper.retrievePiece (H : Helper) (t : Tick) (pieceIdx : ℤ) : Prog Result := do
  modify fun s => { s with errCnt := s.errCnt + t.helperErrors }
  let s ← get
  if pieceIdx < H.startPiece ∨ H.endPiece < pieceIdx ∨ maxErrorCounter < s.errCnt ∨ ¬ H.connector then
    pure .errorResult
  else
    let request := H.request pieceIdx
    receive request (t.getData pieceIdx request.offset request.length)

namespace HyperStreamer

section

variable (R : Request) (H : Helper) (t : Tick)

/-- `helpedPieces.get(n)` with the index check of the array below the bit set. -/
def helped (bits : ℤ → Bool) (n : ℤ) : Prog Bool :=
  if 0 ≤ n ∧ n / 32 < (R.torrent.pieceNum + 31) / 32 then pure (bits n) else throw .threw

/-- `apSrvice.add(pieceIdx)`. -/
def addPiece (bits : ℤ → Bool) (pieceIdx : ℤ) : Prog Unit := do
  let b ← helped R bits pieceIdx
  onlyIf (b = false) (call t (.addPiece pieceIdx))

/-- `asyncAddPieceData`. -/
def asyncAddPieceData (bits : ℤ → Bool) (pieceIdx : ℤ) : Prog Unit :=
  onlyIf (H.hasPiece pieceIdx = true) (addPiece R t bits pieceIdx)

/-- `retrieveAndSendPice`. -/
def retrieveAndSendPice : Prog Bool := do
  let s ← get
  let result ← H.retrievePiece t s.streamPiece
  if result.state = .error then pure false
  else do
    let s ← get
    onlyIf (result.state = .complete) (call t (.addTorrentPiece s.streamPiece s.buff))
    let offset := if s.streamPiece = R.startPiece then R.startPieceOffset else result.offset
    send t offset (toInt (result.length - toInt (offset - result.offset)))
    pure true

/-- `tryUseDataHelper`. -/
def tryUseDataHelper : Prog Bool := do
  let s ← get
  let b ← helped R t.helped s.streamPiece
  if b then pure false
  else if H.hasPiece s.streamPiece then do
    addPiece R t t.helped s.streamPiece
    pure false
  else do
    call t (.setPieceDeadline s.streamPiece 0)
    retrieveAndSendPice R H t

/-- `numDone / (float) length < 0.3f`. -/
def fewDone (numDone length : ℤ) : Bool := quotientBelow numDone length (3 / 10)

/-- The end of `needDataHelp`: the last missing piece that is not helped yet, if few pieces of the
window are done. -/
def needLast : Prog ℤ := do
  let numDone ← getNumDone
  let s ← get
  if fewDone numDone s.pState.len then do
    let last ← ask s.pState.getLastIncomplete
    let last := min last (R.torrent.pieceNum - 1)
    let b ← (if last = -1 then pure false else helped R t.helpedLater last : Prog Bool)
    let last ← (if b then ask (s.pState.getLastIncompleteAt (last - 1)) else pure last : Prog ℤ)
    if s.streamPiece < last then do
      let b ← helped R t.helpedLater last
      pure (if b then -1 else last)
    else pure (-1)
  else pure (-1)

/-- `needDataHelp`. -/
def needDataHelp (fromPiece speed : ℤ) : Prog ℤ := do
  let s ← get
  if 300 * 1024 < speed then pure (-1)
  else if speed < 120 * 1024 then do
    let incomplete ← ask (s.pState.getFirstIncomplete fromPiece)
    if incomplete = -1 ∨ R.torrent.pieceNum ≤ incomplete then pure (-1)
    else if incomplete = fromPiece ∨ speed < 60 * 1024 then pure incomplete
    else needLast R t
  else needLast R t

/-- What is done about the first missing piece when it is the one to be sent or the next one. -/
def waitOrHelp : Prog Unit := do
  let s ← get
  if s.streamPiece = s.incompleteIdx then do
    let b ← tryUseDataHelper R H t
    onlyIf (b = false) do
      sleep t.waits
      modify fun s => { s with wait := true }
    throw .again
  else onlyIf (toInt (s.streamPiece + 1) = s.incompleteIdx) do
    asyncAddPieceData R H t t.helped s.incompleteIdx
    getPieceState t.getPieceStateLater
    let pIdx ← needDataHelp R t (toInt (s.incompleteIdx + 1)) s.speed
    onlyIf (0 < pIdx) (asyncAddPieceData R H t t.helpedLater pIdx)

/-- The body of the loop. -/
def iteration : Prog Unit := do
  updateState t
  let PIECE_BUFFER_SIZE ← computePieceBufferSize R t
  updateIncompleteIdx t
  let s ← get
  onlyIf (s.state ≠ 4 ∧ s.state ≠ 5 ∧ s.incompleteIdx < R.torrent.pieceNum ∧
      s.incompleteIdx < toInt (s.streamPiece + PIECE_BUFFER_SIZE)) do
    buffering R t PIECE_BUFFER_SIZE
    waitOrHelp R H t
  readAndSend R t

/-- A slow torrent whose first piece is missing tries the helper before the loop. -/
def helpFirst : Prog Unit := do
  let s ← get
  let speed ← ask t.getTorrentDownloadRate
  modify fun s => { s with speed := speed }
  onlyIf (speed < 300 * 1024) do
    let incomplete ← ask (t.getFirstPieceIncomplete s.streamPiece)
    onlyIf (incomplete = s.streamPiece) do
      let _ ← tryUseDataHelper R H t
      pure ()

/-- What is done before the loop; `t₁` has the answers from `clearDeadlines` on. -/
def prologue (t₁ : Tick) : Prog Unit := do
  helpFirst R H t
  clearDeadlines t₁
  startWindow

end

/-- `stream`. -/
def stream (R : Request) (H : Helper) (t₀ t₁ : Tick) (ts : List Tick) : State :=
  runStream R (prologue R H t₀ t₁) (iteration R H) ts

end HyperStreamer

end P2Player.Stream
