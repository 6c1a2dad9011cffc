import P2Player.Java.TreeMap
import P2Player.Lib.Program
import P2Player.Pieces.Queries
import P2Player.Stream.Request

/-!
# The streaming loop of `TorrentStreamerImpl`

`TorrentStreamerImpl.stream` and `HyperStreamer.stream` send the pieces of a request to the player
in order.  What comes from outside in one iteration (the answers of the native layer, of the data
helper's server and of the clock, and how far a write gets) is a `Tick`.

* `Tick`, `State`, `Call`: the inputs of an iteration, the variables, the calls with an effect;
* `readAndSend`, `buffering`: what both streamers do in an iteration;
* `TorrentStreamerImpl.stream`: the state after any number of iterations.

A `long` is an integer without a bound, except where a sum is not bounded by the sizes of torrents.
-/

namespace P2Player.Stream

open Java Program

/-- The calls with an effect outside the streamer. -/
inductive Call
  | clearPiecesDeadline
  | setPieceDeadline (pieceIdx deadline : ℤ)
  | setTorrentReadPiece (pieceIdx : ℤ)
  | readTorrentPiece (pieceIdx : ℤ)
  | cancelTorrentPiece (pieceIdx : ℤ) (force : Bool)
  | addTorrentPiece (pieceIdx : ℤ) (data : List UInt8)
  | addPiece (pieceIdx : ℤ)
  deriving DecidableEq

/-- What `readTorrentPiece` returns, and what it writes to the front of the buffer. -/
structure PieceRead where
  len : ℤ
  data : List UInt8

/-- How `DataConnector.getData` ends: the announced bytes were read, another status was read, or an
`IOException` was thrown after some bytes. -/
inductive GetData
  | done (data : List UInt8)
  | refused
  | failed (data : List UInt8)

/-- The inputs of an iteration.  `none` stands for an exception. -/
structure Tick where
  /-- `handler.isStreaming() && !Thread.currentThread().isInterrupted()`. -/
  streaming : Bool
  currentTime : ℤ
  getTorrentState : Option ℤ
  getTorrentDownloadRate : Option ℤ
  /-- `rate` in `computePieceBufferSize`, after it was scaled in floating point. -/
  rate : Option ℤ
  getFirstPieceIncomplete : ℤ → Option ℤ
  /-- The array of a `PiecesState` after `getPieceState`, for the deadlines and, later in the
  iteration, for the choice of a piece to help with. -/
  getPieceState : List UInt8 → Option (List UInt8)
  getPieceStateLater : List UInt8 → Option (List UInt8)
  /-- `getDownloadedBytes()` of `getPartialPieceInfo`, with `some none` for null. -/
  getPartialPieceInfo : ℤ → Option (Option ℤ)
  readTorrentPiece : ℤ → Option PieceRead
  getData : ℤ → ℤ → ℤ → GetData
  /-- The errors that the helper counted for `AddPieceService` since the last iteration. -/
  helperErrors : ℤ
  /-- The bits of `helpedPieces`, which `hashPieceFailed` may clear at any time, for the first
  missing piece and, later in the iteration, for the choice of a piece to help with. -/
  helped : ℤ → Bool
  helpedLater : ℤ → Bool
  /-- `isSeek(fileOffset, pending)`, which is computed in floating point. -/
  isSeek : Bool
  /-- Whether the sleep after `setTorrentReadPiece` is not interrupted. -/
  sleeps : Bool
  /-- Whether the sleep before a `continue` is not interrupted and `checkEOF` does not throw. -/
  waits : Bool
  throws : Call → Bool
  /-- The bytes that reach the socket before a write throws; `none` when it does not. -/
  sent : Option ℕ

/-- The variables of `stream`. -/
structure State where
  pending : ℤ
  streamPiece : ℤ
  buff : List UInt8
  setRead : ℤ := -1
  lastDLP : ℤ := 0
  incompleteIdx : ℤ := 0
  numSet : ℤ := 0
  dlPieces : TreeMap ℤ ℤ := .empty
  currCancelPiece : ℤ := -1
  state : ℤ := 0
  bonusTime : ℤ := 10000
  timeToWait : ℤ := 0
  cancelTime : ℤ := 0
  wait : Bool := false
  speed : ℤ := 0
  pState : PiecesState := {}
  /-- The helper's error counter. -/
  errCnt : ℤ := 0
  /-- The bytes written to the socket. -/
  written : List UInt8 := []
  calls : List Call := []

/-- A part of the body of a loop. -/
abbrev Prog := EStateM Exit State

/-! ### Primitive operations -/

/-- A call with an effect, which may throw. -/
def call (t : Tick) (c : Call) : Prog Unit := do
  modify fun s => { s with calls := s.calls ++ [c] }
  if t.throws c then throw .threw else pure ()

/-- `Thread.sleep`, alone or followed by `checkEOF`. -/
def sleep (ok : Bool) : Prog Unit := if ok then pure () else throw .threw

/-- `x / y` of two `long`s. -/
def divLong (x y : ℤ) : Option ℤ := if y = 0 then none else some (x.tdiv y)

/-- Bytes are put into the buffer; an index outside of it is an exception. -/
def fill (offset : ℤ) (data : List UInt8) : Prog Unit := do
  let s ← get
  if 0 ≤ offset ∧ offset + data.length ≤ s.buff.length then
    modify fun s => { s with buff := overwrite s.buff offset.toNat data }
  else throw .threw

/-- The bytes of a buffer are written, in as many parts as the socket likes. -/
def writeBytes (t : Tick) (bytes : List UInt8) : Prog Unit :=
  match t.sent with
  | none => modify fun s => { s with written := s.written ++ bytes }
  | some k => do
    modify fun s => { s with written := s.written ++ bytes.take k }
    throw .threw

/-- `writeData`; `ByteBuffer.wrap` checks the range. -/
def writeData (t : Tick) (offset len : ℤ) : Prog Unit := do
  let s ← get
  if 0 ≤ offset ∧ 0 ≤ len ∧ offset + len ≤ s.buff.length then
    writeBytes t (slice s.buff offset.toNat len.toNat)
  else throw .threw

/-! ### What both loops do -/

section

variable (R : Request) (t : Tick)

/-- The part of the buffer from `offset` on is sent, up to `len` bytes and up to the end of the
request, and the streamer goes on to the next piece. -/
def send (offset len : ℤ) : Prog Unit := do
  let s ← get
  let len := if s.pending < len then toInt s.pending else len
  writeData t offset len
  modify fun s => { s with
    pending := s.pending - len
    streamPiece := toInt (s.streamPiece + 1) }

/-- `readTorrentPiece(hashCode, streamPiece, buff)`. -/
def readTorrentPiece : Prog ℤ := do
  let s ← get
  call t (.readTorrentPiece s.streamPiece)
  let r ← ask (t.readTorrentPiece s.streamPiece)
  fill 0 r.data
  pure r.len

/-- `setTorrentReadPiece`, once for a piece. -/
def setReadPiece : Prog Unit := do
  let s ← get
  onlyIf (s.setRead ≠ s.streamPiece) do
    modify fun s => { s with setRead := s.streamPiece }
    call t (.setTorrentReadPiece s.streamPiece)
    sleep t.sleeps

/-- The end of an iteration, from `wait = false` on. -/
def readAndSend : Prog Unit := do
  modify fun s => { s with wait := false }
  setReadPiece t
  let len ← readTorrentPiece t
  if len = -1 then throw .leave
  else if len = 0 then do
    sleep t.waits
    throw .again
  else do
    let s ← get
    let offset := if s.streamPiece = R.startPiece then R.startPieceOffset else 0
    send t offset (toInt (len - offset))

/-- `isRequestMetadata`. -/
def isRequestMetadata (dataLength : ℤ) : Bool := 30000 < dataLength ∧ dataLength < 50000

/-- The deadlines of other streams are cleared for a seek, and for the metadata of the video while
its first piece is missing. -/
def clearDeadlines : Prog Unit := do
  let s ← get
  if t.isSeek then call t .clearPiecesDeadline
  else if isRequestMetadata s.pending then do
    let incomplete ← ask (t.getFirstPieceIncomplete s.streamPiece)
    onlyIf (incomplete = s.streamPiece) (call t .clearPiecesDeadline)
  else pure ()

/-- `state`, until the torrent is downloading, finished or seeding. -/
def updateState : Prog Unit := do
  let s ← get
  onlyIf (s.state ≠ 4 ∧ s.state ≠ 5 ∧ s.state ≠ 3) do
    let state ← ask t.getTorrentState
    modify fun s => { s with state := state }

/-- `computePieceBufferSize`: what is played in `DEFAULT_BUFFER_SECS`, and at least
`DEFAULT_MIN_PIECES_TO_BUFFER`. -/
def computePieceBufferSize : Prog ℤ := do
  let rate ← ask t.rate
  pure (max 5 (toInt ((60 * rate).tdiv R.torrent.pieceSize)))

/-- `incompleteIdx`. -/
def updateIncompleteIdx : Prog Unit := do
  let s ← get
  let incompleteIdx ← ask (t.getFirstPieceIncomplete s.streamPiece)
  modify fun s => { s with incompleteIdx := incompleteIdx }

/-- `libTorrent.getPieceState(pState)`. -/
def getPieceState (answer : List UInt8 → Option (List UInt8)) : Prog Unit := do
  let s ← get
  let xs ← ask s.pState.states
  let ys ← ask (answer xs)
  modify fun s => { s with pState := { s.pState with states := some ys } }

/-- `pState.getNumDone()`. -/
def getNumDone : Prog ℤ := do
  let s ← get
  let r ← ask s.pState.getNumDone
  modify fun s => { s with pState := r.2 }
  pure r.1

/-- `setDeadline`: the deadlines of up to `count` pieces, and the last of them. -/
def setDeadline (fromIndex count endIndex : ℤ) : Prog ℤ := do
  let n := min (toInt (fromIndex + count)) endIndex
  if count = 0 then pure fromIndex
  else do
    (List.range (n - fromIndex).toNat).forM fun i =>
      call t (.setPieceDeadline (fromIndex + i) (toInt (i * 150 + 1500)))
    pure (toInt (max fromIndex n - 1))

/-- The pieces that the window has gained get deadlines. -/
def setDeadlines (PIECE_BUFFER_SIZE : ℤ) : Prog Unit := do
  modify fun s => { s with lastDLP := max s.lastDLP s.incompleteIdx }
  let s ← get
  let pState ← ask ((s.pState.setFromIdx s.incompleteIdx).setLength PIECE_BUFFER_SIZE false)
  modify fun s => { s with pState := pState }
  getPieceState t.getPieceState
  let numDone ← getNumDone
  let numSet := toInt (s.incompleteIdx + PIECE_BUFFER_SIZE - s.lastDLP + numDone)
  modify fun s => { s with numSet := numSet }
  onlyIf (0 < numSet) do
    modify fun s => { s with dlPieces := s.dlPieces.put s.lastDLP t.currentTime }
    let lastDLP ← setDeadline t s.lastDLP numSet R.endPiece
    modify fun s => { s with lastDLP := lastDLP }

/-- `getPieceRemain(currCancelPiece)`. -/
def getPieceRemain : Prog ℤ := do
  let s ← get
  let info ← ask (t.getPartialPieceInfo s.currCancelPiece)
  match info with
  | none => pure R.torrent.pieceSize
  | some downloadedBytes => pure (toInt (R.torrent.pieceSize - downloadedBytes))

/-- The first missing piece is cancelled when it has been waited for too long. -/
def cancelFirst (entry : Option (ℤ × ℤ)) : Prog Unit := do
  let s ← get
  let bonusTime ← ask (divLong (R.torrent.pieceSize * 1000) (s.speed + 1024))
  let timeToWait := bonusTime * 3 + 3000
  let bonusTime := max bonusTime 3000
  modify fun s => { s with bonusTime := bonusTime, timeToWait := timeToWait }
  let e ← ask entry
  onlyIf (toLong (e.2 + timeToWait + toInt (s.incompleteIdx - e.1) * bonusTime) < t.currentTime) do
    modify fun s => { s with currCancelPiece := s.incompleteIdx }
    call t (.cancelTorrentPiece s.incompleteIdx false)
    modify fun s => { s with cancelTime := t.currentTime, timeToWait := bonusTime + 1000 }

/-- A piece that was cancelled before is cancelled again. -/
def cancelAgain : Prog Unit := do
  let remain ← getPieceRemain R t
  let s ← get
  let bonusTime ← ask (divLong (remain * 1000) (s.speed + 1024))
  let bonusTime := if 500000 < s.speed ∧ bonusTime < 1000 then bonusTime + 1000 else bonusTime
  let timeToWait := bonusTime * 3 + 3000
  modify fun s => { s with bonusTime := bonusTime, timeToWait := timeToWait }
  onlyIf (s.cancelTime + timeToWait < t.currentTime) do
    call t (.cancelTorrentPiece s.currCancelPiece true)
    modify fun s => { s with cancelTime := t.currentTime }

/-- The first missing piece is cancelled if it is slow. -/
def cancelSlow (entry : Option (ℤ × ℤ)) : Prog Unit := do
  let s ← get
  if s.currCancelPiece ≠ s.incompleteIdx then cancelFirst R t entry else cancelAgain R t

/-- The deadlines and the slow piece of an iteration in which pieces are missing. -/
def buffering (PIECE_BUFFER_SIZE : ℤ) : Prog Unit := do
  setDeadlines R t PIECE_BUFFER_SIZE
  let s ← get
  let entry := s.dlPieces.floorEntry s.incompleteIdx
  let speed ← ask t.getTorrentDownloadRate
  modify fun s => { s with speed := speed }
  cancelSlow R t entry
  let first ← ask s.dlPieces.firstKey
  let e ← ask entry
  onlyIf (first < e.1) (modify fun s => { s with dlPieces := s.dlPieces.remove first })

/-- The state when the streamer starts. -/
def initState : State where
  pending := R.dataLength
  streamPiece := R.startPiece
  buff := List.replicate R.torrent.pieceSize 0

/-- The initial `lastDLP` and `incompleteIdx`. -/
def startWindow : Prog Unit :=
  modify fun s => { s with lastDLP := s.streamPiece, incompleteIdx := s.streamPiece }

/-- The condition of the loops. -/
def goesOn (t : Tick) (s : State) : Bool := t.streaming && decide (0 < s.pending)

/-- What precedes the loop, and the loop, looked at after the iterations with the inputs `ts`. -/
def runStream (prologue : Prog Unit) (iteration : Tick → Prog Unit) (ts : List Tick) : State :=
  match prologue (initState R) with
  | .ok _ s => whileLoop goesOn iteration ts s
  | .error _ s => s

end

/-! ### `TorrentStreamerImpl` -/

namespace TorrentStreamerImpl

variable (R : Request)

/-- The first missing piece is waited for when it is the one to be sent. -/
def waitForPiece (t : Tick) : Prog Unit := do
  let s ← get
  onlyIf (s.streamPiece = s.incompleteIdx) do
    sleep t.waits
    modify fun s => { s with wait := true }
    throw .again

/-- The body of the loop. -/
def iteration (t : Tick) : Prog Unit := do
  updateState t
  let PIECE_BUFFER_SIZE ← computePieceBufferSize R t
  updateIncompleteIdx t
  let s ← get
  onlyIf (s.state ≠ 4 ∧ s.state ≠ 5 ∧ s.incompleteIdx < toInt (s.streamPiece + PIECE_BUFFER_SIZE)) do
    buffering R t PIECE_BUFFER_SIZE
    waitForPiece t
  readAndSend R t

/-- What is done before the loop. -/
def prologue (t : Tick) : Prog Unit := do
  clearDeadlines t
  startWindow

/-- `stream`. -/
def stream (t₀ : Tick) (ts : List Tick) : State := runStream R (prologue t₀) (iteration R) ts

end TorrentStreamerImpl

end P2Player.Stream
