import P2Player.Native.QueueInvariant

/-!
# Writing pieces to disk

The blocks of a piece come from peers (`peer_connection::incoming_piece`) or all at once from
`torrent::add_piece`.  Each is handed to the disk thread and marked as being written; when the disk thread
is done with it, it is marked as finished, or as free again.

* `Torrent`: the picker, and the writes that are outstanding;
* `Event`, `step`: what the handlers do, in any order;
* `Guarded`: a piece that is complete is neither requested nor overwritten;
* `outstanding_of_run`: a block that is being written has an outstanding write, in every run that keeps to
  these conditions, so that none stays in that state;
* `finished_of_idle`: with no write outstanding, a piece that `is_piece_finished` has all its blocks on the
  disk and none requested;
* `isPieceFinished_addPiece`: after `add_piece` with enough buffers, `is_piece_finished`.

The torrent is neither a seed nor aborted, and the hash of a piece that is finished is left out.
-/

namespace P2Player.DiskWrites

open P2Player.Stream (BlockState)
open PiecePicker DownloadQueue Transition

variable {P : Type*} {L : Layout} {n : ℕ}

/-! ### The state of a block -/

/-- The state of a block; those of a piece that is not in the queue are free. -/
def stateAt (e : Option (DownloadingPiece P n)) (i : Fin n) : BlockState :=
  match e with
  | none => .none
  | some dp => (dp.info i).state

/-- A block that is handed to the disk thread, or on the disk. -/
def Downloaded (state : BlockState) : Prop := state = .writing ∨ state = .finished

instance (state : BlockState) : Decidable (Downloaded state) := by
  unfold Downloaded
  infer_instance

theorem stateAt_update (state : PieceState) (info : Fin n → BlockInfo P) (i j : Fin n)
    (b : BlockInfo P) (finished writing requested : ℤ) :
    stateAt (some ⟨state, Function.update info i b, finished, writing, requested⟩) j =
      if j = i then b.state else (info j).state := by
  unfold stateAt
  dsimp only
  rw [Function.update_apply]
  split_ifs with h
  · rfl
  · rfl

theorem stateAt_markAsDownloading (e : Option (DownloadingPiece P n)) (i j : Fin n)
    (peer : Option P) (state : PieceState) :
    stateAt (PiecePicker.markAsDownloading i peer state e).1 j =
      if j = i ∧ ¬ Downloaded (stateAt e i) then .requested else stateAt e j := by
  cases e with
  | none =>
    refine (stateAt_update ..).trans ?_
    by_cases hj : j = i
    · simp [hj, stateAt, Downloaded]
    · simp [hj, stateAt, addDownloadPiece]
  | some dp =>
    unfold PiecePicker.markAsDownloading
    dsimp only
    by_cases htaken : (dp.info i).state = .writing ∨ (dp.info i).state = .finished
    · rw [if_pos htaken, if_neg fun h => h.2 htaken]
    · rw [if_neg htaken]
      refine (stateAt_update ..).trans ?_
      by_cases hj : j = i
      · rw [if_pos hj, if_pos ⟨hj, htaken⟩]
      · rw [if_neg hj, if_neg fun h => hj h.1]
        rfl

/-- A piece that is complete is left alone, when it is not in the queue. -/
theorem stateAt_markAsWriting (havePiece : Bool) (e : Option (DownloadingPiece P n)) (i j : Fin n)
    (peer : Option P) :
    stateAt (PiecePicker.markAsWriting havePiece i peer e).1 j =
      if j = i ∧ ¬ Downloaded (stateAt e i) ∧ ¬ (e = none ∧ havePiece = true) then .writing
      else stateAt e j := by
  cases e with
  | none =>
    cases havePiece with
    | true => simp [PiecePicker.markAsWriting]
    | false =>
      refine (stateAt_update ..).trans ?_
      by_cases hj : j = i
      · simp [hj, stateAt, Downloaded]
      · simp [hj, stateAt, addDownloadPiece]
  | some dp =>
    unfold PiecePicker.markAsWriting
    dsimp only
    by_cases htaken : (dp.info i).state = .writing ∨ (dp.info i).state = .finished
    · rw [if_pos htaken, if_neg fun h => h.2.1 htaken]
      refine (stateAt_update ..).trans ?_
      split_ifs with hj
      · rw [hj]
        rfl
      · rfl
    · rw [if_neg htaken]
      refine (stateAt_update ..).trans ?_
      by_cases hj : j = i
      · rw [if_pos hj, if_pos ⟨hj, htaken, by simp⟩]
      · rw [if_neg hj, if_neg fun h => hj h.1]
        rfl

theorem stateAt_markAsFinished (havePiece : Bool) (e : Option (DownloadingPiece P n)) (i j : Fin n)
    (peer : Option P) :
    stateAt (PiecePicker.markAsFinished havePiece i peer e) j =
      if j = i ∧ ¬ (e = none ∧ havePiece = true) then .finished else stateAt e j := by
  cases e with
  | none =>
    cases havePiece with
    | true => simp [PiecePicker.markAsFinished]
    | false =>
      refine (stateAt_update ..).trans ?_
      by_cases hj : j = i
      · simp [hj]
      · simp [hj, stateAt, addDownloadPiece]
  | some dp =>
    unfold PiecePicker.markAsFinished
    dsimp only
    by_cases hfinished : (dp.info i).state = .finished
    · rw [if_pos hfinished]
      by_cases hj : j = i
      · rw [if_pos ⟨hj, by simp⟩, hj]
        exact hfinished
      · rw [if_neg fun h => hj h.1]
    · rw [if_neg hfinished]
      refine (stateAt_update ..).trans ?_
      by_cases hj : j = i
      · rw [if_pos hj, if_pos ⟨hj, by simp⟩]
      · rw [if_neg hj, if_neg fun h => hj h.1]
        rfl

/-- A block that is given up is free, as are all when the piece leaves the queue. -/
theorem stateAt_abortDownload (e : Option (DownloadingPiece P n)) (i j : Fin n) :
    stateAt (PiecePicker.abortDownload i e) j = .none ∨
      stateAt (PiecePicker.abortDownload i e) j = stateAt e j := by
  cases e with
  | none => exact .inl rfl
  | some dp =>
    unfold PiecePicker.abortDownload
    dsimp only
    by_cases hr : (dp.info i).state = .requested
    · rw [if_pos hr]
      by_cases hpeers : 0 < (dp.info i).numPeers - 1
      · rw [if_pos hpeers]
        refine .inr ((stateAt_update ..).trans ?_)
        split_ifs with hj
        · rw [hj]
          rfl
        · rfl
      · rw [if_neg hpeers]
        by_cases herased : int16 (dp.requested - 1) + dp.finished + dp.writing = 0
        · rw [if_pos herased]
          exact .inl rfl
        · rw [if_neg herased]
          by_cases hj : j = i
          · exact .inl ((stateAt_update ..).trans (if_pos hj))
          · exact .inr ((stateAt_update ..).trans (if_neg hj))
    · rw [if_neg hr]
      exact .inr rfl

/-- A block that could not be written is free, unless another write of it has succeeded. -/
theorem stateAt_writeFailedEntry (e : Option (DownloadingPiece P n)) (i j : Fin n) :
    stateAt (writeFailedEntry i e) j = .none ∨
      (j = i → stateAt e i = .finished) ∧ stateAt (writeFailedEntry i e) j = stateAt e j := by
  cases e with
  | none => exact .inl rfl
  | some dp =>
    unfold writeFailedEntry
    dsimp only
    by_cases hfinished : (dp.info i).state = .finished
    · rw [if_pos hfinished]
      exact .inr ⟨fun _ => hfinished, rfl⟩
    · rw [if_neg hfinished]
      generalize (if (dp.info i).state = .writing then int16 (dp.writing - 1) else dp.writing) = writing
      by_cases herased : dp.finished + writing + dp.requested = 0
      · rw [if_pos herased]
        exact .inl rfl
      · rw [if_neg herased]
        by_cases hj : j = i
        · exact .inl ((stateAt_update ..).trans (if_pos hj))
        · exact .inr ⟨fun h => absurd h hj, (stateAt_update ..).trans (if_neg hj)⟩

theorem stateAt_clearPeer [DecidableEq P] (peer : P) (e : Option (DownloadingPiece P n))
    (i : Fin n) : stateAt (PiecePicker.clearPeer peer e) i = stateAt e i := by
  cases e with
  | none => rfl
  | some dp => rfl

/-! ### The queries -/

/-- `is_finished`. -/
def isFinished (index i : ℕ) (s : Picker P) : Bool :=
  if s.havePiece index then true
  else if s.downloading index = false then false
  else
    match s.findPiece index with
    | none => false
    | some c => (s.blockInfo (c.focus.info + i)).state = .finished

/-- `is_downloaded`. -/
def isDownloaded (index i : ℕ) (s : Picker P) : Bool :=
  if s.havePiece index then true
  else if s.downloading index = false then false
  else
    match s.findPiece index with
    | none => false
    | some c => Downloaded (s.blockInfo (c.focus.info + i)).state

/-- `is_piece_finished`. -/
def isPieceFinished (L : Layout) (index : ℕ) (s : Picker P) : Bool :=
  if s.downloading index = false then false
  else
    match s.findPiece index with
    | none => false
    | some c => !(c.focus.finished + c.focus.writing < L.blocksInPiece index)

section Queries

variable {s : Picker P} {index : ℕ} (h : Placed L s)

include h

theorem isFinished_iff (i : Fin (L.blocksInPiece index)) :
    isFinished index i s = true ↔
      s.havePiece index = true ∨ stateAt (s.entry L index) i = .finished := by
  unfold isFinished
  cases s.havePiece index with
  | true => simp
  | false =>
    by_cases hdownloading : s.downloading index = false
    · simp [hdownloading, h.entry_of_not_downloading hdownloading, stateAt]
    · obtain ⟨c, hc⟩ := h.findPiece_of_downloading (by simpa using hdownloading)
      simp [hdownloading, hc, h.entry_of_find hc, stateAt]

theorem isDownloaded_iff (i : Fin (L.blocksInPiece index)) :
    isDownloaded index i s = true ↔
      s.havePiece index = true ∨ Downloaded (stateAt (s.entry L index) i) := by
  unfold isDownloaded
  cases s.havePiece index with
  | true => simp
  | false =>
    by_cases hdownloading : s.downloading index = false
    · simp [hdownloading, h.entry_of_not_downloading hdownloading, stateAt, Downloaded]
    · obtain ⟨c, hc⟩ := h.findPiece_of_downloading (by simpa using hdownloading)
      simp [hdownloading, hc, h.entry_of_find hc, stateAt]

theorem isPieceFinished_iff :
    isPieceFinished L index s = true ↔
      ∃ dp ∈ s.entry L index, (L.blocksInPiece index : ℤ) ≤ dp.finished + dp.writing := by
  unfold isPieceFinished
  by_cases hdownloading : s.downloading index = false
  · simp [hdownloading, h.entry_of_not_downloading hdownloading]
  · obtain ⟨c, hc⟩ := h.findPiece_of_downloading (by simpa using hdownloading)
    simp [hdownloading, hc, h.entry_of_find hc]

end Queries

/-! ### The torrent -/

/-- A block that the disk thread has been given: by `add_piece`, or by a peer. -/
structure Write (L : Layout) where
  index : ℕ
  block : Fin (L.blocksInPiece index)
  fromPeer : Bool
  deriving DecidableEq

/-- The picker, and the writes whose handlers have not been called. -/
structure Torrent (P : Type*) (L : Layout) where
  picker : Picker P
  writes : List (Write L)

/-- A call on the picker about one piece. -/
def Torrent.call (t : Torrent P L) (index : ℕ) (c : PieceCall P (L.blocksInPiece index)) :
    Torrent P L :=
  { t with picker := DownloadQueue.call L index t.picker c }

/-- `async_write`, and the calls that follow it. -/
def Torrent.asyncWrite (t : Torrent P L) (w : Write L) : Torrent P L :=
  { t with writes := t.writes ++ [w] }

/-- The loop of `add_piece` over the blocks that are left; `buffers` is the number of disk buffers that can
still be allocated. -/
def addBlocks (index : ℕ) (overwriteExisting : Bool) :
    List (Fin (L.blocksInPiece index)) → ℕ → Torrent P L → Torrent P L
  | [], _, t => t
  | i :: is, buffers, t =>
    if isFinished index i t.picker && !overwriteExisting then
      addBlocks index overwriteExisting is buffers t
    else
      match buffers with
      | 0 => t
      | buffers + 1 =>
        addBlocks index overwriteExisting is buffers
          (((t.asyncWrite ⟨index, i, false⟩).call index (.markAsDownloading i none .fast)).call index
            (.markAsWriting i none))

/-- `torrent::add_piece`. -/
def addPiece (index : ℕ) (overwriteExisting : Bool) (buffers : ℕ) (t : Torrent P L) : Torrent P L :=
  if t.picker.havePiece index && !overwriteExisting then t
  else addBlocks index overwriteExisting (List.finRange _) buffers t

/-- `peer_connection::incoming_piece`, for a block that the peer was asked for. -/
def incomingPiece (index : ℕ) (i : Fin (L.blocksInPiece index)) (peer : Option P) (t : Torrent P L) :
    Torrent P L :=
  if isDownloaded index i t.picker then t
  else (t.asyncWrite ⟨index, i, true⟩).call index (.markAsWriting i peer)

/-- `on_disk_write_complete` of the torrent or of a peer, where `peer` is what the connection has for
`peer_info_struct` by then; a write that failed goes to `handle_disk_error`. -/
def onDiskWriteComplete (w : Write L) (peer : Option P) (failed : Bool) (t : Torrent P L) :
    Torrent P L :=
  if failed then t.call w.index (.writeFailed w.block)
  else if w.fromPeer then t.call w.index (.markAsFinished w.block peer)
  else if isFinished w.index w.block t.picker then t
  else t.call w.index (.markAsFinished w.block none)

/-- What the handlers are called for. -/
inductive Event (P : Type*) (L : Layout)
  | addPiece (index : ℕ) (overwriteExisting : Bool) (buffers : ℕ)
  | addRequest (index : ℕ) (i : Fin (L.blocksInPiece index)) (peer : Option P) (state : PieceState)
  | incomingPiece (index : ℕ) (i : Fin (L.blocksInPiece index)) (peer : Option P)
  | diskWrite (w : Write L) (peer : Option P) (failed : Bool)
  | abortDownload (index : ℕ) (i : Fin (L.blocksInPiece index))
  | restorePiece (index : ℕ)
  | weHave (index : ℕ)
  | clearPeer (peer : P)

/-- One event; a write is completed when it is outstanding, and a piece restored when it is in the
queue. -/
def step [DecidableEq P] (t : Torrent P L) : Event P L → Option (Torrent P L)
  | .addPiece index overwriteExisting buffers => some (addPiece index overwriteExisting buffers t)
  | .addRequest index i peer state => some (t.call index (.markAsDownloading i peer state))
  | .incomingPiece index i peer => some (incomingPiece index i peer t)
  | .diskWrite w peer failed =>
    if w ∈ t.writes then
      some (onDiskWriteComplete w peer failed { t with writes := t.writes.erase w })
    else none
  | .abortDownload index i => some (t.call index (.abortDownload i))
  | .restorePiece index =>
    if t.picker.downloading index then some (t.call index .restorePiece) else none
  | .weHave index => some (t.call index .weHave)
  | .clearPeer peer => some { t with picker := clearPeer peer t.picker }

/-! ### No block stays in the writing state -/

/-- A piece that is complete is neither requested nor overwritten. -/
def Guarded (t : Torrent P L) : Event P L → Prop
  | .addPiece index overwriteExisting _ => overwriteExisting = true → t.picker.havePiece index = false
  | .addRequest index _ _ _ => t.picker.havePiece index = false
  | _ => True

/-- A complete piece is not in the queue, and a block that is being written has an outstanding write. -/
structure Outstanding (t : Torrent P L) : Prop extends Placed L t.picker where
  free : ∀ index, t.picker.havePiece index = true → t.picker.entry L index = none
  written : ∀ index i, stateAt (t.picker.entry L index) i = .writing → ∃ b, ⟨index, i, b⟩ ∈ t.writes

variable {t t' : Torrent P L} {index : ℕ}

/-- A call at one piece, where the invariant may fail before. -/
theorem outstanding_call {s : Picker P} {writes : List (Write L)} (h : Placed L s)
    (c : PieceCall P (L.blocksInPiece index))
    (hfree : ∀ q ≠ index, s.havePiece q = true → s.entry L q = none)
    (hwritten : ∀ q ≠ index, ∀ i, stateAt (s.entry L q) i = .writing → ∃ b, ⟨q, i, b⟩ ∈ writes)
    (hfree' : (pieceCall (s.piece L index) c).havePiece = true →
      (pieceCall (s.piece L index) c).entry = none)
    (hwritten' : ∀ i, stateAt (pieceCall (s.piece L index) c).entry i = .writing →
      ∃ b, ⟨index, i, b⟩ ∈ writes) : Outstanding (Torrent.call ⟨s, writes⟩ index c) := by
  obtain ⟨hplaced, hpiece, hother⟩ := placed_call h c
  have hentry : (DownloadQueue.call L index s c).entry L index = _ := congrArg Piece.entry hpiece
  have hhave : (DownloadQueue.call L index s c).havePiece index = _ := congrArg Piece.havePiece hpiece
  have hentry' : ∀ q ≠ index, (DownloadQueue.call L index s c).entry L q = s.entry L q :=
    fun q hq => congrArg Piece.entry (hother q hq)
  have hhave' : ∀ q ≠ index, (DownloadQueue.call L index s c).havePiece q = s.havePiece q :=
    fun q hq => congrArg Piece.havePiece (hother q hq)
  refine ⟨hplaced, fun q hq => ?_, fun q i hi => ?_⟩
  · dsimp only [Torrent.call] at hq ⊢
    by_cases he : q = index
    · subst he
      rw [hhave] at hq
      rw [hentry]
      exact hfree' hq
    · rw [hhave' q he] at hq
      rw [hentry' q he]
      exact hfree q he hq
  · dsimp only [Torrent.call] at hi ⊢
    by_cases he : q = index
    · subst he
      rw [hentry] at hi
      exact hwritten' i hi
    · rw [hentry' q he] at hi
      exact hwritten q he i hi

theorem Outstanding.call (h : Outstanding t) (c : PieceCall P (L.blocksInPiece index))
    (hfree' : (pieceCall (t.picker.piece L index) c).havePiece = true →
      (pieceCall (t.picker.piece L index) c).entry = none)
    (hwritten' : ∀ i, stateAt (pieceCall (t.picker.piece L index) c).entry i = .writing →
      ∃ b, ⟨index, i, b⟩ ∈ t.writes) : Outstanding (t.call index c) :=
  outstanding_call h.toPlaced c (fun q _ => h.free q) (fun q _ => h.written q) hfree' hwritten'

theorem Outstanding.asyncWrite (h : Outstanding t) (w : Write L) : Outstanding (t.asyncWrite w) :=
  ⟨h.toPlaced, h.free, fun q i hi =>
    (h.written q i hi).imp fun _ hb => List.mem_append_left _ hb⟩

/-- A block that becomes requested is not written. -/
theorem Outstanding.markAsDownloading (h : Outstanding t) (i : Fin (L.blocksInPiece index))
    (peer : Option P) (state : PieceState) (hhave : t.picker.havePiece index = false) :
    Outstanding (t.call index (.markAsDownloading i peer state)) := by
  refine h.call _ (fun htrue => absurd (hhave.symm.trans htrue) (by simp)) fun j hj => ?_
  refine h.written index j ?_
  replace hj := (stateAt_markAsDownloading ..).symm.trans hj
  split_ifs at hj
  exact hj

/-- A block that is marked as written has been handed to the disk thread. -/
theorem Outstanding.markAsWriting (h : Outstanding t) (i : Fin (L.blocksInPiece index))
    (peer : Option P) (hwrite : ∃ b, ⟨index, i, b⟩ ∈ t.writes) :
    Outstanding (t.call index (.markAsWriting i peer)) := by
  refine h.call _ (fun hhave => ?_) fun j hj => ?_
  · have hhave : t.picker.havePiece index = true := hhave
    simp [pieceCall, Picker.piece, h.free index hhave, hhave, PiecePicker.markAsWriting]
  · replace hj := (stateAt_markAsWriting ..).symm.trans hj
    split_ifs at hj with hi
    · exact hi.1 ▸ hwrite
    · exact h.written index j hj

theorem havePiece_call (h : Placed L t.picker) (c : PieceCall P (L.blocksInPiece index)) :
    (t.call index c).picker.havePiece index = (pieceCall (t.picker.piece L index) c).havePiece :=
  congrArg Piece.havePiece (placed_call h c).2.1

theorem outstanding_addBlocks (overwriteExisting : Bool) {is : List (Fin (L.blocksInPiece index))}
    {buffers : ℕ} (h : Outstanding t) (hhave : t.picker.havePiece index = false) :
    Outstanding (addBlocks index overwriteExisting is buffers t) := by
  induction is generalizing t buffers with
  | nil => exact h
  | cons i is ih =>
    unfold addBlocks
    split_ifs
    · exact ih h hhave
    · cases buffers with
      | zero => exact h
      | succ buffers =>
        have hwrite : (⟨index, i, false⟩ : Write L) ∈ (t.asyncWrite ⟨index, i, false⟩).writes :=
          List.mem_append_right _ (List.mem_singleton_self _)
        have hrequested := (h.asyncWrite ⟨index, i, false⟩).markAsDownloading i none .fast hhave
        have hwriting := hrequested.markAsWriting i none ⟨false, hwrite⟩
        refine ih hwriting ?_
        rw [havePiece_call hrequested.toPlaced]
        exact (havePiece_call h.toPlaced _).trans hhave

/-- The write of one block is done: the block is not in the writing state any more. -/
theorem outstanding_onDiskWriteComplete {w : Write L} (h : Outstanding t) (peer : Option P)
    (failed : Bool) :
    Outstanding (onDiskWriteComplete w peer failed { t with writes := t.writes.erase w }) := by
  obtain ⟨index, block, fromPeer⟩ := w
  have hother : ∀ q ≠ index, ∀ i, stateAt (t.picker.entry L q) i = .writing →
      ∃ b, ⟨q, i, b⟩ ∈ t.writes.erase ⟨index, block, fromPeer⟩ := fun q hq i hi =>
    (h.written q i hi).imp fun b hb =>
      (List.mem_erase_of_ne fun he => hq (congrArg Write.index he)).2 hb
  have hsame : ∀ i ≠ block, stateAt (t.picker.entry L index) i = .writing →
      ∃ b, ⟨index, i, b⟩ ∈ t.writes.erase ⟨index, block, fromPeer⟩ := fun i hi hwriting =>
    (h.written index i hwriting).imp fun b hb =>
      (List.mem_erase_of_ne fun he => hi (by simpa using congrArg (fun w => HEq w.block block) he)).2 hb
  have hmark : ∀ peer, Outstanding (({ t with writes := t.writes.erase ⟨index, block, fromPeer⟩ } :
      Torrent P L).call index (.markAsFinished block peer)) := by
    intro peer
    refine outstanding_call h.toPlaced _ (fun q _ => h.free q) hother
      (fun hhave => ?_) fun i hi => ?_
    · have hhave : t.picker.havePiece index = true := hhave
      simp [pieceCall, Picker.piece, h.free index hhave, hhave, PiecePicker.markAsFinished]
    · replace hi := (stateAt_markAsFinished ..).symm.trans hi
      split_ifs at hi with hb
      refine hsame i (fun he => hb ⟨he, fun hnone => ?_⟩) hi
      have hentry : t.picker.entry L index = none := hnone.1
      rw [Picker.piece, hentry] at hi
      cases hi
  unfold onDiskWriteComplete
  split_ifs with hfailed hpeer hfinished
  · refine outstanding_call h.toPlaced _ (fun q _ => h.free q) hother
      (fun hhave => ?_) fun i hi => ?_
    · simp [pieceCall, Picker.piece, h.free index hhave, writeFailedEntry]
    · rcases stateAt_writeFailedEntry (t.picker.entry L index) block i with hnone | ⟨hblock, hsame'⟩
      · cases hnone.symm.trans hi
      · have hwriting := hsame'.symm.trans hi
        refine hsame i (fun he => ?_) hwriting
        cases (he ▸ hblock he).symm.trans hwriting
  · exact hmark peer
  · refine ⟨h.toPlaced, h.free, fun q i hi => ?_⟩
    by_cases hq : q = index
    · subst hq
      refine hsame i (fun he => ?_) hi
      rcases (isFinished_iff h.toPlaced block).1 hfinished with hhave | hstate
      · have hentry : t.picker.entry L q = none := h.free q hhave
        dsimp only at hi
        rw [hentry] at hi
        cases hi
      · cases (he ▸ hstate).symm.trans hi
    · exact hother q hq i hi
  · exact hmark none

/-- One event keeps the invariant. -/
theorem outstanding_step [DecidableEq P] {e : Event P L} (h : Outstanding t) (hg : Guarded t e)
    (hs : step t e = some t') : Outstanding t' := by
  cases e with
  | addPiece index overwriteExisting buffers =>
    cases hs
    unfold addPiece
    split_ifs with hhave
    · exact h
    · refine outstanding_addBlocks overwriteExisting h (Bool.eq_false_iff.2 fun htrue => ?_)
      cases overwriteExisting with
      | true => exact absurd (htrue.symm.trans (hg rfl)) (by simp)
      | false => exact hhave (by simp [htrue])
  | addRequest index i peer state =>
    cases hs
    exact h.markAsDownloading i peer state hg
  | incomingPiece index i peer =>
    cases hs
    unfold incomingPiece
    split_ifs
    · exact h
    · exact (h.asyncWrite _).markAsWriting i peer
        ⟨true, List.mem_append_right _ (List.mem_singleton_self _)⟩
  | diskWrite w peer failed =>
    rw [step] at hs
    split_ifs at hs
    cases hs
    exact outstanding_onDiskWriteComplete h peer failed
  | abortDownload index i =>
    cases hs
    refine h.call _ (fun hhave => ?_) fun j hj => ?_
    · have hentry : (t.picker.piece L index).entry = none := h.free index hhave
      simp [pieceCall, hentry, PiecePicker.abortDownload]
    · rcases stateAt_abortDownload (t.picker.entry L index) i j with hnone | hsame
      · cases hnone.symm.trans hj
      · exact h.written index j (hsame.symm.trans hj)
  | restorePiece index =>
    rw [step] at hs
    split_ifs at hs
    cases hs
    exact h.call _ (fun _ => rfl) fun _ hj => by cases hj
  | weHave index =>
    cases hs
    exact h.call _ (fun _ => rfl) fun _ hj => by cases hj
  | clearPeer peer =>
    cases hs
    obtain ⟨hplaced, hentry⟩ := placed_clearPeer h.toPlaced peer
    refine ⟨hplaced, fun q hq => ?_, fun q i hi => ?_⟩
    · have hfree := h.free q hq
      rw [hentry, hfree]
      rfl
    · rw [hentry, stateAt_clearPeer] at hi
      exact h.written q i hi

/-- Nothing is downloaded yet. -/
def start : Torrent P L := ⟨empty, []⟩

theorem outstanding_start : Outstanding (start : Torrent P L) :=
  ⟨placed_empty, fun _ => nofun, fun _ _ => nofun⟩

/-- **No block is stuck.**  In every run that neither requests nor overwrites a complete piece, a block that
is being written has an outstanding write. -/
theorem outstanding_of_run [DecidableEq P] {es : List (Event P L)} (hg : Along step Guarded start es)
    (hr : run step start es = some t) : Outstanding t :=
  hg.keeps (fun _ _ _ h ha hs => outstanding_step h ha hs) outstanding_start hr

/-- A block is added, and again before it is written; the first write fails. -/
theorem outstanding_of_run_again :
    ∃ t, run step start [.addPiece 2 false 1, .addPiece 2 true 1,
      .diskWrite ⟨2, ⟨0, by decide⟩, false⟩ none true] = some t ∧
        Outstanding (t : Torrent ℕ threePieces) := by
  have hr : run step (start : Torrent ℕ threePieces) [.addPiece 2 false 1, .addPiece 2 true 1,
    .diskWrite ⟨2, ⟨0, by decide⟩, false⟩ none true] = some _ := rfl
  refine ⟨_, hr, outstanding_of_run ?_ hr⟩
  refine along_cons (fun h => nomatch h) rfl ?_
  refine along_cons (fun _ => rfl) rfl ?_
  exact along_cons trivial rfl trivial

/-! ### A piece that is finished -/

/-- The disk thread is done only with blocks that are not requested. -/
def Asserting (t : Torrent P L) : Event P L → Prop
  | .diskWrite w _ _ => stateAt (t.picker.entry L w.index) w.block ≠ .requested
  | _ => True

/-- The counters of every piece are right. -/
structure Sound (t : Torrent P L) : Prop extends Outstanding t where
  counted : ∀ index, ∀ dp ∈ t.picker.entry L index, Counted dp

/-- A call that finishes or gives up no requested block keeps the counters right. -/
theorem counted_call (hn : L.blocksPerPiece < 2 ^ 15) (h : Placed L t.picker)
    (hcounted : ∀ q, ∀ dp ∈ t.picker.entry L q, Counted dp) (c : PieceCall P (L.blocksInPiece index))
    (hc : ∀ i peer, c = .markAsFinished i peer ∨ c = .writeFailed i →
      stateAt (t.picker.entry L index) i ≠ .requested) :
    ∀ q, ∀ dp ∈ (t.call index c).picker.entry L q, Counted dp := by
  obtain ⟨-, hpiece, hother⟩ := placed_call h c
  have hentry : (t.call index c).picker.entry L index = _ := congrArg Piece.entry hpiece
  intro q
  by_cases hq : q = index
  · subst hq
    rw [hentry]
    refine counted_pieceCall ((L.blocksInPiece_le q).trans_lt hn) (hcounted q) fun i peer hi dp hdp => ?_
    have hstate := hc i peer hi
    rwa [show t.picker.entry L q = some dp from hdp] at hstate
  · have hentry : (t.call index c).picker.entry L q = _ := congrArg Piece.entry (hother q hq)
    rw [hentry]
    exact hcounted q

theorem counted_addBlocks (hn : L.blocksPerPiece < 2 ^ 15) (overwriteExisting : Bool)
    {is : List (Fin (L.blocksInPiece index))} {buffers : ℕ} (h : Placed L t.picker)
    (hcounted : ∀ q, ∀ dp ∈ t.picker.entry L q, Counted dp) :
    ∀ q, ∀ dp ∈ (addBlocks index overwriteExisting is buffers t).picker.entry L q, Counted dp := by
  induction is generalizing t buffers with
  | nil => exact hcounted
  | cons i is ih =>
    unfold addBlocks
    split_ifs
    · exact ih h hcounted
    · cases buffers with
      | zero => exact hcounted
      | succ buffers =>
        have hrequested := counted_call (t := t.asyncWrite ⟨index, i, false⟩) hn h hcounted
          (.markAsDownloading i none .fast) (by simp)
        have hplaced : Placed L _ := (placed_call h (.markAsDownloading i none .fast)).1
        exact ih (placed_call hplaced (.markAsWriting i none)).1
          (counted_call hn hplaced hrequested (.markAsWriting i none) (by simp))

theorem sound_step [DecidableEq P] (hn : L.blocksPerPiece < 2 ^ 15) {e : Event P L} (h : Sound t)
    (hg : Guarded t e) (ha : Asserting t e) (hs : step t e = some t') : Sound t' := by
  refine ⟨outstanding_step h.toOutstanding hg hs, ?_⟩
  have hplaced := h.toPlaced
  cases e with
  | addPiece index overwriteExisting buffers =>
    cases hs
    unfold addPiece
    split_ifs
    · exact h.counted
    · exact counted_addBlocks hn overwriteExisting hplaced h.counted
  | addRequest index i peer state =>
    cases hs
    exact counted_call hn hplaced h.counted _ (by simp)
  | incomingPiece index i peer =>
    cases hs
    unfold incomingPiece
    split_ifs
    · exact h.counted
    · exact counted_call (t := t.asyncWrite _) hn hplaced h.counted _ (by simp)
  | diskWrite w peer failed =>
    rw [step] at hs
    split_ifs at hs
    cases hs
    unfold onDiskWriteComplete
    split_ifs
    · exact counted_call hn hplaced h.counted (.writeFailed w.block) (by simpa [Asserting] using ha)
    · exact counted_call hn hplaced h.counted (.markAsFinished w.block peer) (by simpa [Asserting] using ha)
    · exact h.counted
    · exact counted_call hn hplaced h.counted (.markAsFinished w.block none) (by simpa [Asserting] using ha)
  | abortDownload index i =>
    cases hs
    exact counted_call hn hplaced h.counted _ (by simp)
  | restorePiece index =>
    rw [step] at hs
    split_ifs at hs
    cases hs
    exact counted_call hn hplaced h.counted _ (by simp)
  | weHave index =>
    cases hs
    exact counted_call hn hplaced h.counted _ (by simp)
  | clearPeer peer =>
    cases hs
    intro q dp' hdp'
    rw [(placed_clearPeer hplaced peer).2 q] at hdp'
    obtain ⟨dp, hdp, rfl⟩ := Option.mem_map.1 hdp'
    have hcounted := h.counted q dp hdp
    exact ⟨hcounted.requested, hcounted.writing, hcounted.finished⟩

theorem sound_of_run [DecidableEq P] (hn : L.blocksPerPiece < 2 ^ 15) {es : List (Event P L)}
    (hg : Along step (fun t e => Guarded t e ∧ Asserting t e) start es)
    (hr : run step start es = some t) : Sound t :=
  hg.keeps (fun _ _ _ h ha hs => sound_step hn h ha.1 ha.2 hs)
    ⟨outstanding_start, fun _ => by rintro _ ⟨⟩⟩ hr

/-- Where no block is in a state, none is counted. -/
theorem count_eq_zero {info : Fin n → BlockInfo P} {state : BlockState}
    (h : ∀ i, (info i).state ≠ state) : count info state (List.finRange n) = 0 :=
  List.countP_eq_zero.2 fun i _ => by simpa using h i

/-- Where every block is in a state, all are counted, and conversely. -/
theorem count_eq_iff {info : Fin n → BlockInfo P} {state : BlockState} :
    count info state (List.finRange n) = n ↔ ∀ i, (info i).state = state := by
  unfold count
  have hlength : (List.finRange n).length = n := List.length_finRange
  rw [show (List.countP _ _ = n) = (List.countP _ _ = (List.finRange n).length) by rw [hlength],
    List.countP_eq_length]
  simp

/-- The blocks that are finished or written, together. -/
theorem count_downloaded (info : Fin n → BlockInfo P) (is : List (Fin n)) :
    count info .finished is + count info .writing is =
      is.countP fun i => Downloaded (info i).state := by
  induction is with
  | nil => rfl
  | cons i is ih =>
    unfold count at ih ⊢
    simp only [List.countP_cons, ← ih]
    cases (info i).state with
    | writing => simp [Downloaded, add_assoc]
    | finished => simp [Downloaded, add_right_comm]
    | _ => simp [Downloaded]

/-- All the blocks are counted as finished or written exactly when they are. -/
theorem complete_eq_iff {dp : DownloadingPiece P n} (h : Counted dp) :
    (n : ℤ) ≤ dp.finished + dp.writing ↔ ∀ i, Downloaded (dp.info i).state := by
  have hsum := count_downloaded dp.info (List.finRange n)
  have hlength : (List.finRange n).length = n := List.length_finRange
  have hle : (List.finRange n).countP (fun i => Downloaded (dp.info i).state) ≤ n :=
    List.countP_le_length.trans_eq hlength
  have hall : (List.finRange n).countP (fun i => Downloaded (dp.info i).state) = n ↔
      ∀ i, Downloaded (dp.info i).state := by
    rw [show ((_ : ℕ) = n) = (_ = (List.finRange n).length) by rw [hlength], List.countP_eq_length]
    simp
  rw [← hall, h.finished, h.writing]
  omega

/-- A finished piece is on the disk when no write is outstanding. -/
theorem Sound.allFinished (h : Sound t) (hidle : t.writes = [])
    (hfinished : isPieceFinished L index t.picker = true) :
    ∃ dp ∈ t.picker.entry L index, (∀ i, (dp.info i).state = .finished) ∧
      dp.finished = L.blocksInPiece index ∧ dp.writing = 0 ∧ dp.requested = 0 := by
  obtain ⟨dp, hdp, hle⟩ := (isPieceFinished_iff h.toPlaced).1 hfinished
  have hcounted := h.counted index dp hdp
  have hwriting : ∀ i, (dp.info i).state ≠ .writing := by
    intro i hi
    obtain ⟨b, hb⟩ := h.written index i (by rw [show t.picker.entry L index = some dp from hdp]; exact hi)
    rw [hidle] at hb
    cases hb
  have hzero := count_eq_zero hwriting
  have hn : count dp.info .finished (List.finRange (L.blocksInPiece index)) = L.blocksInPiece index := by
    have hcount := count_le dp.info .finished
    rw [hcounted.finished, hcounted.writing, hzero] at hle
    omega
  have hall := count_eq_iff.1 hn
  refine ⟨dp, hdp, hall, ?_, ?_, ?_⟩
  · rw [hcounted.finished, hn]
  · rw [hcounted.writing, hzero]
    rfl
  · rw [hcounted.requested, count_eq_zero fun i => by simp [hall i]]
    rfl

/-- **A finished piece is on the disk.**  In every run that keeps to the conditions, when no write is
outstanding, all the blocks of a piece that is finished have been written, and the counters say so. -/
theorem finished_of_idle [DecidableEq P] (hn : L.blocksPerPiece < 2 ^ 15) {es : List (Event P L)}
    (hg : Along step (fun t e => Guarded t e ∧ Asserting t e) start es)
    (hr : run step start es = some t) (hidle : t.writes = [])
    (hfinished : isPieceFinished L index t.picker = true) :
    ∃ dp ∈ t.picker.entry L index, (∀ i, (dp.info i).state = .finished) ∧
      dp.finished = L.blocksInPiece index ∧ dp.writing = 0 ∧ dp.requested = 0 :=
  (sound_of_run hn hg hr).allFinished hidle hfinished

/-- The last piece has one block, which is added and written. -/
theorem finished_of_idle_last :
    ∃ t, run step start [.addPiece 2 false 1, .diskWrite ⟨2, ⟨0, by decide⟩, false⟩ none false] =
        some (t : Torrent ℕ threePieces) ∧
      ∃ dp ∈ t.picker.entry threePieces 2, (∀ i, (dp.info i).state = .finished) ∧
        dp.finished = threePieces.blocksInPiece 2 ∧ dp.writing = 0 ∧ dp.requested = 0 := by
  have hr : run step (start : Torrent ℕ threePieces) [.addPiece 2 false 1,
    .diskWrite ⟨2, ⟨0, by decide⟩, false⟩ none false] = some _ := rfl
  refine ⟨_, hr, finished_of_idle (by decide) ?_ hr rfl rfl⟩
  refine along_cons ⟨(fun h => nomatch h), trivial⟩ rfl ?_
  refine along_cons ⟨trivial, ?_⟩ rfl trivial
  unfold Asserting
  decide

/-- The two calls of `add_piece` at a block: it is downloaded then, as are those that were before. -/
theorem downloaded_marksEntry (e : Option (DownloadingPiece P n)) {i j : Fin n}
    (hj : j = i ∨ Downloaded (stateAt e j)) :
    Downloaded (stateAt (PiecePicker.markAsWriting false i none
      (PiecePicker.markAsDownloading i none .fast e).1).1 j) := by
  rw [stateAt_markAsWriting, stateAt_markAsDownloading, stateAt_markAsDownloading]
  by_cases hi : Downloaded (stateAt e i)
  · have hj : Downloaded (stateAt e j) := hj.elim (fun he => he ▸ hi) id
    simpa [hi] using hj
  · by_cases he : j = i
    · subst he
      rw [if_pos (⟨rfl, hi⟩ : j = j ∧ ¬ Downloaded (stateAt e j)),
        if_pos ⟨rfl, by simp [Downloaded], by simp⟩]
      exact .inl rfl
    · simpa [he] using hj.resolve_left he

theorem downloaded_marks (h : Placed L t.picker) (hhave : t.picker.havePiece index = false)
    {i j : Fin (L.blocksInPiece index)}
    (hj : j = i ∨ Downloaded (stateAt (t.picker.entry L index) j)) :
    Downloaded (stateAt (((t.call index (.markAsDownloading i none .fast)).call index
      (.markAsWriting i none)).picker.entry L index) j) := by
  obtain ⟨hplaced, hpiece, -⟩ := placed_call h (.markAsDownloading i none .fast)
  have hwriting := (placed_call hplaced (.markAsWriting i none)).2.1
  rw [hpiece] at hwriting
  have hentry : ((t.call index (.markAsDownloading i none .fast)).call index
      (.markAsWriting i none)).picker.entry L index =
        (PiecePicker.markAsWriting (t.picker.havePiece index) i none
          (PiecePicker.markAsDownloading i none .fast (t.picker.entry L index)).1).1 :=
    congrArg Piece.entry hwriting
  rw [hentry, hhave]
  exact downloaded_marksEntry _ hj

theorem downloaded_addBlocks (overwriteExisting : Bool) {is : List (Fin (L.blocksInPiece index))}
    {buffers : ℕ} (h : Placed L t.picker) (hhave : t.picker.havePiece index = false)
    (hbuffers : is.length ≤ buffers) (j : Fin (L.blocksInPiece index))
    (hj : j ∈ is ∨ Downloaded (stateAt (t.picker.entry L index) j)) :
    Placed L (addBlocks index overwriteExisting is buffers t).picker ∧
      Downloaded (stateAt ((addBlocks index overwriteExisting is buffers t).picker.entry L index) j) := by
  induction is generalizing t buffers with
  | nil => exact ⟨h, hj.resolve_left (List.not_mem_nil)⟩
  | cons i is ih =>
    rw [List.length_cons] at hbuffers
    unfold addBlocks
    split_ifs with hskip
    · have hi : Downloaded (stateAt (t.picker.entry L index) i) := by
        have hfinished := (isFinished_iff h i).1 (Bool.and_eq_true_iff.1 hskip).1
        exact .inr (hfinished.resolve_left (by simp [hhave]))
      refine ih h hhave (by omega) ?_
      rcases hj with hmem | hj
      · rcases List.mem_cons.1 hmem with rfl | hmem
        · exact .inr hi
        · exact .inl hmem
      · exact .inr hj
    · cases buffers with
      | zero => omega
      | succ buffers =>
        have hplaced := (placed_call h (.markAsDownloading i none .fast)).1
        refine ih (placed_call hplaced (.markAsWriting i none)).1 ?_ (by omega) ?_
        · have hcall := havePiece_call (t := (t.asyncWrite ⟨index, i, false⟩).call index
            (.markAsDownloading i none .fast)) hplaced (.markAsWriting i none)
          rw [hcall]
          exact (havePiece_call h _).trans hhave
        · rcases hj with hmem | hj
          · rcases List.mem_cons.1 hmem with rfl | hmem
            · exact .inr (downloaded_marks (t := t.asyncWrite _) h hhave (.inl rfl))
            · exact .inl hmem
          · exact .inr (downloaded_marks (t := t.asyncWrite _) h hhave (.inr hj))

/-- A piece that is not complete yet counts as finished after `add_piece`. -/
theorem Sound.countsFinished_addPiece (hn : L.blocksPerPiece < 2 ^ 15) (h : Sound t)
    (overwriteExisting : Bool) {buffers : ℕ} (hhave : t.picker.havePiece index = false)
    (hbuffers : L.blocksInPiece index ≤ buffers) :
    isPieceFinished L index (addPiece index overwriteExisting buffers t).picker = true := by
  have hadd : addPiece index overwriteExisting buffers t =
      addBlocks index overwriteExisting (List.finRange _) buffers t := if_neg (by simp [hhave])
  rw [hadd]
  have hdownloaded : ∀ j, Placed L (addBlocks index overwriteExisting (List.finRange _) buffers t).picker ∧
      Downloaded (stateAt ((addBlocks index overwriteExisting (List.finRange _) buffers t).picker.entry L
        index) j) := fun j =>
    downloaded_addBlocks overwriteExisting h.toPlaced hhave (by simpa using hbuffers) j
      (.inl (List.mem_finRange j))
  have hcounted : ∀ dp ∈ (addBlocks index overwriteExisting (List.finRange _) buffers t).picker.entry L
      index, Counted dp := counted_addBlocks hn overwriteExisting h.toPlaced h.counted index
  have hfirst := hdownloaded ⟨0, L.blocksInPiece_pos index⟩
  refine (isPieceFinished_iff hfirst.1).2 ?_
  generalize hentry : (addBlocks index overwriteExisting (List.finRange _) buffers t).picker.entry L
    index = e at hcounted hdownloaded hfirst ⊢
  cases e with
  | none => exact absurd hfirst.2 (by simp [stateAt, Downloaded])
  | some dp =>
    exact ⟨dp, rfl, (complete_eq_iff (hcounted dp rfl)).2 fun i => (hdownloaded i).2⟩

/-- **`add_piece` finishes a piece.**  In every state that a run reaches, a piece that is not complete yet
counts as finished after `add_piece`, when the buffers suffice, whatever blocks of it were there before. -/
theorem isPieceFinished_addPiece [DecidableEq P] (hn : L.blocksPerPiece < 2 ^ 15)
    {es : List (Event P L)} (hg : Along step (fun t e => Guarded t e ∧ Asserting t e) start es)
    (hr : run step start es = some t) (overwriteExisting : Bool) {buffers : ℕ}
    (hhave : t.picker.havePiece index = false) (hbuffers : L.blocksInPiece index ≤ buffers) :
    isPieceFinished L index (addPiece index overwriteExisting buffers t).picker = true :=
  Sound.countsFinished_addPiece hn (sound_of_run hn hg hr) overwriteExisting hhave hbuffers

/-- A piece with a block that is requested from a peer. -/
theorem isPieceFinished_addPiece_requested :
    ∃ t, run step start [.addRequest 0 ⟨1, by decide⟩ (some 7) .fast] =
        some (t : Torrent ℕ threePieces) ∧
      isPieceFinished threePieces 0 (addPiece 0 false 2 t).picker = true := by
  have hr : run step (start : Torrent ℕ threePieces)
    [.addRequest 0 ⟨1, by decide⟩ (some 7) .fast] = some _ := rfl
  refine ⟨_, hr, isPieceFinished_addPiece (by decide) ?_ hr false rfl (by decide)⟩
  exact along_cons ⟨rfl, trivial⟩ rfl trivial

end P2Player.DiskWrites
