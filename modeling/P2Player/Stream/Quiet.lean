import P2Player.Stream.HyperStreamer

/-!
# What leaves the transfer alone

The bookkeeping of both loops (the window of pieces, the deadlines, cancelled pieces, the orders to
`AddPieceService`) changes neither the buffer nor the position of the stream nor what was written.
It can end in an exception, but neither in a `continue` nor in a `break`.

* `Transfer`, `State.transfer`: the part of the state that decides what is sent;
* `quiet_buffering`, `quiet_needDataHelp`, …: the bookkeeping keeps it.
-/

namespace P2Player.Stream

open Java Program

/-- The part of the state that decides what is sent. -/
structure Transfer where
  pending : ℤ
  streamPiece : ℤ
  buff : List UInt8
  written : List UInt8

/-- What a state says about the transfer. -/
def State.transfer (s : State) : Transfer := ⟨s.pending, s.streamPiece, s.buff, s.written⟩

variable {R : Request} {H : Helper} {t : Tick}

theorem quiet_call (c : Call) : Quiet State.transfer (call t c) :=
  (quiet_modify fun _ => by rfl).bind fun _ => quiet_ite quiet_threw (quiet_pure ())

theorem quiet_sleep (ok : Bool) : Quiet State.transfer (sleep ok) :=
  quiet_ite (quiet_pure ()) quiet_threw

theorem quiet_updateState : Quiet State.transfer (updateState t) := by
  refine quiet_get.bind fun _ => quiet_onlyIf ?_
  exact (quiet_ask _).bind fun _ => quiet_modify fun _ => by rfl

theorem quiet_computePieceBufferSize : Quiet State.transfer (computePieceBufferSize R t) :=
  (quiet_ask _).bind fun _ => quiet_pure _

theorem quiet_updateIncompleteIdx : Quiet State.transfer (updateIncompleteIdx t) :=
  quiet_get.bind fun _ => (quiet_ask _).bind fun _ => quiet_modify fun _ => by rfl

theorem quiet_getPieceState (answer : List UInt8 → Option (List UInt8)) :
    Quiet State.transfer (getPieceState answer) := by
  refine quiet_get.bind fun _ => (quiet_ask _).bind fun _ => (quiet_ask _).bind fun _ => ?_
  exact quiet_modify fun _ => by rfl

theorem quiet_getNumDone : Quiet State.transfer getNumDone := by
  refine quiet_get.bind fun _ => (quiet_ask _).bind fun _ => ?_
  exact (quiet_modify fun _ => by rfl).bind fun _ => quiet_pure _

theorem quiet_setDeadline (fromIndex count endIndex : ℤ) :
    Quiet State.transfer (setDeadline t fromIndex count endIndex) := by
  apply quiet_ite
  · exact quiet_pure _
  · exact (quiet_forM fun _ => quiet_call _).bind fun _ => quiet_pure _

theorem quiet_setDeadlines (PIECE_BUFFER_SIZE : ℤ) :
    Quiet State.transfer (setDeadlines R t PIECE_BUFFER_SIZE) := by
  refine (quiet_modify fun _ => by rfl).bind fun _ => quiet_get.bind fun _ => ?_
  refine (quiet_ask _).bind fun _ => (quiet_modify fun _ => by rfl).bind fun _ => ?_
  refine (quiet_getPieceState _).bind fun _ => quiet_getNumDone.bind fun _ => ?_
  refine (quiet_modify fun _ => by rfl).bind fun _ => quiet_onlyIf ?_
  refine (quiet_modify fun _ => by rfl).bind fun _ => (quiet_setDeadline _ _ _).bind fun _ => ?_
  exact quiet_modify fun _ => by rfl

theorem quiet_getPieceRemain : Quiet State.transfer (getPieceRemain R t) := by
  refine quiet_get.bind fun _ => (quiet_ask _).bind fun info => ?_
  cases info with
  | none => exact quiet_pure _
  | some downloadedBytes => exact quiet_pure _

theorem quiet_cancelFirst (entry : Option (ℤ × ℤ)) :
    Quiet State.transfer (cancelFirst R t entry) := by
  refine quiet_get.bind fun _ => (quiet_ask _).bind fun _ => ?_
  refine (quiet_modify fun _ => by rfl).bind fun _ => (quiet_ask _).bind fun _ => ?_
  apply quiet_onlyIf
  refine (quiet_modify fun _ => by rfl).bind fun _ => (quiet_call _).bind fun _ => ?_
  exact quiet_modify fun _ => by rfl

theorem quiet_cancelAgain : Quiet State.transfer (cancelAgain R t) := by
  refine quiet_getPieceRemain.bind fun _ => quiet_get.bind fun _ => ?_
  refine (quiet_ask _).bind fun _ => (quiet_modify fun _ => by rfl).bind fun _ => ?_
  apply quiet_onlyIf
  exact (quiet_call _).bind fun _ => quiet_modify fun _ => by rfl

theorem quiet_cancelSlow (entry : Option (ℤ × ℤ)) : Quiet State.transfer (cancelSlow R t entry) :=
  quiet_get.bind fun _ => quiet_ite (quiet_cancelFirst _) quiet_cancelAgain

theorem quiet_buffering (PIECE_BUFFER_SIZE : ℤ) :
    Quiet State.transfer (buffering R t PIECE_BUFFER_SIZE) := by
  refine (quiet_setDeadlines _).bind fun _ => quiet_get.bind fun _ => ?_
  refine (quiet_ask _).bind fun _ => (quiet_modify fun _ => by rfl).bind fun _ => ?_
  refine (quiet_cancelSlow _).bind fun _ => ?_
  refine (quiet_ask _).bind fun _ => (quiet_ask _).bind fun _ => ?_
  exact quiet_onlyIf (quiet_modify fun _ => by rfl)

theorem quiet_clearDeadlines : Quiet State.transfer (clearDeadlines t) := by
  refine quiet_get.bind fun _ => quiet_ite (quiet_call _) (quiet_ite ?_ (quiet_pure ()))
  exact (quiet_ask _).bind fun _ => quiet_onlyIf (quiet_call _)

theorem quiet_startWindow : Quiet State.transfer startWindow := quiet_modify fun _ => by rfl

theorem quiet_setReadPiece : Quiet State.transfer (setReadPiece t) := by
  refine quiet_get.bind fun _ => quiet_onlyIf ?_
  exact (quiet_modify fun _ => by rfl).bind fun _ => (quiet_call _).bind fun _ => quiet_sleep _

namespace HyperStreamer

theorem quiet_helped (bits : ℤ → Bool) (n : ℤ) : Quiet State.transfer (helped R bits n) :=
  quiet_ite (quiet_pure _) quiet_threw

theorem quiet_addPiece (bits : ℤ → Bool) (pieceIdx : ℤ) :
    Quiet State.transfer (addPiece R t bits pieceIdx) :=
  (quiet_helped _ _).bind fun _ => quiet_onlyIf (quiet_call _)

theorem quiet_asyncAddPieceData (bits : ℤ → Bool) (pieceIdx : ℤ) :
    Quiet State.transfer (asyncAddPieceData R H t bits pieceIdx) :=
  quiet_onlyIf (quiet_addPiece _ _)

theorem quiet_needLast : Quiet State.transfer (needLast R t) := by
  refine quiet_getNumDone.bind fun _ => quiet_get.bind fun _ => ?_
  refine quiet_ite ?_ (quiet_pure _)
  refine (quiet_ask _).bind fun _ => ?_
  refine Quiet.bind (quiet_ite (quiet_pure _) (quiet_helped _ _)) fun _ => ?_
  refine Quiet.bind (quiet_ite (quiet_ask _) (quiet_pure _)) fun _ => ?_
  exact quiet_ite ((quiet_helped _ _).bind fun _ => quiet_pure _) (quiet_pure _)

theorem quiet_needDataHelp (fromPiece speed : ℤ) :
    Quiet State.transfer (needDataHelp R t fromPiece speed) := by
  refine quiet_get.bind fun _ => quiet_ite (quiet_pure _) (quiet_ite ?_ quiet_needLast)
  refine (quiet_ask _).bind fun _ => quiet_ite (quiet_pure _) ?_
  exact quiet_ite (quiet_pure _) quiet_needLast

end HyperStreamer

end P2Player.Stream
