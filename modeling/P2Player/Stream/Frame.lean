import P2Player.Stream.HyperStreamer

/-!
# What the parts of an iteration leave alone

Apart from the deadlines themselves and the reads at its end, an iteration leaves the deadlines that
were set and the place of the stream alone, and it reads no piece.

* `Moved f P`: the part `f` of the state stays, and the calls that are added are in `P`;
* `State.track`, `State.aside`, `State.place`: the parts that stay;
* `moves_cancelSlow`, `moves_buffering`, `moves_readAndSend`, …: what the parts of an iteration do.
-/

namespace P2Player.Stream

open Java Program

/-- The part `f` of the state stays, and the calls that are added are in `P`. -/
structure Moved {β : Type} (f : State → β) (P : Call → Prop) (s s' : State) : Prop where
  part : f s' = f s
  calls : ∃ added, s'.calls = s.calls ++ added ∧ ∀ c ∈ added, P c

/-- The native layer is asked to read a piece. -/
def Call.Reads : Call → Prop
  | .setTorrentReadPiece _ => True
  | .readTorrentPiece _ => True
  | _ => False

/-- What the deadlines and the torrent's state depend on, except for the position of the stream. -/
def State.aside (s : State) : ℤ × ℤ × ℤ × TreeMap ℤ ℤ :=
  (s.state, s.incompleteIdx, s.lastDLP, s.dlPieces)

/-- `State.aside`, with the position of the stream. -/
def State.track (s : State) : ℤ × ℤ × ℤ × ℤ × TreeMap ℤ ℤ := (s.streamPiece, s.aside)

/-- The torrent's state, and the position of the stream and of the first missing piece. -/
def State.place (s : State) : ℤ × ℤ × ℤ := (s.state, s.streamPiece, s.incompleteIdx)

section

variable {β γ : Type} {f : State → β} {g : State → γ} {P Q : Call → Prop}

instance : IsPreorder State (Moved f P) where
  refl _ := ⟨rfl, [], (List.append_nil _).symm, fun _ h => by cases h⟩
  trans := by
    rintro s s' s'' ⟨hf, added, hadd, hP⟩ ⟨hf', added', hadd', hP'⟩
    refine ⟨hf'.trans hf, added ++ added', ?_, fun c hc => ?_⟩
    · rw [hadd', hadd, List.append_assoc]
    · exact (List.mem_append.1 hc).elim (hP c) (hP' c)

theorem Moved.mono {s s' : State} (h : Moved f P s s') (hg : f s' = f s → g s' = g s)
    (hQ : ∀ c, P c → Q c) : Moved g Q s s' := by
  obtain ⟨hf, added, hadd, hP⟩ := h
  exact ⟨hg hf, added, hadd, fun c hc => hQ c (hP c hc)⟩

theorem Moved.mem_calls {s s' : State} (h : Moved f P s s') {c : Call} (hc : c ∈ s.calls) :
    c ∈ s'.calls := by
  obtain ⟨-, added, hadd, -⟩ := h
  rw [hadd]
  exact List.mem_append_left _ hc

theorem moved_modify {m : State → State} (h : ∀ s, f (m s) = f s ∧ (m s).calls = s.calls) :
    Moves (Moved f P) (modify m : Prog PUnit) :=
  moves_modify fun s => ⟨(h s).1, [], ((h s).2.trans (List.append_nil _).symm), fun _ h => by cases h⟩

theorem moves_call {t : Tick} {c : Call} (hf : ∀ s calls, f { s with calls := calls } = f s)
    (hc : P c) : Moves (Moved f P) (call t c) := by
  refine (moves_modify fun s => ?_).bind fun _ => moves_ite (moves_throw _) (moves_pure _)
  exact ⟨hf s _, [c], rfl, fun c' hc' => List.mem_singleton.1 hc' ▸ hc⟩

theorem moves_sleep (ok : Bool) : Moves (Moved f P) (sleep ok) :=
  moves_ite (moves_pure _) (moves_throw _)

end

/-- A program that keeps track of the stream and of the deadlines, and reads nothing. -/
abbrev Keeps {α : Type} (m : Prog α) : Prop := Moves (Moved State.track fun c => ¬ c.Reads) m

theorem Keeps.aside {α : Type} {m : Prog α} (h : Keeps m) :
    Moves (Moved State.aside fun c => ¬ c.Reads) m :=
  Moves.mono h fun _ _ hm => hm.mono (congrArg Prod.snd) fun _ => id

theorem Keeps.place {α : Type} {m : Prog α} (h : Keeps m) :
    Moves (Moved State.place fun c => ¬ c.Reads) m := by
  refine Moves.mono h fun s s' hm => hm.mono (fun htrack => ?_) fun _ => id
  have hpiece : s'.streamPiece = s.streamPiece := congrArg Prod.fst htrack
  have hstate : s'.state = s.state := congrArg (fun x => x.2.1) htrack
  have hidx : s'.incompleteIdx = s.incompleteIdx := congrArg (fun x => x.2.2.1) htrack
  rw [State.place, hstate, hpiece, hidx]
  rfl

section

variable {R : Request} {H : Helper} {t : Tick}

theorem keeps_modify {m : State → State}
    (h : ∀ s, (m s).track = s.track ∧ (m s).calls = s.calls) : Keeps (modify m : Prog PUnit) :=
  moved_modify h

theorem keeps_call {c : Call} (hc : ¬ c.Reads) : Keeps (call t c) := moves_call (fun _ _ => rfl) hc

theorem keeps_getPieceState (answer : List UInt8 → Option (List UInt8)) :
    Keeps (getPieceState answer) := by
  refine moves_get.bind fun _ => (moves_ask _).bind fun _ => (moves_ask _).bind fun _ => ?_
  exact keeps_modify fun _ => by exact ⟨rfl, rfl⟩

theorem keeps_getNumDone : Keeps getNumDone := by
  refine moves_get.bind fun _ => (moves_ask _).bind fun _ => ?_
  exact (keeps_modify fun _ => by exact ⟨rfl, rfl⟩).bind fun _ => moves_pure _

theorem keeps_setDeadline (fromIndex count endIndex : ℤ) :
    Keeps (setDeadline t fromIndex count endIndex) := by
  apply moves_ite
  · exact moves_pure _
  · exact (moves_forM fun _ => keeps_call id).bind fun _ => moves_pure _

theorem keeps_getPieceRemain : Keeps (getPieceRemain R t) := by
  refine moves_get.bind fun _ => (moves_ask _).bind fun info => ?_
  cases info with
  | none => exact moves_pure _
  | some downloadedBytes => exact moves_pure _

theorem keeps_cancelFirst (entry : Option (ℤ × ℤ)) : Keeps (cancelFirst R t entry) := by
  refine moves_get.bind fun _ => (moves_ask _).bind fun _ => ?_
  refine (keeps_modify fun _ => by exact ⟨rfl, rfl⟩).bind fun _ => (moves_ask _).bind fun _ => ?_
  apply moves_onlyIf
  refine (keeps_modify fun _ => by exact ⟨rfl, rfl⟩).bind fun _ => (keeps_call id).bind fun _ => ?_
  exact keeps_modify fun _ => by exact ⟨rfl, rfl⟩

theorem keeps_cancelAgain : Keeps (cancelAgain R t) := by
  refine keeps_getPieceRemain.bind fun _ => moves_get.bind fun _ => (moves_ask _).bind fun _ => ?_
  refine (keeps_modify fun _ => by exact ⟨rfl, rfl⟩).bind fun _ => ?_
  apply moves_onlyIf
  exact (keeps_call id).bind fun _ => keeps_modify fun _ => by exact ⟨rfl, rfl⟩

theorem keeps_cancelSlow (entry : Option (ℤ × ℤ)) : Keeps (cancelSlow R t entry) :=
  moves_get.bind fun _ => moves_ite (keeps_cancelFirst _) keeps_cancelAgain

theorem keeps_clearDeadlines : Keeps (clearDeadlines t) := by
  refine moves_get.bind fun _ => moves_ite (keeps_call id) (moves_ite ?_ (moves_pure _))
  exact (moves_ask _).bind fun _ => moves_onlyIf (keeps_call id)

theorem moves_setDeadlines (PIECE_BUFFER_SIZE : ℤ) :
    Moves (Moved State.place fun c => ¬ c.Reads) (setDeadlines R t PIECE_BUFFER_SIZE) := by
  refine (moved_modify fun _ => by exact ⟨rfl, rfl⟩).bind fun _ => moves_get.bind fun _ => ?_
  refine (moves_ask _).bind fun _ => (moved_modify fun _ => by exact ⟨rfl, rfl⟩).bind fun _ => ?_
  refine (keeps_getPieceState _).place.bind fun _ => keeps_getNumDone.place.bind fun _ => ?_
  refine (moved_modify fun _ => by exact ⟨rfl, rfl⟩).bind fun _ => moves_onlyIf ?_
  refine (moved_modify fun _ => by exact ⟨rfl, rfl⟩).bind fun _ => ?_
  refine (keeps_setDeadline _ _ _).place.bind fun _ => ?_
  exact moved_modify fun _ => by exact ⟨rfl, rfl⟩

theorem moves_buffering (PIECE_BUFFER_SIZE : ℤ) :
    Moves (Moved State.place fun c => ¬ c.Reads) (buffering R t PIECE_BUFFER_SIZE) := by
  refine (moves_setDeadlines _).bind fun _ => moves_get.bind fun _ => (moves_ask _).bind fun _ => ?_
  refine (moved_modify fun _ => by exact ⟨rfl, rfl⟩).bind fun _ => ?_
  refine (keeps_cancelSlow _).place.bind fun _ => ?_
  refine (moves_ask _).bind fun _ => (moves_ask _).bind fun _ => ?_
  exact moves_onlyIf (moved_modify fun _ => by exact ⟨rfl, rfl⟩)

/-! ### The transfer -/

section Transfer

variable {P : Call → Prop}

theorem moves_fill (offset : ℤ) (data : List UInt8) : Moves (Moved State.track P) (fill offset data) :=
  moves_get.bind fun _ => moves_ite (moved_modify fun _ => by exact ⟨rfl, rfl⟩) (moves_throw _)

theorem moves_writeData (offset len : ℤ) : Moves (Moved State.track P) (writeData t offset len) := by
  refine moves_get.bind fun _ => moves_ite ?_ (moves_throw _)
  unfold writeBytes
  cases t.sent with
  | none => exact moved_modify fun _ => by exact ⟨rfl, rfl⟩
  | some k => exact (moved_modify fun _ => by exact ⟨rfl, rfl⟩).bind fun _ => moves_throw _

theorem Moved.of_track {s s' : State} (h : Moved State.track P s s') : Moved State.aside P s s' :=
  h.mono (congrArg Prod.snd) fun _ => id

theorem moves_send (offset len : ℤ) : Moves (Moved State.aside P) (send t offset len) := by
  refine moves_get.bind fun _ => ?_
  refine ((moves_writeData _ _).mono fun _ _ => Moved.of_track).bind fun _ => ?_
  exact moved_modify fun _ => by exact ⟨rfl, rfl⟩

/-- What has moved so far moves on. -/
theorem triple_of_moves {β α : Type} {f : State → β} {m : Prog α} {s₀ : State}
    (h : Moves (Moved f P) m) :
    Triple (fun s => Moved f P s₀ s) m (fun _ s => Moved f P s₀ s) fun _ s => Moved f P s₀ s :=
  h.triple fun _ _ hm hs => trans_of _ hs hm

/-- As long as the stream is where it was, an exit leaves the deadlines alone. -/
theorem exits_aside {α : Type} {m : Prog α} {s₀ : State} {Q : α → State → Prop}
    {I : State → Prop} (h : Triple I m Q fun _ s => Moved State.track P s₀ s) :
    Triple I m Q fun _ s => Moved State.aside P s₀ s :=
  h.conseq (fun _ => id) (fun _ _ => id) fun _ _ => Moved.of_track

variable {s₀ : State}

theorem triple_setReadPiece (hset : P (.setTorrentReadPiece s₀.streamPiece)) :
    Triple (fun s => Moved State.track P s₀ s) (setReadPiece t)
      (fun _ s => Moved State.track P s₀ s) fun _ s => Moved State.track P s₀ s := by
  intro s hs
  have hpiece : s.streamPiece = s₀.streamPiece := congrArg Prod.fst hs.part
  rw [← hpiece] at hset
  refine triple_of_moves (moves_onlyIf ?_) s hs
  refine (moved_modify fun _ => by exact ⟨rfl, rfl⟩).bind fun _ => ?_
  exact (moves_call (fun _ _ => rfl) hset).bind fun _ => moves_sleep _

theorem triple_readPiece (hread : P (.readTorrentPiece s₀.streamPiece)) :
    Triple (fun s => Moved State.track P s₀ s) (readTorrentPiece t)
      (fun _ s => Moved State.track P s₀ s) fun _ s => Moved State.track P s₀ s := by
  intro s hs
  have hpiece : s.streamPiece = s₀.streamPiece := congrArg Prod.fst hs.part
  rw [← hpiece] at hread
  have hread : Moves (Moved State.track P) (do
      call t (.readTorrentPiece s.streamPiece)
      let r ← ask (t.readTorrentPiece s.streamPiece)
      fill 0 r.data
      pure r.len) := by
    refine (moves_call (fun _ _ => rfl) hread).bind fun _ => (moves_ask _).bind fun _ => ?_
    exact (moves_fill _ _).bind fun _ => moves_pure _
  exact triple_of_moves hread s hs

/-- The end of an iteration asks the native layer for the piece that is to be sent. -/
theorem triple_readEnd (hset : P (.setTorrentReadPiece s₀.streamPiece))
    (hread : P (.readTorrentPiece s₀.streamPiece)) :
    Triple (fun s => Moved State.track P s₀ s) (readAndSend R t)
      (fun _ s => Moved State.aside P s₀ s) fun _ s => Moved State.aside P s₀ s := by
  have hwait : Moves (Moved State.track P) (modify fun s => { s with wait := false } : Prog PUnit) :=
    moved_modify fun _ => by exact ⟨rfl, rfl⟩
  refine Triple.bind (exits_aside (triple_of_moves hwait)) fun _ => ?_
  refine Triple.bind (exits_aside (triple_setReadPiece hset)) fun _ => ?_
  refine Triple.bind (exits_aside (triple_readPiece hread)) fun len => ?_
  refine (triple_of_moves (f := State.aside) ?_).conseq (fun _ => Moved.of_track)
    (fun _ _ => id) fun _ _ => id
  refine moves_ite (moves_throw _) (moves_ite ?_ ?_)
  · exact (moves_sleep _).bind fun _ => moves_throw _
  · exact moves_get.bind fun _ => moves_send _ _

end Transfer

namespace TorrentStreamerImpl

/-- An iteration goes on past the first missing piece only when it is not the one to be sent. -/
theorem triple_waitPast {P : Call → Prop} {s₀ : State} :
    Triple (fun s => s = s₀) (waitForPiece t)
      (fun _ s => s₀.streamPiece ≠ s₀.incompleteIdx ∧ Moved State.track P s₀ s)
      fun _ s => Moved State.track P s₀ s := by
  rintro s rfl
  refine triple_ite (P := fun s' => Moved State.track P s s') (fun _ => ?_)
    (fun hne => triple_pure _ fun s' hs' => ⟨hne, hs'⟩) s (refl_of _ s)
  have hwait : Moves (Moved State.track P) (modify fun s => { s with wait := true } : Prog PUnit) :=
    moved_modify fun _ => by exact ⟨rfl, rfl⟩
  refine Triple.bind (triple_of_moves (moves_sleep _)) fun _ => ?_
  exact (triple_of_moves hwait).bind fun _ => triple_throw _ fun _ => id

end TorrentStreamerImpl

namespace HyperStreamer

theorem keeps_helped (bits : ℤ → Bool) (n : ℤ) : Keeps (helped R bits n) :=
  moves_ite (moves_pure _) (moves_throw _)

theorem keeps_addPiece (bits : ℤ → Bool) (pieceIdx : ℤ) : Keeps (addPiece R t bits pieceIdx) :=
  (keeps_helped _ _).bind fun _ => moves_onlyIf (keeps_call id)

theorem keeps_asyncAddPieceData (bits : ℤ → Bool) (pieceIdx : ℤ) :
    Keeps (asyncAddPieceData R H t bits pieceIdx) :=
  moves_onlyIf (keeps_addPiece _ _)

theorem keeps_needLast : Keeps (needLast R t) := by
  refine keeps_getNumDone.bind fun _ => moves_get.bind fun _ => ?_
  refine moves_ite ?_ (moves_pure _)
  refine (moves_ask _).bind fun _ => ?_
  refine Moves.bind (moves_ite (moves_pure _) (keeps_helped _ _)) fun _ => ?_
  refine Moves.bind (moves_ite (moves_ask _) (moves_pure _)) fun _ => ?_
  exact moves_ite ((keeps_helped _ _).bind fun _ => moves_pure _) (moves_pure _)

theorem keeps_needDataHelp (fromPiece speed : ℤ) : Keeps (needDataHelp R t fromPiece speed) := by
  refine moves_get.bind fun _ => moves_ite (moves_pure _) (moves_ite ?_ keeps_needLast)
  refine (moves_ask _).bind fun _ => moves_ite (moves_pure _) ?_
  exact moves_ite (moves_pure _) keeps_needLast

theorem keeps_retrievePiece (pieceIdx : ℤ) : Keeps (H.retrievePiece t pieceIdx) := by
  refine (keeps_modify fun _ => by exact ⟨rfl, rfl⟩).bind fun _ => moves_get.bind fun _ => ?_
  refine moves_ite (moves_pure _) ?_
  have hcount : Keeps countError := keeps_modify fun _ => by exact ⟨rfl, rfl⟩
  dsimp only
  generalize t.getData _ _ _ = answer
  cases answer with
  | done data => exact (moves_fill _ _).bind fun _ => moves_pure _
  | refused => exact hcount.bind fun _ => moves_pure _
  | failed data => exact (moves_fill _ _).bind fun _ => hcount.bind fun _ => moves_pure _

theorem moves_retrieveAndSendPice :
    Moves (Moved State.aside fun c => ¬ c.Reads) (retrieveAndSendPice R H t) := by
  refine moves_get.bind fun _ => (keeps_retrievePiece _).aside.bind fun _ => ?_
  refine moves_ite (moves_pure _) (moves_get.bind fun _ => ?_)
  refine (moves_onlyIf (keeps_call id).aside).bind fun _ => ?_
  exact (moves_send _ _).bind fun _ => moves_pure _

theorem moves_tryUseDataHelper :
    Moves (Moved State.aside fun c => ¬ c.Reads) (tryUseDataHelper R H t) := by
  refine moves_get.bind fun _ => (keeps_helped _ _).aside.bind fun _ => ?_
  refine moves_ite (moves_pure _) (moves_ite ?_ ?_)
  · exact (keeps_addPiece _ _).aside.bind fun _ => moves_pure _
  · exact (keeps_call id).aside.bind fun _ => moves_retrieveAndSendPice

theorem moves_helpFirst : Moves (Moved State.aside fun c => ¬ c.Reads) (helpFirst R H t) := by
  refine moves_get.bind fun _ => (moves_ask _).bind fun _ => ?_
  refine (moved_modify fun _ => by exact ⟨rfl, rfl⟩).bind fun _ => moves_onlyIf ?_
  refine (moves_ask _).bind fun _ => moves_onlyIf ?_
  exact moves_tryUseDataHelper.bind fun _ => moves_pure _

/-- An iteration goes on past the first missing piece only when it is not the one to be sent. -/
theorem triple_helpPast {s₀ : State} :
    Triple (fun s => s = s₀) (waitOrHelp R H t)
      (fun _ s => s₀.streamPiece ≠ s₀.incompleteIdx ∧ Moved State.track (fun c => ¬ c.Reads) s₀ s)
      fun _ s => Moved State.aside (fun c => ¬ c.Reads) s₀ s := by
  rintro s rfl
  refine triple_ite (P := fun s' => s' = s) (fun _ => ?_) (fun hne => ?_) s rfl
  · -- the helper may have sent the piece, and the iteration ends
    have hwait : Moves (Moved State.aside fun c => ¬ c.Reads)
        (modify fun s => { s with wait := true } : Prog PUnit) :=
      moved_modify fun _ => by exact ⟨rfl, rfl⟩
    have hstart : ∀ s', s' = s → Moved State.aside (fun c => ¬ c.Reads) s s' := by
      rintro s' rfl
      exact refl_of _ s'
    refine Triple.conseq ?_ hstart (fun _ _ => id) fun _ _ => id
    refine (triple_of_moves moves_tryUseDataHelper).bind fun _ => ?_
    refine (triple_of_moves ?_).bind fun _ => triple_throw _ fun _ => id
    exact moves_onlyIf ((moves_sleep _).bind fun _ => hwait)
  · have hhelp : Keeps (onlyIf (toInt (s.streamPiece + 1) = s.incompleteIdx) do
        asyncAddPieceData R H t t.helped s.incompleteIdx
        getPieceState t.getPieceStateLater
        let pIdx ← needDataHelp R t (toInt (s.incompleteIdx + 1)) s.speed
        onlyIf (0 < pIdx) (asyncAddPieceData R H t t.helpedLater pIdx)) := by
      refine moves_onlyIf ((keeps_asyncAddPieceData _ _).bind fun _ => ?_)
      refine (keeps_getPieceState _).bind fun _ => (keeps_needDataHelp _ _).bind fun _ => ?_
      exact moves_onlyIf (keeps_asyncAddPieceData _ _)
    refine (triple_of_moves hhelp).conseq ?_ (fun _ s' hs' => ⟨hne, hs'⟩) fun _ _ => Moved.of_track
    rintro s' rfl
    exact refl_of _ s'

end HyperStreamer

end

end P2Player.Stream
