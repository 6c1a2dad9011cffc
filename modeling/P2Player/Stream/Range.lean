import P2Player.Stream.Download
import P2Player.Stream.Sound

/-!
# Both streamers write the requested range

* `request_offset`, `request_length`: the part of a piece that `MdDataHelper` asks for;
* `triple_retrieveAndSendPice`: a piece from the helper is sent like one from the native layer;
* `Between`, `between_commonIteration`: what holds between two iterations, and that one keeps it;
* `MissingFit`: no window overflows at a piece that is missing;
* `stream_range`: what was written is a prefix of the range, and all of it when nothing is pending.

A read is trusted for pieces that are complete at that moment; that no other piece is read is the work of
the block for missing pieces.
-/

namespace P2Player.Stream

open Java Program

/-! ### The helper's requests -/

section Request

variable {T : Torrent}

/-- With a connector, the helper knows the item. -/
theorem create_eq {c : Creation} (h : (Helper.create T c).connector = true) :
    Helper.create T c =
      { pieceSize := T.pieceSize
        itemOffset := T.itemOffset
        itemLength := T.itemSize
        startPiece := toInt (T.itemOffset / T.pieceSize : ℕ)
        endPiece := toInt (toInt ((T.itemOffset + T.itemSize) / T.pieceSize : ℕ) + 1)
        connector := true } := by
  unfold Helper.create at h ⊢
  split_ifs at h ⊢
  rw [show c.connector = true from h]

variable {H : Helper} {p : ℕ}

/-- The helper has the item's place in the torrent. -/
structure Knows (H : Helper) (T : Torrent) : Prop where
  pieceSize : H.pieceSize = T.pieceSize
  itemOffset : H.itemOffset = T.itemOffset
  itemLength : H.itemLength = T.itemSize

theorem knows_create {c : Creation} (h : (Helper.create T c).connector = true) :
    Knows (Helper.create T c) T := by
  rw [create_eq h]
  exact ⟨rfl, rfl, rfl⟩

/-- The request begins where the piece or the item begins. -/
theorem request_offset (hH : Knows H T) (hlo : T.itemOffset < (p + 1) * T.pieceSize) :
    (H.request p).offset = (T.itemOffset - p * T.pieceSize : ℕ) := by
  have hsize := T.pieceSize_lt
  have hsucc : (p + 1) * T.pieceSize = p * T.pieceSize + T.pieceSize := Nat.succ_mul ..
  simp only [Helper.request, hH.pieceSize, hH.itemOffset, ← Nat.cast_mul]
  split_ifs with hneg
  · rw [toInt_of_isInt ⟨by omega, by omega⟩]; omega
  · omega

/-- The request ends where the piece or the item ends. -/
theorem request_length (hH : Knows H T) (hlo : T.itemOffset < (p + 1) * T.pieceSize)
    (hhi : p * T.pieceSize ≤ T.itemOffset + T.itemSize) :
    (H.request p).length = (min ((p + 1) * T.pieceSize) (T.itemOffset + T.itemSize) -
      max (p * T.pieceSize) T.itemOffset : ℕ) := by
  have hsize := T.pieceSize_lt
  have hsucc : (p + 1) * T.pieceSize = p * T.pieceSize + T.pieceSize := Nat.succ_mul ..
  simp only [Helper.request, hH.pieceSize, hH.itemOffset, hH.itemLength, ← Nat.cast_mul]
  rw [toInt_of_isInt ⟨by omega, by omega⟩]
  omega

end Request

/-! ### A piece from the helper -/

namespace HyperStreamer

variable {R : Request} {H : Helper} {t : Tick} {x : Transfer}

/-- A piece from the helper loads the buffer from its place on. -/
theorem loaded_request (hx : Sent R x) {p : ℕ} (hp : x.streamPiece = p)
    (hstart : R.torrentOffset / R.torrent.pieceSize ≤ p)
    (hat : p * R.torrent.pieceSize + R.offsetIn p = R.torrentOffset + x.written.length)
    {offset length : ℕ} (hoffset : offset = R.torrent.itemOffset - p * R.torrent.pieceSize)
    (hlength : length = min ((p + 1) * R.torrent.pieceSize)
      (R.torrent.itemOffset + R.torrent.itemSize) -
      max (p * R.torrent.pieceSize) R.torrent.itemOffset)
    (hbuff : slice x.buff offset length =
      slice R.torrent.content (p * R.torrent.pieceSize + offset) length) :
    offset ≤ R.offsetIn p ∧ R.offsetIn p ≤ offset + length ∧
      Loaded R x (R.offsetIn p) (offset + length - R.offsetIn p) := by
  have hpending := hx.pending_eq
  have hwle := hx.length_le
  have hrange := R.range_le
  have htorrent : R.torrentOffset = R.fileOffset + R.torrent.itemOffset := rfl
  have hoff := @offsetIn_lt R p
  have hsucc : (p + 1) * R.torrent.pieceSize = p * R.torrent.pieceSize + R.torrent.pieceSize :=
    Nat.succ_mul ..
  have hle : offset ≤ R.offsetIn p := by omega
  have hle' : R.offsetIn p ≤ offset + length := by omega
  refine ⟨hle, hle', by omega, ?_, ?_⟩
  · have hsub : offset + (R.offsetIn p - offset) = R.offsetIn p := by omega
    calc slice x.buff (R.offsetIn p) (offset + length - R.offsetIn p)
        = slice (slice x.buff offset length) (R.offsetIn p - offset)
            (offset + length - R.offsetIn p) := by rw [slice_slice _ _ _ (by omega), hsub]
      _ = slice (slice R.torrent.content (p * R.torrent.pieceSize + offset) length)
            (R.offsetIn p - offset) (offset + length - R.offsetIn p) := by rw [hbuff]
      _ = slice R.torrent.content (p * R.torrent.pieceSize + R.offsetIn p)
            (offset + length - R.offsetIn p) := by
          rw [slice_slice _ _ _ (by omega), Nat.add_assoc, hsub]
      _ = _ := by rw [hat]
  · by_cases hfull : offset + length = R.torrent.pieceSize
    · exact Or.inl ⟨p, hp, hstart, by omega⟩
    · exact Or.inr (by omega)

/-- The buffer has the part of piece `p` that the result announces. -/
def Filled (T : Torrent) (p : ℕ) (b : List UInt8) (result : Result) : Prop :=
  ∃ offset length : ℕ, result.offset = offset ∧ result.length = length ∧
    offset = T.itemOffset - p * T.pieceSize ∧
    length = min ((p + 1) * T.pieceSize) (T.itemOffset + T.itemSize) -
      max (p * T.pieceSize) T.itemOffset ∧
    slice b offset length = slice T.content (p * T.pieceSize + offset) length

/-- The position is in the item. -/
theorem within_item (hx : Sent R x) {p : ℕ}
    (hat : p * R.torrent.pieceSize + R.offsetIn p = R.torrentOffset + x.written.length) :
    R.torrent.itemOffset < (p + 1) * R.torrent.pieceSize ∧
      p * R.torrent.pieceSize ≤ R.torrent.itemOffset + R.torrent.itemSize := by
  have hwle := hx.length_le
  have hrange := R.range_le
  have htorrent : R.torrentOffset = R.fileOffset + R.torrent.itemOffset := rfl
  have hoff := @offsetIn_lt R p
  have hsucc : (p + 1) * R.torrent.pieceSize = p * R.torrent.pieceSize + R.torrent.pieceSize :=
    Nat.succ_mul ..
  omega

theorem triple_retrievePiece (hH : H.connector = true → Knows H R.torrent) (hx : Sent R x) {p : ℕ}
    (hat : p * R.torrent.pieceSize + R.offsetIn p = R.torrentOffset + x.written.length)
    (ht : DataOk R.torrent t) :
    Triple (fun s => s.transfer = x) (H.retrievePiece t p)
      (fun result s => ∃ b, s.transfer = { x with buff := b } ∧ Sent R { x with buff := b } ∧
        (result.state = .error ∨ Filled R.torrent p b result)) (Ends R) := by
  obtain ⟨hlo, hhi⟩ := within_item hx hat
  refine Triple.bind (triple_of_quiet (quiet_modify fun _ => by rfl) hx) fun _ => ?_
  apply triple_get_bind
  rintro s rfl
  apply triple_ite
  · intro _
    exact triple_pure _ fun s' hs' => ⟨_, hs', hx, Or.inl rfl⟩
  intro hok
  push Not at hok
  have hknows := hH hok.2.2.2
  have hoffset := request_offset hknows hlo
  have hlength := request_length hknows hlo hhi
  show Triple _ (receive (H.request p) (t.getData p (H.request p).offset (H.request p).length)) _ _
  cases hdata : t.getData p (H.request p).offset (H.request p).length with
  | refused =>
    refine Triple.bind (triple_of_quiet (quiet_modify fun _ => by rfl) hx) fun _ => ?_
    exact triple_pure _ fun s' hs' => ⟨_, hs', hx, Or.inl rfl⟩
  | failed data =>
    unfold receive
    rw [hoffset]
    refine Triple.bind (triple_fill hx) fun _ => ?_
    apply triple_of_part State.transfer
    rintro s' ⟨hle, hs'⟩
    rw [hs']
    refine Triple.bind (triple_of_quiet (quiet_modify fun _ => by rfl) (hx.fill hle)) fun _ => ?_
    exact triple_pure _ fun s'' hs'' => ⟨_, hs'', hx.fill hle, Or.inl rfl⟩
  | done data =>
    rw [hoffset, hlength] at hdata
    have hcontent := ht _ _ _ _ hdata
    unfold receive
    rw [hoffset]
    refine Triple.bind (triple_fill hx) fun _ => ?_
    apply triple_pure
    rintro s' ⟨hle, hs'⟩
    refine ⟨_, hs', hx.fill hle, Or.inr ⟨_, _, hoffset, hlength, rfl, rfl, ?_⟩⟩
    have hitem := R.torrent.item_le
    have hdlen := congrArg List.length hcontent
    rw [length_slice_of_le (by omega)] at hdlen
    rw [← hcontent, ← hdlen]
    calc slice (overwrite s.transfer.buff (R.torrent.itemOffset - p * R.torrent.pieceSize) data)
          (R.torrent.itemOffset - p * R.torrent.pieceSize) data.length
        = slice data 0 data.length := @slice_overwrite _ _ _ _ hle 0 _ (by omega)
      _ = data := List.take_length

section

variable (hH : H.connector = true → Knows H R.torrent) (hx : Sent R x) (hat : At R x)
  (ht : DataOk R.torrent t)
include hH hx hat ht

/-- A retrieved piece is sent; after an error the position is what it was. -/
theorem triple_retrieveAndSendPice :
    Triple (fun s => s.transfer = x) (retrieveAndSendPice R H t)
      (fun _ s => Sound R s.transfer) (Ends R) := by
  obtain ⟨p, hp, hstart, hpos⟩ := hat
  apply triple_get_bind
  intro s hs
  have hpiece : s.streamPiece = p := (congrArg Transfer.streamPiece hs).trans hp
  rw [hpiece]
  refine Triple.bind (triple_retrievePiece hH hx hpos ht) fun result => ?_
  apply triple_of_part State.transfer
  rintro s' ⟨b, hs', hb, hresult⟩
  rw [hs']
  apply triple_ite
  · intro _
    have hat' : At R { x with buff := b } := ⟨p, hp, hstart, hpos⟩
    exact triple_pure _ fun _ => hat'.sound hb
  intro hok
  obtain ⟨offset, length, hoffset, hlength, ho, hl, hslice⟩ := hresult.resolve_left hok
  obtain ⟨hle, hle', hload⟩ := loaded_request hb hp hstart hpos ho hl hslice
  apply triple_get_bind
  intro s'' hs''
  refine Triple.bind (triple_of_quiet (quiet_onlyIf (quiet_call _)) hb) fun _ => ?_
  -- after the first piece the helper's offset is 0, like the offset of a piece that was read
  have hoff : (if s''.streamPiece = R.startPiece then R.startPieceOffset else result.offset) =
      (R.offsetIn p : ℤ) := by
    have hread : (if s''.streamPiece = R.startPiece then R.startPieceOffset else 0) =
        (R.offsetIn p : ℤ) := offset_eq ((congrArg Transfer.streamPiece hs'').trans hp)
    by_cases hfirst : s''.streamPiece = R.startPiece
    · calc (if s''.streamPiece = R.startPiece then R.startPieceOffset else result.offset)
          = R.startPieceOffset := if_pos hfirst
        _ = R.offsetIn p := (if_pos hfirst).symm.trans hread
    · have hzero : (0 : ℤ) = R.offsetIn p := (if_neg hfirst).symm.trans hread
      calc (if s''.streamPiece = R.startPiece then R.startPieceOffset else result.offset)
          = result.offset := if_neg hfirst
        _ = R.offsetIn p := by omega
  have hsub : toInt (result.length - toInt ((R.offsetIn p : ℤ) - result.offset)) =
      (offset + length - R.offsetIn p : ℕ) := by
    have hsize := R.torrent.pieceSize_lt
    have hlt := @offsetIn_lt R p
    have hinside := hload.inside
    rw [hoffset, hlength, toInt_of_isInt (x := R.offsetIn p - offset) ⟨by omega, by omega⟩,
      toInt_of_isInt ⟨by omega, by omega⟩]
    omega
  show Triple _ (send t (if s''.streamPiece = R.startPiece then R.startPieceOffset else result.offset)
    (toInt (result.length - toInt
      ((if s''.streamPiece = R.startPiece then R.startPieceOffset else result.offset) -
        result.offset))) >>= fun _ => pure true) _ _
  rw [hoff, hsub]
  exact (triple_send hb hload).bind fun _ => triple_pure _ fun _ => id

/-- The helper is tried for the piece that is waited for. -/
theorem triple_tryUseDataHelper :
    Triple (fun s => s.transfer = x) (tryUseDataHelper R H t)
      (fun _ s => Sound R s.transfer) (Ends R) := by
  apply triple_get_bind
  rintro s rfl
  refine Triple.bind (triple_of_quiet (quiet_helped _ _) hx) fun b => ?_
  apply triple_ite
  · intro _
    exact triple_pure _ fun _ => hat.sound hx
  intro _
  apply triple_ite
  · intro _
    exact (triple_of_quiet (quiet_addPiece _ _) hx).bind fun _ => triple_pure _ fun _ => hat.sound hx
  · intro _
    exact (triple_of_quiet (quiet_call _) hx).bind fun _ => triple_retrieveAndSendPice hH hx hat ht

theorem triple_waitOrHelp :
    Triple (fun s => s.transfer = x) (waitOrHelp R H t) (fun _ s => s.transfer = x) (Ends R) := by
  apply triple_get_bind
  rintro s rfl
  apply triple_ite
  · intro _
    refine Triple.bind (triple_tryUseDataHelper hH hx hat ht) fun b => ?_
    refine Triple.bind (Q := fun _ s => Sound R s.transfer) ?_ fun _ => triple_throw _ fun _ => id
    apply (quiet_onlyIf ((quiet_sleep _).bind fun _ => quiet_modify fun _ => by rfl)).triple
    exact fun _ hs => hs.1.safe
  · intro _
    refine triple_of_quiet (quiet_onlyIf ?_) hx
    refine (quiet_asyncAddPieceData _ _).bind fun _ => (quiet_getPieceState _).bind fun _ => ?_
    exact (quiet_needDataHelp _ _).bind fun _ => quiet_onlyIf (quiet_asyncAddPieceData _ _)

theorem triple_helpFirst :
    Triple (fun s => s.transfer = x) (helpFirst R H t) (fun _ s => Sound R s.transfer) (Ends R) := by
  apply triple_get_bind
  rintro s rfl
  refine Triple.bind (triple_of_quiet (quiet_ask _) hx) fun _ => ?_
  refine Triple.bind (triple_of_quiet (quiet_modify fun _ => by rfl) hx) fun _ => ?_
  refine triple_onlyIf (fun _ => ?_) fun _ => hat.sound hx
  refine Triple.bind (triple_of_quiet (quiet_ask _) hx) fun _ => ?_
  refine triple_onlyIf (fun _ => ?_) fun _ => hat.sound hx
  exact (triple_tryUseDataHelper hH hx hat ht).bind fun _ => triple_pure _ fun _ => id

end

end HyperStreamer

namespace TorrentStreamerImpl

variable {R : Request} {t : Tick} {x : Transfer}

theorem triple_waitForPiece (hx : Sent R x) (hat : At R x) :
    Triple (fun s => s.transfer = x) (waitForPiece t) (fun _ s => s.transfer = x) (Ends R) := by
  apply triple_get_bind
  rintro s rfl
  apply triple_onlyIf
  · intro _
    refine Triple.bind (triple_of_quiet (quiet_sleep _) hx) fun _ => ?_
    refine Triple.bind (triple_of_quiet (quiet_modify fun _ => by rfl) hx) fun _ => ?_
    apply triple_throw
    exact fun _ => hat.sound hx
  · exact fun _ => id

end TorrentStreamerImpl

/-! ### One iteration -/

section

variable {R : Request} {D : Download} {k : ℕ} {t : Tick} {s₀ : State}

/-- The next byte of a request lies in a piece of the torrent. -/
theorem inTorrent_of_sound {s : State} (hs : Sound R s.transfer) (hpos : 0 < s.pending) :
    InTorrent R.torrent s := by
  obtain ⟨p, hp, -, hat⟩ := hs.2.resolve_left hpos.ne'
  have hp : s.streamPiece = p := hp
  have hpending : s.pending = R.dataLength - s.written.length := hs.1.pending_eq
  have hat : p * R.torrent.pieceSize + R.offsetIn p = R.torrentOffset + s.written.length := hat
  have hend := R.end_le
  have hsize := R.torrent.pieceSize_pos
  refine ⟨by omega, ?_⟩
  rw [hp, Torrent.pieceNum, Nat.cast_lt, Nat.lt_iff_add_one_le, Nat.le_div_iff_mul_le hsize,
    Nat.succ_mul]
  omega

theorem quiet_opening : Quiet State.transfer (opening R t) := by
  refine quiet_updateState.bind fun _ => quiet_computePieceBufferSize.bind fun _ => ?_
  exact quiet_updateIncompleteIdx.bind fun _ => quiet_pure _

section

variable {buffers : ℤ → State → Prop} [∀ n s, Decidable (buffers n s)] {wait : Prog Unit}
  {x : Transfer}

/-- The block for missing pieces is passed with the transfer as it was, past a missing piece only when
this is not the one to be sent. -/
theorem triple_pastBlock (hx : Sent R x) (hwaits : Waits wait)
    (hwait : Triple (fun s => s.transfer = x) wait (fun _ s => s.transfer = x) (Ends R)) {n : ℤ}
    {s₁ : State} (hs₁ : s₁.transfer = x) :
    Triple (fun s => s = s₁)
      (onlyIf (buffers n s₁) do
        buffering R t n
        wait)
      (fun _ s => (buffers n s₁ → s₁.streamPiece ≠ s₁.incompleteIdx) ∧ s.transfer = x) (Ends R) := by
  refine triple_ite (fun _ => ?_) fun hno => triple_pure _ fun s hs =>
    ⟨fun h => absurd h hno, hs ▸ hs₁⟩
  have hbuffering : Triple (fun s => s = s₁) (buffering R t n)
      (fun _ s => Moved State.place (fun c => ¬ c.Reads) s₁ s ∧ s.transfer = x) (Ends R) := by
    refine ((triple_of_moves (moves_buffering n)).and (triple_of_quiet (quiet_buffering n) hx)).conseq
      ?_ (fun _ _ => id) fun _ _ h => h.2
    rintro s rfl
    exact ⟨refl_of _ s, hs₁⟩
  refine hbuffering.bind fun _ => triple_of_part id ?_
  rintro s₂ ⟨hmoved, hs₂⟩
  have hpiece : s₂.streamPiece = s₁.streamPiece := congrArg (fun x => x.2.1) hmoved.part
  have hidx : s₂.incompleteIdx = s₁.incompleteIdx := congrArg (fun x => x.2.2) hmoved.part
  refine ((hwaits s₂).and hwait).conseq (fun s hs => ⟨hs, ?_⟩) (fun _ s hs => ⟨fun _ => ?_, hs.2⟩)
    fun _ _ h => h.2
  · have hs : s = s₂ := hs
    rw [hs, hs₂]
  · rw [← hpiece, ← hidx]
    exact hs.1.1

/-- An iteration keeps the position when the reads of the piece that it goes on to read are trusted. -/
theorem sound_commonIteration (hx : Sent R x) (hat : At R x) (hpos : 0 < x.pending)
    (hwaits : Waits wait)
    (hwait : Triple (fun s => s.transfer = x) wait (fun _ s => s.transfer = x) (Ends R))
    (hs₀ : s₀.transfer = x)
    (hr : ∀ n s₁, Opened R t s₀ n s₁ → (buffers n s₁ → s₁.streamPiece ≠ s₁.incompleteIdx) →
      ReadOk R.torrent {s₀.streamPiece} t) :
    Triple (fun s => s = s₀) (commonIteration R t buffers wait) (fun _ s => Sound R s.transfer)
      (Ends R) := by
  have hopening : Triple (fun s => s = s₀) (opening R t)
      (fun n s => Opened R t s₀ n s ∧ s.transfer = x) (Ends R) :=
    (triple_opening.and (triple_of_quiet quiet_opening hx)).conseq (fun _ hs => ⟨hs, hs ▸ hs₀⟩)
      (fun _ _ => id) fun _ _ h => h.2
  refine hopening.bind fun n => triple_of_part id ?_
  rintro s₁ ⟨hopen, hs₁⟩
  refine triple_get_bind (f := id) fun s hs => ?_
  obtain rfl : s = s₁ := hs
  refine (triple_pastBlock hx hwaits hwait hs₁).bind fun _ => triple_of_part State.transfer ?_
  rintro s₂ ⟨hpast, hs₂⟩
  rw [hs₂]
  have hread : ReadOk R.torrent {x.streamPiece} t := by
    rw [← hs₀]
    exact hr n s hopen hpast
  exact triple_readAndSend hx hat hpos hread

/-- The pieces whose reads are trusted in an iteration: the complete ones, and any when the length of its
window overflows. -/
def trusted (R : Request) (D : Download) (k : ℕ) (t : Tick) (s : State) : Set ℤ :=
  {p | NoOverflow R t s → p ∈ D.complete (Moment.readTorrentPiece.time k)}

/-- What holds between two iterations: the position, and what the streamer knows of the download. -/
structure Between (R : Request) (D : Download) (k : ℕ) (s : State) : Prop where
  sound : Sound R s.transfer
  knows : KnowsDone D R.torrent k s

/-- **Step lemma.** An iteration of either streamer, in which the piece that is read is complete unless
its window overflows. -/
theorem between_commonIteration (h : Between R D k s₀) (hpos : 0 < s₀.pending)
    (hD : D.Answers R.torrent k t) (hskips : Skips R buffers) (hwaits : Waits wait)
    (hwait : Sent R s₀.transfer → At R s₀.transfer →
      Triple (fun s => s.transfer = s₀.transfer) wait (fun _ s => s.transfer = s₀.transfer) (Ends R))
    (hr : s₀.streamPiece ∈ trusted R D k t s₀ → ReadOk R.torrent {s₀.streamPiece} t) :
    Triple (fun s => s = s₀) (commonIteration R t buffers wait) (fun _ => Between R D (k + 1))
      (exits (Between R D (k + 1)) fun s => Safe R s.transfer) := by
  have hat : At R s₀.transfer := h.sound.2.resolve_left fun hzero => by
    have hzero : s₀.pending = 0 := hzero
    omega
  have hsound : Triple (fun s => s = s₀) (commonIteration R t buffers wait)
      (fun _ s => Sound R s.transfer) (Ends R) :=
    sound_commonIteration h.sound.1 hat hpos hwaits (hwait h.sound.1 hat) rfl fun n s₁ hopen hpast =>
      hr fun hno => by
        refine D.grows ?_ (h.knows.mem_complete_of_past hskips hD (inTorrent_of_sound h.sound hpos) hno
          hopen hpast)
        simp only [Moment.time]
        omega
  have hmoved : Triple (fun s => s = s₀) (commonIteration R t buffers wait)
      (fun _ s => Moved (fun _ => ()) (fun _ => True) s₀ s ∧ NextState t s₀ s)
      fun e s => Moved (fun _ => ()) (fun _ => True) s₀ s ∧ (e = .again → NextState t s₀ s) :=
    triple_commonIteration hwaits (fun _ _ => trivial) fun _ _ _ _ => ⟨trivial, trivial⟩
  refine (hsound.and hmoved).conseq (fun _ hs => ⟨hs, hs⟩)
    (fun _ s hs => ⟨hs.1, (h.knows.after hD hs.2.2).succ⟩) fun e s hs => ?_
  cases e with
  | again => exact ⟨hs.1, (h.knows.after hD (hs.2.2 rfl)).succ⟩
  | leave => exact hs.1
  | threw => exact hs.1

end

end

/-! ### Whole runs -/

section

variable {R : Request} {D : Download}

theorem sent_initState : Sent R (initState R).transfer := by
  refine ⟨List.length_replicate, List.nil_prefix, ?_⟩
  show (R.dataLength : ℤ) = R.dataLength - ([] : List UInt8).length
  simp

theorem at_initState : At R (initState R).transfer := by
  refine ⟨_, R.startPiece_eq, le_rfl, ?_⟩
  show _ = R.torrentOffset + ([] : List UInt8).length
  rw [Request.offsetIn, if_pos rfl, Nat.div_add_mod']
  rfl

section

variable {buffers : ℤ → State → Prop} [∀ n s, Decidable (buffers n s)] {wait : Tick → Prog Unit}
  {prologue : Prog Unit} {ts : List Tick}

/-- What the iterations of a run are given: the answers about the download, and reads that are trusted
for complete pieces. -/
structure Given (R : Request) (D : Download) (iterations : List (Tick × State)) : Prop where
  answers : ∀ k t s, iterations[k]? = some (t, s) → D.Answers R.torrent k t
  reads : ∀ k t s, iterations[k]? = some (t, s) → s.streamPiece ∈ trusted R D k t s →
    ReadOk R.torrent {s.streamPiece} t

/-- The body of a streamer keeps what holds between two iterations. -/
theorem between_body (hskips : Skips R buffers) (hwaits : ∀ t, Waits (wait t))
    (hwait : ∀ t ∈ ts, ∀ x : Transfer, Sent R x → At R x →
      Triple (fun s => s.transfer = x) (wait t) (fun _ s => s.transfer = x) (Ends R))
    (hgiven : Given R D (runIterations R prologue (fun t => commonIteration R t buffers (wait t)) ts))
    {k : ℕ} {t : Tick} {s : State}
    (hk : (runIterations R prologue (fun t => commonIteration R t buffers (wait t)) ts)[k]? =
      some (t, s)) (hs : Between R D k s) (hgo : goesOn t s = true) :
    Triple (fun s' => s' = s) (commonIteration R t buffers (wait t)) (fun _ => Between R D (k + 1))
      (exits (Between R D (k + 1)) fun s => Safe R s.transfer) := by
  have hpos : 0 < s.pending := of_decide_eq_true (Bool.and_eq_true_iff.1 hgo).2
  have ht : t ∈ ts := List.mem_of_getElem? (input_of_runIterations hk)
  exact between_commonIteration hs hpos (hgiven.answers k t s hk) hskips (hwaits t) (hwait t ht _)
    (hgiven.reads k t s hk)

theorem between_prologue (hpro : Triple (fun s => s.transfer = (initState R).transfer) prologue
      (fun _ s => Sound R s.transfer) (Ends R))
    (hmoves : Moves (Moved State.state fun c => ¬ c.Reads) prologue) :
    Triple (fun s => s = initState R) prologue (fun _ => Between R D 0)
      fun _ s => Safe R s.transfer :=
  (hpro.and (knowsDone_prologue hmoves)).conseq (fun _ h => ⟨congrArg _ h, h⟩)
    (fun _ _ h => ⟨h.1, h.2⟩) fun _ _ h => h.1.safe

/-- **Run lemma.** A streamer is safe at every moment. -/
theorem safe_runStream
    (hpro : Triple (fun s => s.transfer = (initState R).transfer) prologue
      (fun _ s => Sound R s.transfer) (Ends R))
    (hmoves : Moves (Moved State.state fun c => ¬ c.Reads) prologue) (hskips : Skips R buffers)
    (hwaits : ∀ t, Waits (wait t))
    (hwait : ∀ t ∈ ts, ∀ x : Transfer, Sent R x → At R x →
      Triple (fun s => s.transfer = x) (wait t) (fun _ s => s.transfer = x) (Ends R))
    (hgiven : Given R D
      (runIterations R prologue (fun t => commonIteration R t buffers (wait t)) ts)) :
    Safe R (runStream R prologue (fun t => commonIteration R t buffers (wait t)) ts).transfer := by
  have hbody := @between_body R D buffers _ wait prologue ts hskips hwaits hwait hgiven
  have hstart := between_prologue (D := D) hpro hmoves _ rfl
  unfold runStream
  unfold runIterations at hbody
  cases hp : prologue (initState R) with
  | ok a s =>
    rw [hp] at hstart hbody
    exact whileLoop_keeps (I := Between R D) (J := fun s => Safe R s.transfer)
      (fun _ _ h => h.sound.1.safe) (fun k t s => hbody) hstart
  | error e s =>
    rw [hp] at hstart
    exact hstart

/-- Every iteration begins at a piece of the torrent. -/
theorem inTorrent_run
    (hpro : Triple (fun s => s.transfer = (initState R).transfer) prologue
      (fun _ s => Sound R s.transfer) (Ends R))
    (hmoves : Moves (Moved State.state fun c => ¬ c.Reads) prologue) (hskips : Skips R buffers)
    (hwaits : ∀ t, Waits (wait t))
    (hwait : ∀ t ∈ ts, ∀ x : Transfer, Sent R x → At R x →
      Triple (fun s => s.transfer = x) (wait t) (fun _ s => s.transfer = x) (Ends R))
    (hgiven : Given R D
      (runIterations R prologue (fun t => commonIteration R t buffers (wait t)) ts)) :
    ∀ x ∈ runIterations R prologue (fun t => commonIteration R t buffers (wait t)) ts,
      InTorrent R.torrent x.2 := by
  rintro ⟨t, s⟩ hx
  obtain ⟨k, hk⟩ := List.mem_iff_getElem?.1 hx
  have hstart : Triple (fun s => s = initState R) prologue (fun _ => Between R D 0)
      fun _ _ => True :=
    (between_prologue hpro hmoves).conseq (fun _ => id) (fun _ _ => id) fun _ _ _ => trivial
  obtain ⟨hs, hgo⟩ := runIterations_keeps hstart (fun k t s hk hs hgo => by
    refine (between_body hskips hwaits hwait hgiven hk hs hgo).conseq (fun _ => id) (fun _ _ => id)
      fun e s' h => ?_
    cases e with
    | again => exact h
    | leave => trivial
    | threw => trivial) hk
  exact inTorrent_of_sound hs.sound (of_decide_eq_true (Bool.and_eq_true_iff.1 hgo).2)

end

theorem TorrentStreamerImpl.sound_prologue {t₀ : Tick} :
    Triple (fun s => s.transfer = (initState R).transfer) (prologue t₀)
      (fun _ s => Sound R s.transfer) (Ends R) := by
  refine (triple_of_quiet ?_ sent_initState).conseq (fun _ => id)
    (fun _ _ => at_initState.sound sent_initState) fun _ _ => id
  exact quiet_clearDeadlines.bind fun _ => quiet_startWindow

theorem HyperStreamer.sound_prologue {c : Creation} {t₀ t₁ : Tick} (hd : DataOk R.torrent t₀) :
    Triple (fun s => s.transfer = (initState R).transfer) (prologue R (.create R.torrent c) t₀ t₁)
      (fun _ s => Sound R s.transfer) (Ends R) := by
  refine (triple_helpFirst knows_create sent_initState at_initState hd).bind fun _ => ?_
  exact (quiet_clearDeadlines.bind fun _ => quiet_startWindow).triple fun _ hs => hs.1.safe

section

variable {c : Creation} {t₀ t₁ : Tick} {ts : List Tick}

theorem safe_torrentStreamerImpl (h : Given R D (TorrentStreamerImpl.iterations R t₁ ts)) :
    Safe R (TorrentStreamerImpl.stream R t₁ ts).transfer := by
  unfold TorrentStreamerImpl.iterations at h
  unfold TorrentStreamerImpl.stream
  rw [funext (TorrentStreamerImpl.iteration_eq R)] at h ⊢
  exact safe_runStream TorrentStreamerImpl.sound_prologue TorrentStreamerImpl.moves_prologue
    TorrentStreamerImpl.skips (fun _ => TorrentStreamerImpl.waits)
    (fun t _ x hx hat => TorrentStreamerImpl.triple_waitForPiece hx hat) h

theorem safe_hyperStreamer (hd : ∀ t ∈ t₀ :: ts, DataOk R.torrent t)
    (h : Given R D (HyperStreamer.iterations R (.create R.torrent c) t₀ t₁ ts)) :
    Safe R (HyperStreamer.stream R (.create R.torrent c) t₀ t₁ ts).transfer := by
  unfold HyperStreamer.iterations at h
  unfold HyperStreamer.stream
  rw [funext (HyperStreamer.iteration_eq R (.create R.torrent c))] at h ⊢
  exact safe_runStream (HyperStreamer.sound_prologue (hd t₀ List.mem_cons_self))
    HyperStreamer.moves_prologue HyperStreamer.skips (fun _ => HyperStreamer.waits)
    (fun t ht x hx hat => HyperStreamer.triple_waitOrHelp knows_create hx hat
      (hd t (List.mem_cons_of_mem _ ht))) h

theorem inTorrent_torrentStreamerImpl (h : Given R D (TorrentStreamerImpl.iterations R t₁ ts)) :
    ∀ x ∈ TorrentStreamerImpl.iterations R t₁ ts, InTorrent R.torrent x.2 := by
  unfold TorrentStreamerImpl.iterations at h ⊢
  rw [funext (TorrentStreamerImpl.iteration_eq R)] at h ⊢
  exact inTorrent_run TorrentStreamerImpl.sound_prologue TorrentStreamerImpl.moves_prologue
    TorrentStreamerImpl.skips (fun _ => TorrentStreamerImpl.waits)
    (fun t _ x hx hat => TorrentStreamerImpl.triple_waitForPiece hx hat) h

theorem inTorrent_hyperStreamer (hd : ∀ t ∈ t₀ :: ts, DataOk R.torrent t)
    (h : Given R D (HyperStreamer.iterations R (.create R.torrent c) t₀ t₁ ts)) :
    ∀ x ∈ HyperStreamer.iterations R (.create R.torrent c) t₀ t₁ ts, InTorrent R.torrent x.2 := by
  unfold HyperStreamer.iterations at h ⊢
  rw [funext (HyperStreamer.iteration_eq R (.create R.torrent c))] at h ⊢
  exact inTorrent_run (HyperStreamer.sound_prologue (hd t₀ List.mem_cons_self))
    HyperStreamer.moves_prologue HyperStreamer.skips (fun _ => HyperStreamer.waits)
    (fun t ht x hx hat => HyperStreamer.triple_waitOrHelp knows_create hx hat
      (hd t (List.mem_cons_of_mem _ ht))) h

/-- The length of the window does not overflow in an iteration at a piece that is missing. -/
def MissingFit (R : Request) (D : Download) (iterations : List (Tick × State)) : Prop :=
  ∀ k t s, iterations[k]? = some (t, s) →
    s.streamPiece ∈ D.complete (Moment.getFirstPieceIncomplete.time k) ∨ NoOverflow R t s

theorem MissingFit.given {iterations : List (Tick × State)} (h : MissingFit R D iterations)
    (hinput : ∀ (k : ℕ) t s, iterations[k]? = some (t, s) → ts[k]? = some t)
    (hD : ∀ k t, ts[k]? = some t → D.Answers R.torrent k t)
    (hr : ∀ k t, ts[k]? = some t →
      ReadOk R.torrent (D.complete (Moment.readTorrentPiece.time k)) t) :
    Given R D iterations where
  answers k t s hk := hD k t (hinput k t s hk)
  reads k t s hk hcomplete := by
    refine (hr k t (hinput k t s hk)).mono (Set.singleton_subset_iff.2 ?_)
    rcases h k t s hk with hmem | hno
    · refine D.grows ?_ hmem
      simp only [Moment.time]
      omega
    · exact hcomplete hno

/-- **The bytes written are a prefix of the requested bytes of the item at every moment, and all of
them when nothing is pending**, for both streamers and every evolution of the download, when reads of
complete pieces give no data or the piece and no window overflows at a missing piece. -/
theorem stream_range (R : Request) (c : Creation) (D : Download)
    (hD : ∀ k t, ts[k]? = some t → D.Answers R.torrent k t)
    (hr : ∀ k t, ts[k]? = some t →
      ReadOk R.torrent (D.complete (Moment.readTorrentPiece.time k)) t)
    (hd : ∀ t ∈ t₀ :: ts, DataOk R.torrent t) :
    (MissingFit R D (TorrentStreamerImpl.iterations R t₁ ts) →
      (TorrentStreamerImpl.stream R t₁ ts).written <+:
        slice R.torrent.item R.fileOffset R.dataLength ∧
      ((TorrentStreamerImpl.stream R t₁ ts).pending = 0 →
        (TorrentStreamerImpl.stream R t₁ ts).written =
          slice R.torrent.item R.fileOffset R.dataLength)) ∧
    (MissingFit R D (HyperStreamer.iterations R (.create R.torrent c) t₀ t₁ ts) →
      (HyperStreamer.stream R (.create R.torrent c) t₀ t₁ ts).written <+:
        slice R.torrent.item R.fileOffset R.dataLength ∧
      ((HyperStreamer.stream R (.create R.torrent c) t₀ t₁ ts).pending = 0 →
        (HyperStreamer.stream R (.create R.torrent c) t₀ t₁ ts).written =
          slice R.torrent.item R.fileOffset R.dataLength)) := by
  rw [← R.range_eq]
  refine ⟨fun hfit => ?_, fun hfit => ?_⟩
  · exact safe_torrentStreamerImpl (hfit.given (fun _ _ _ => input_of_runIterations) hD hr)
  · exact safe_hyperStreamer hd (hfit.given (fun _ _ _ => input_of_runIterations) hD hr)

end

end

/-! ### A torrent of three pieces -/

/-- Three pieces of four bytes; the item begins and ends within a piece. -/
def threePieces : Torrent where
  pieceSize := 4
  itemOffset := 2
  itemSize := 9
  content := [10, 11, 12, 13, 14, 15, 16, 17, 18, 19, 20, 21]
  pieceSize_pos := by decide
  pieceSize_lt := by decide
  item_le := by decide
  content_lt := by decide
  pieces_lt := by decide

/-- An iteration in which all goes well; the piece to be sent is there if `complete`. -/
def goodTick (complete : Bool) : Tick where
  streaming := true
  currentTime := 0
  getTorrentState := some 3
  getTorrentDownloadRate := some 0
  rate := some 0
  getFirstPieceIncomplete := fun p => some (if complete then p + 1 else p)
  getPieceState := some
  getPieceStateLater := some
  getPartialPieceInfo := fun _ => some none
  readTorrentPiece := fun p =>
    some ⟨(threePieces.piece p.toNat).length, threePieces.piece p.toNat⟩
  getData := fun p offset length =>
    .done (slice threePieces.content (p.toNat * 4 + offset.toNat) length.toNat)
  helperErrors := 0
  helped := fun _ => false
  helpedLater := fun _ => false
  isSeek := false
  sleeps := true
  waits := true
  throws := fun _ => false
  sent := none

/-- The last piece is completed between the first and the second iteration. -/
def threeGrowing : Download where
  complete n := {p | p < 2 ∨ 4 ≤ n}
  grows _ _ hmn _ hp := hp.imp_right fun h => h.trans hmn

/-- An iteration in which the first `n` pieces are complete. -/
def tickWith (n : ℤ) : Tick :=
  { goodTick true with getFirstPieceIncomplete := fun p => some (max p n) }

theorem answers_tickWith {k : ℕ} {n : ℤ} (h : k = 0 ∧ n = 2 ∨ 1 ≤ k ∧ n = 3) :
    threeGrowing.Answers threePieces k (tickWith n) where
  state := by rintro (h | h) <;> cases h
  first p i h0 hp hi := by
    obtain rfl : max p n = i := Option.some.inj hi
    have hnum : (threePieces.pieceNum : ℤ) = 3 := rfl
    rw [hnum] at hp ⊢
    simp only [threeGrowing, Moment.time, Set.mem_ofPred_eq]
    refine ⟨?_, fun j hj => ?_⟩
    · simp only [Set.mem_ofPred_eq]
      omega
    · simp only [Set.mem_ofPred_eq] at hj
      omega

/-- A read of the last piece that gives no data yet. -/
def emptyRead : Tick := { tickWith 3 with readTorrentPiece := fun _ => some ⟨0, []⟩ }

/-- Seven bytes from the second byte of the item on: the first piece comes from the helper before
the loop, the others from the native layer. -/
theorem stream_range_three_pieces :
    (HyperStreamer.stream ⟨threePieces, 1, 7, by decide⟩ (.create threePieces ⟨true, true, true⟩)
      (goodTick false) (goodTick true) [tickWith 2, emptyRead, tickWith 3]).written =
        slice threePieces.item 1 7 := by
  have hread : ∀ n pieces, ReadOk threePieces pieces (tickWith n) := by
    rintro n pieces p - _ ⟨⟩
    exact Or.inr (Or.inr ⟨rfl, rfl⟩)
  have hempty : ∀ pieces, ReadOk threePieces pieces emptyRead := by
    rintro pieces p - _ ⟨⟩
    exact Or.inr (Or.inl rfl)
  have hD : ∀ k t, [tickWith 2, emptyRead, tickWith 3][k]? = some t →
      threeGrowing.Answers threePieces k t := by
    intro k t hk
    match k, hk with
    | 0, rfl => exact answers_tickWith (by decide)
    | 1, rfl =>
      have hanswers := @answers_tickWith 1 3 (by decide)
      exact ⟨hanswers.state, hanswers.first⟩
    | 2, rfl => exact answers_tickWith (by decide)
  have hr : ∀ k t, [tickWith 2, emptyRead, tickWith 3][k]? = some t →
      ReadOk threePieces (threeGrowing.complete (Moment.readTorrentPiece.time k)) t := by
    intro k t hk
    match k, hk with
    | 0, rfl => exact hread 2 _
    | 1, rfl => exact hempty _
    | 2, rfl => exact hread 3 _
  have hd : ∀ t ∈ [goodTick false, tickWith 2, emptyRead, tickWith 3], DataOk threePieces t := by
    have hdata : ∀ t : Tick, t.getData = (goodTick true).getData → DataOk threePieces t := by
      intro t ht p offset length data h
      rw [ht] at h
      cases h
      rfl
    intro t ht
    fin_cases ht <;> exact hdata _ rfl
  refine ((stream_range ⟨threePieces, 1, 7, by decide⟩ ⟨true, true, true⟩ threeGrowing hD hr hd).2
    fun k t s hk => Or.inr fun n hn => ?_).2 (by decide +kernel)
  have hsmall : ∀ x ∈ HyperStreamer.iterations ⟨threePieces, 1, 7, by decide⟩
      (.create threePieces ⟨true, true, true⟩) (goodTick false) (goodTick true)
        [tickWith 2, emptyRead, tickWith 3],
      bufferSize ⟨threePieces, 1, 7, by decide⟩ x.1 = some 5 ∧ x.2.streamPiece ≤ 2 := by
    decide +kernel
  obtain ⟨hsize, hpiece⟩ := hsmall _ (List.mem_of_getElem? hk)
  obtain rfl : 5 = n := Option.some.inj (hsize.symm.trans hn)
  exact (add_le_add_left hpiece 5).trans (by decide)

/-! ### A window of almost `Integer.MAX_VALUE` pieces -/

/-- A torrent of `n` pieces of one byte. -/
def smallPieces (n : ℕ) (h : n < 2 ^ 31) : Torrent where
  pieceSize := 1
  itemOffset := 0
  itemSize := n
  content := List.replicate n 0
  pieceSize_pos := Nat.one_pos
  pieceSize_lt := by norm_num
  item_le := by rw [List.length_replicate, Nat.zero_add]
  content_lt := by
    rw [List.length_replicate]
    omega
  pieces_lt := by
    rw [List.length_replicate, Nat.add_sub_cancel, Nat.div_one]
    exact h

/-- Ten pieces of one byte. -/
def tenSmallPieces : Torrent := smallPieces 10 (by norm_num)

/-- Ten pieces, of which the piece 8 is never completed. -/
def withoutEighth : Download where
  complete _ := {p | 0 ≤ p ∧ p < 10 ∧ p ≠ 8}
  grows _ _ _ _ := id

/-- An iteration in which the piece 8 is missing; what the native layer has in its place is read. -/
def eighthMissing (rate : ℤ) : Tick :=
  { goodTick true with
    rate := some rate
    getTorrentDownloadRate := some 29826162
    getFirstPieceIncomplete := fun p => some (if p ≤ 8 then 8 else 10)
    getPieceState := fun xs => memcpy xs [0xff, 0x40] 1 1
    readTorrentPiece := fun p => some ⟨1, [if p = 8 then 1 else 0]⟩ }

theorem answers_eighthMissing (k : ℕ) (rate : ℤ) :
    withoutEighth.Answers tenSmallPieces k (eighthMissing rate) where
  state := by rintro (h | h) <;> cases h
  first p i h0 hp hi := by
    obtain rfl : (if p ≤ 8 then 8 else 10) = i := Option.some.inj hi
    have hnum : (tenSmallPieces.pieceNum : ℤ) = 10 := rfl
    rw [hnum] at hp ⊢
    simp only [withoutEighth, Set.mem_ofPred_eq]
    refine ⟨?_, fun j hj => ?_⟩
    · simp only [Set.mem_ofPred_eq]
      split_ifs <;> omega
    · simp only [Set.mem_ofPred_eq] at hj
      split_ifs <;> omega

theorem readOk_eighthMissing (k : ℕ) (rate : ℤ) :
    ReadOk tenSmallPieces (withoutEighth.complete k) (eighthMissing rate) := by
  rintro p ⟨-, hlt, hne⟩ _ ⟨⟩
  refine Or.inr (Or.inr ?_)
  have hp : p < 10 := by omega
  interval_cases p <;> first | exact absurd rfl hne | exact ⟨rfl, rfl⟩

/-- The first iteration waits for the piece 8.  In the second one `streamPiece + PIECE_BUFFER_SIZE`
wraps, the block is passed by, and the missing piece is read and sent. -/
theorem stream_range_overflow :
    (∀ k t, [eighthMissing 0, eighthMissing 35791394][k]? = some t →
      withoutEighth.Answers tenSmallPieces k t ∧
        ReadOk tenSmallPieces
          (withoutEighth.complete (Moment.readTorrentPiece.time k)) t) ∧
    (TorrentStreamerImpl.stream ⟨tenSmallPieces, 8, 1, by decide⟩ (eighthMissing 0)
        [eighthMissing 0, eighthMissing 35791394]).written = [1] ∧
    ¬ (TorrentStreamerImpl.stream ⟨tenSmallPieces, 8, 1, by decide⟩ (eighthMissing 0)
        [eighthMissing 0, eighthMissing 35791394]).written <+:
      slice tenSmallPieces.item 8 1 := by
  have hwritten : (TorrentStreamerImpl.stream ⟨tenSmallPieces, 8, 1, by decide⟩
      (eighthMissing 0) [eighthMissing 0, eighthMissing 35791394]).written = [1] := by
    decide +kernel
  refine ⟨fun k t hk => ?_, hwritten, ?_⟩
  · match k, hk with
    | 0, rfl => exact ⟨answers_eighthMissing 0 _, readOk_eighthMissing _ _⟩
    | 1, rfl => exact ⟨answers_eighthMissing 1 _, readOk_eighthMissing _ _⟩
  · rw [hwritten]
    decide +kernel

end P2Player.Stream
