import P2Player.Stream.Quiet

/-!
# What is streamed is the requested range

A piece reaches the socket from the native layer or from the data helper.  Both put bytes of the
torrent into the buffer at their place in the piece, and `send` takes them from the current
position on.

* `Sent`, `At`: what was written is the beginning of the range, and `streamPiece` is the piece of
  the position behind it;
* `triple_send`: sending keeps this when the buffer is `Loaded` from the position on;
* `loaded_read`, `loaded_request`: the two sources load the buffer;
* `stream_prefix`: the bytes written by either streamer.
-/

namespace P2Player.Stream

open Java Program

/-- A read of one of the pieces gives no data or the content of the piece. -/
def ReadOk (T : Torrent) (pieces : Set ℤ) (t : Tick) : Prop :=
  ∀ p : ℕ, (p : ℤ) ∈ pieces → ∀ r, t.readTorrentPiece p = some r →
    r.len = -1 ∨ r.len = 0 ∨ (r.len = (T.piece p).length ∧ r.data = T.piece p)

theorem ReadOk.mono {T : Torrent} {pieces pieces' : Set ℤ} {t : Tick} (h : ReadOk T pieces' t)
    (hsub : pieces ⊆ pieces') : ReadOk T pieces t :=
  fun p hp => h p (hsub hp)

/-- When the server has sent data, it is what was asked for. -/
def DataOk (T : Torrent) (t : Tick) : Prop :=
  ∀ (p offset length : ℕ) data, t.getData p offset length = .done data →
    data = slice T.content (p * T.pieceSize + offset) length

/-- What was written is the beginning of the range, and `pending` counts the rest. -/
structure Sent (R : Request) (x : Transfer) : Prop where
  buff_length : x.buff.length = R.torrent.pieceSize
  written_prefix : x.written <+: R.range
  pending_eq : x.pending = R.dataLength - x.written.length

/-- Where the request begins in a piece. -/
def Request.offsetIn (R : Request) (p : ℕ) : ℕ :=
  if p = R.torrentOffset / R.torrent.pieceSize then R.torrentOffset % R.torrent.pieceSize else 0

/-- The stream is in the piece of the next byte. -/
def At (R : Request) (x : Transfer) : Prop :=
  ∃ p : ℕ, x.streamPiece = p ∧ R.torrentOffset / R.torrent.pieceSize ≤ p ∧
    p * R.torrent.pieceSize + R.offsetIn p = R.torrentOffset + x.written.length

/-- What holds between two iterations. -/
def Sound (R : Request) (x : Transfer) : Prop := Sent R x ∧ (x.pending = 0 ∨ At R x)

/-- What holds at every moment. -/
def Safe (R : Request) (x : Transfer) : Prop :=
  x.written <+: R.range ∧ (x.pending = 0 → x.written = R.range)

/-- How an iteration may be left. -/
def Ends (R : Request) : Exit → State → Prop :=
  exits (fun s => Sound R s.transfer) fun s => Safe R s.transfer

section

variable {R : Request} {H : Helper} {t : Tick} {x : Transfer}

theorem Sent.length_le (hx : Sent R x) : x.written.length ≤ R.dataLength :=
  hx.written_prefix.length_le.trans R.length_range.le

theorem Sent.safe (hx : Sent R x) : Safe R x := by
  refine ⟨hx.written_prefix, fun hp => hx.written_prefix.eq_of_length ?_⟩
  have hpending := hx.pending_eq
  rw [R.length_range]
  omega

theorem Sent.ends (hx : Sent R x) {s : State} (hs : s.transfer = x) : Ends R .threw s := by
  show Safe R s.transfer
  rw [hs]; exact hx.safe

theorem At.sound (hat : At R x) (hx : Sent R x) {s : State} (hs : s.transfer = x) :
    Sound R s.transfer := by
  rw [hs]
  exact ⟨hx, Or.inr hat⟩

theorem Ends.safe {e : Exit} {s : State} (h : Ends R e s) : Safe R s.transfer := by
  cases e with
  | again => exact h.1.safe
  | leave => exact h
  | threw => exact h

/-- Bookkeeping keeps the transfer. -/
theorem triple_of_quiet {α : Type} {m : Prog α} (h : Quiet State.transfer m) (hx : Sent R x) :
    Triple (fun s => s.transfer = x) m (fun _ s => s.transfer = x) (Ends R) :=
  h.triple (I := fun y => y = x) fun _ hs => hx.ends hs

/-! ### Sending from a loaded buffer -/

/-- The buffer has the `len` bytes from the position on at `offset`, and these reach the end of the
piece or of the request. -/
structure Loaded (R : Request) (x : Transfer) (offset len : ℕ) : Prop where
  inside : offset + len ≤ R.torrent.pieceSize
  bytes : slice x.buff offset len =
    slice R.torrent.content (R.torrentOffset + x.written.length) len
  upto : (∃ p : ℕ, x.streamPiece = p ∧ R.torrentOffset / R.torrent.pieceSize ≤ p ∧
    R.torrentOffset + x.written.length + len = (p + 1) * R.torrent.pieceSize) ∨ x.pending ≤ len

theorem Sent.append_prefix (hx : Sent R x) {len : ℕ} (hlen : len ≤ x.pending) :
    x.written ++ slice R.torrent.content (R.torrentOffset + x.written.length) len <+: R.range := by
  have hpending := hx.pending_eq
  exact append_slice_prefix hx.written_prefix (by omega)

theorem triple_writeBytes (hx : Sent R x) {len : ℕ} (hlen : len ≤ x.pending) {bytes : List UInt8}
    (hbytes : bytes = slice R.torrent.content (R.torrentOffset + x.written.length) len) :
    Triple (fun s => s.transfer = x) (writeBytes t bytes)
      (fun _ s => s.transfer = { x with written := x.written ++ bytes }) (Ends R) := by
  have hall := hx.append_prefix hlen
  rw [← hbytes] at hall
  unfold writeBytes
  cases t.sent with
  | none =>
    apply triple_modify
    rintro s rfl
    rfl
  | some k =>
    refine Triple.bind (Q := fun _ s => Safe R s.transfer) (triple_modify _ ?_) fun _ =>
      triple_throw _ fun _ => id
    rintro s rfl
    constructor
    · exact ((List.prefix_append_right_inj _).2 (List.take_prefix _ _)).trans hall
    · intro hp
      -- nothing was left to be written
      have hp : s.transfer.pending = 0 := hp
      have hzero : len = 0 := by omega
      show s.transfer.written ++ bytes.take k = R.range
      rw [hbytes, hzero, slice_zero, List.take_nil, List.append_nil]
      exact hx.safe.2 hp

theorem triple_writeData (hx : Sent R x) {offset len : ℕ} (hlen : len ≤ x.pending)
    (hbytes : slice x.buff offset len =
      slice R.torrent.content (R.torrentOffset + x.written.length) len) :
    Triple (fun s => s.transfer = x) (writeData t offset len)
      (fun _ s => s.transfer = { x with
        written := x.written ++ slice x.buff offset len }) (Ends R) := by
  apply triple_get_bind
  rintro s rfl
  apply triple_ite
  · intro _
    exact triple_writeBytes hx hlen hbytes
  · intro _
    exact triple_throw _ fun _ hs => hx.ends hs

/-- The next position of a streamer is in the next piece, or the request is done. -/
theorem triple_send (hx : Sent R x) {offset len : ℕ} (hl : Loaded R x offset len) :
    Triple (fun s => s.transfer = x) (send t offset len) (fun _ s => Sound R s.transfer) (Ends R) := by
  have hpending := hx.pending_eq
  have hwle := hx.length_le
  have hend := R.end_le
  have hsize := R.torrent.pieceSize_lt
  have hinside := hl.inside
  apply triple_get_bind
  intro s hs
  subst hs
  -- the number of bytes that are sent
  set n := min len s.pending.toNat with hn
  have hpend : s.pending = R.dataLength - s.written.length := hpending
  have hwle : s.written.length ≤ R.dataLength := hwle
  have hlen : (if s.pending < (len : ℤ) then toInt s.pending else (len : ℤ)) = (n : ℕ) := by
    split_ifs with hlt
    · rw [toInt_of_isInt ⟨by omega, by omega⟩]; omega
    · omega
  have hnbytes : slice s.buff offset n =
      slice R.torrent.content (R.torrentOffset + s.written.length) n := by
    have hbytes := congrArg (List.take n) hl.bytes
    rwa [take_slice _ _ (by omega), take_slice _ _ (by omega)] at hbytes
  show Triple _ (writeData t offset (if s.pending < (len : ℤ) then toInt s.pending else (len : ℤ)) >>=
    fun _ => modify fun s' => { s' with
      pending := s'.pending - (if s.pending < (len : ℤ) then toInt s.pending else (len : ℤ))
      streamPiece := toInt (s'.streamPiece + 1) }) _ _
  rw [hlen]
  refine Triple.bind (triple_writeData hx (show (n : ℤ) ≤ s.pending by omega) hnbytes) fun _ =>
    triple_modify _ ?_
  intro s' hs'
  have hpend' : s'.pending = s.pending := congrArg Transfer.pending hs'
  have hpiece' : s'.streamPiece = s.streamPiece := congrArg Transfer.streamPiece hs'
  have hbuff' : s'.buff = s.buff := congrArg Transfer.buff hs'
  have hwritten' : s'.written = s.written ++ slice s.buff offset n := congrArg Transfer.written hs'
  rw [hnbytes] at hwritten'
  have hnlen : s'.written.length = s.written.length + n := by
    rw [hwritten', List.length_append, length_slice_of_le (by omega)]
  refine ⟨⟨?_, ?_, ?_⟩, ?_⟩
  · show s'.buff.length = _
    rw [hbuff']; exact hx.buff_length
  · show s'.written <+: _
    rw [hwritten']; exact hx.append_prefix (show (n : ℤ) ≤ s.pending by omega)
  · show s'.pending - n = R.dataLength - s'.written.length
    rw [hnlen]; omega
  · show s'.pending - n = 0 ∨ _
    by_cases hall : s.pending ≤ len
    · exact Or.inl (by omega)
    · obtain ⟨p, hp, hstart, hnext⟩ := hl.upto.resolve_right hall
      have hp : s.streamPiece = p := hp
      have hnext : R.torrentOffset + s.written.length + len = (p + 1) * R.torrent.pieceSize := hnext
      -- the next piece begins before the end of the request
      have hlt : p + 1 < 2 ^ 31 := by
        have hdiv := R.torrent.div_le_pieceNum (show (p + 1) * R.torrent.pieceSize ≤ _ by omega)
        rw [Nat.mul_div_cancel _ R.torrent.pieceSize_pos] at hdiv
        exact hdiv.trans_lt R.torrent.pieces_lt
      refine Or.inr ⟨p + 1, ?_, by omega, ?_⟩
      · show toInt (s'.streamPiece + 1) = _
        rw [hpiece', hp, toInt_of_isInt ⟨by omega, by omega⟩]
        rfl
      · show _ = R.torrentOffset + s'.written.length
        rw [Request.offsetIn, if_neg (by omega), hnlen]
        omega

/-! ### A piece from the native layer -/

theorem length_piece (T : Torrent) (p : ℕ) :
    (T.piece p).length = min T.pieceSize (T.content.length - p * T.pieceSize) := length_slice ..

/-- The offset that both streamers compute for the first piece. -/
theorem offset_eq {streamPiece : ℤ} {p : ℕ} (hp : streamPiece = p) :
    (if streamPiece = R.startPiece then R.startPieceOffset else 0) = (R.offsetIn p : ℤ) := by
  rw [hp, R.startPiece_eq, R.startPieceOffset_eq, Request.offsetIn]
  by_cases h : p = R.torrentOffset / R.torrent.pieceSize
  · rw [if_pos (congrArg Nat.cast h), if_pos h]
  · rw [if_neg fun hcast => h (Int.ofNat_inj.1 hcast), if_neg h]; rfl

theorem offsetIn_lt (p : ℕ) : R.offsetIn p < R.torrent.pieceSize := by
  have hpos := R.torrent.pieceSize_pos
  unfold Request.offsetIn
  split_ifs
  · exact Nat.mod_lt _ hpos
  · exact hpos

/-- A piece that was read loads the buffer. -/
theorem loaded_read (hx : Sent R x) (hpos : 0 < x.pending) {p : ℕ} (hp : x.streamPiece = p)
    (hstart : R.torrentOffset / R.torrent.pieceSize ≤ p)
    (hat : p * R.torrent.pieceSize + R.offsetIn p = R.torrentOffset + x.written.length)
    (hbuff : slice x.buff 0 (R.torrent.piece p).length = R.torrent.piece p) :
    R.offsetIn p ≤ (R.torrent.piece p).length ∧
      Loaded R x (R.offsetIn p) ((R.torrent.piece p).length - R.offsetIn p) := by
  have hpending := hx.pending_eq
  have hend := R.end_le
  have hoff := @offsetIn_lt R p
  have hlen := length_piece R.torrent p
  have hsucc : (p + 1) * R.torrent.pieceSize = p * R.torrent.pieceSize + R.torrent.pieceSize :=
    Nat.succ_mul ..
  have hle : R.offsetIn p ≤ (R.torrent.piece p).length := by omega
  refine ⟨hle, by omega, ?_, ?_⟩
  · calc slice x.buff (R.offsetIn p) ((R.torrent.piece p).length - R.offsetIn p)
        = slice (slice x.buff 0 (R.torrent.piece p).length) (R.offsetIn p)
            ((R.torrent.piece p).length - R.offsetIn p) := by
          rw [slice_slice _ _ _ (by omega), Nat.zero_add]
      _ = slice (R.torrent.piece p) (R.offsetIn p)
            ((R.torrent.piece p).length - R.offsetIn p) := by rw [hbuff]
      _ = slice R.torrent.content (p * R.torrent.pieceSize + R.offsetIn p)
            ((R.torrent.piece p).length - R.offsetIn p) := slice_slice _ _ _ (by omega)
      _ = _ := by rw [hat]
  · by_cases hfull : (R.torrent.piece p).length = R.torrent.pieceSize
    · exact Or.inl ⟨p, hp, hstart, by omega⟩
    · exact Or.inr (by omega)

theorem triple_fill {offset : ℕ} {data : List UInt8} (hx : Sent R x) :
    Triple (fun s => s.transfer = x) (fill offset data)
      (fun _ s => offset + data.length ≤ x.buff.length ∧
        s.transfer = { x with buff := overwrite x.buff offset data }) (Ends R) := by
  apply triple_get_bind
  rintro s rfl
  apply triple_ite
  · rintro ⟨-, hle⟩
    apply triple_modify
    intro s' hs'
    refine ⟨by exact_mod_cast hle, ?_⟩
    rw [← hs']
    rfl
  · intro _
    exact triple_throw _ fun _ hs => hx.ends hs

/-- The buffer is changed, and nothing else of the transfer. -/
theorem Sent.fill (hx : Sent R x) {offset : ℕ} {data : List UInt8}
    (hle : offset + data.length ≤ x.buff.length) :
    Sent R { x with buff := overwrite x.buff offset data } :=
  ⟨(length_overwrite hle).trans hx.buff_length, hx.written_prefix, hx.pending_eq⟩

/-- A read leaves the piece at the front of the buffer, if it gives any data. -/
theorem triple_readTorrentPiece (hx : Sent R x) {p : ℕ} (hp : x.streamPiece = p)
    (ht : ReadOk R.torrent {x.streamPiece} t) :
    Triple (fun s => s.transfer = x) (readTorrentPiece t)
      (fun len s => ∃ b, s.transfer = { x with buff := b } ∧ Sent R { x with buff := b } ∧
        (len = -1 ∨ len = 0 ∨ (len = (R.torrent.piece p).length ∧
          slice b 0 (R.torrent.piece p).length = R.torrent.piece p))) (Ends R) := by
  apply triple_get_bind
  rintro s rfl
  refine Triple.bind (triple_of_quiet (quiet_call _) hx) fun _ => ?_
  refine Triple.bind (triple_ask (Q := fun r s' => t.readTorrentPiece s.streamPiece = some r ∧
    s'.transfer = s.transfer) _ (fun r s' hr hs' => ⟨hr, hs'⟩) fun s' hs' => hx.ends hs') fun r => ?_
  apply triple_of_part State.transfer
  rintro s' ⟨hr, hs'⟩
  rw [hs']
  refine Triple.bind (@triple_fill R _ 0 r.data hx) fun _ => ?_
  apply triple_pure
  rintro s'' ⟨hle, hs''⟩
  refine ⟨_, hs'', hx.fill hle, ?_⟩
  have hpiece : s.streamPiece = p := hp
  rw [hpiece] at hr
  refine (ht p (hp ▸ rfl) r hr).imp_right (Or.imp_right fun ⟨hlen, hdata⟩ => ⟨hlen, ?_⟩)
  rw [← hdata]
  calc slice (overwrite s.transfer.buff 0 r.data) 0 r.data.length
      = slice r.data 0 r.data.length := @slice_overwrite _ _ _ 0 hle 0 _ (by omega)
    _ = r.data := List.take_length

/-- The end of an iteration sends a piece, or leaves the position alone. -/
theorem triple_readAndSend (hx : Sent R x) (hat : At R x) (hpos : 0 < x.pending)
    (ht : ReadOk R.torrent {x.streamPiece} t) :
    Triple (fun s => s.transfer = x) (readAndSend R t) (fun _ s => Sound R s.transfer) (Ends R) := by
  obtain ⟨p, hp, hstart, hpos'⟩ := hat
  refine Triple.bind (triple_of_quiet (quiet_modify fun _ => by rfl) hx) fun _ => ?_
  refine Triple.bind (triple_of_quiet quiet_setReadPiece hx) fun _ => ?_
  refine Triple.bind (triple_readTorrentPiece hx hp ht) fun len => ?_
  apply triple_of_part State.transfer
  rintro s ⟨b, hs, hb, hlen⟩
  rw [hs]
  apply triple_ite
  · intro _
    apply triple_throw
    intro s' hs'
    show Safe R s'.transfer
    rw [hs']
    exact hb.safe
  intro hne
  apply triple_ite
  · intro _
    refine Triple.bind (triple_of_quiet (quiet_sleep _) hb) fun _ => ?_
    have hat' : At R { x with buff := b } := ⟨p, hp, hstart, hpos'⟩
    exact triple_throw _ fun _ => hat'.sound hb
  intro hne'
  apply triple_get_bind
  intro s' hs'
  obtain ⟨hlen, hslice⟩ := (hlen.resolve_left hne).resolve_left hne'
  obtain ⟨hle, hload⟩ := loaded_read hb hpos hp hstart hpos' hslice
  have hoff : (if s'.streamPiece = R.startPiece then R.startPieceOffset else 0) =
      (R.offsetIn p : ℤ) := offset_eq ((congrArg Transfer.streamPiece hs').trans hp)
  have hsub : toInt (len - (R.offsetIn p : ℤ)) = ((R.torrent.piece p).length - R.offsetIn p : ℕ) := by
    have hlength := length_piece R.torrent p
    have hsize := R.torrent.pieceSize_lt
    rw [hlen, toInt_of_isInt ⟨by omega, by omega⟩]
    omega
  show Triple _ (send t (if s'.streamPiece = R.startPiece then R.startPieceOffset else 0)
    (toInt (len - if s'.streamPiece = R.startPiece then R.startPieceOffset else 0))) _ _
  rw [hoff, hsub]
  exact triple_send hb hload

end

end P2Player.Stream
