import P2Player.Lib.Framing
import P2Player.Stream.HyperStreamer

/-!
# The connection to the helper server

`DataConnector.getData` sends a request and reads the answer into the array of its caller.  The
length of the payload is the one that the server announces.  `MdDataHelper` connects again after an
`IOException`, and only then.

* `messages`: the answers of a server;
* `getData`, `afterwards`: one call, and the connection after it;
* `Right`: the array has the payload, and the next answer is read from a boundary;
* `AsAsked`: the server announces what was asked for;
* `everyCall_right_iff`: the runs in which every call is right.

Another length, in the array, fills another part of it.  A length that does not fit makes `readFully`
throw an `IndexOutOfBoundsException`, and the payload is left on the connection.
-/

namespace P2Player.Stream.DataConnector

open Java Framing Computability

/-- `STATUS_GET_DATA`. -/
def statusGetData : UInt8 := 4

/-- `readInt`: the `int` of four bytes. -/
@[irreducible] def intOf (a b c d : UInt8) : ℤ :=
  toInt (a.toNat * 2 ^ 24 + b.toNat * 2 ^ 16 + c.toNat * 2 ^ 8 + d.toNat)

/-- The answers: a status without payload, or `STATUS_GET_DATA`, the length of the payload and the
payload. -/
def messages : Language UInt8 :=
  {m | (∃ status, status ≠ statusGetData ∧ m = [status]) ∨
    ∃ a b c d payload, payload.length = (intOf a b c d).toNat ∧
      m = statusGetData :: a :: b :: c :: d :: payload}

/-! ### A call -/

/-- The socket with its streams: what has been read since it was connected, what is still to come, and
whether requests can be written. -/
structure Wire where
  read : List UInt8 := []
  rest : List UInt8
  live : Bool := true

/-- The next `n` bytes are read. -/
def Wire.advance (n : ℕ) (w : Wire) : Wire :=
  { w with read := w.read ++ w.rest.take n, rest := w.rest.drop n }

/-- A call of `getData`, with whether the request can be written, and, if a new connection can be made,
with its bytes behind the answer to `init`. -/
structure Call where
  pieceOffset : ℤ
  length : ℤ
  data : List UInt8
  written : Bool
  reconnected : Option (List UInt8)

/-- How a call ends. -/
inductive Outcome
  | returned (result : Bool)
  | ioException
  | indexOutOfBounds
  deriving DecidableEq

/-- What a call leaves behind. -/
structure Answer where
  outcome : Outcome
  data : List UInt8
  wire : Wire

/-- `readFully(data, off, len)` of a `DataInputStream` over a `BufferedInputStream`, which checks the
range before it reads. -/
def readFully (data : List UInt8) (off len : ℤ) (w : Wire) : Answer :=
  if len < 0 then ⟨.indexOutOfBounds, data, w⟩
  else if len = 0 then ⟨.returned true, data, w⟩
  else if off < 0 ∨ data.length < off + len then ⟨.indexOutOfBounds, data, w⟩
  else
    let outcome := if w.rest.length < len then .ioException else .returned true
    ⟨outcome, overwrite data off.toNat (w.rest.take len.toNat), w.advance len.toNat⟩

/-- `getData(pieceIdx, pieceOffset, length, data)`. -/
def getData (call : Call) (w : Wire) : Answer :=
  if w.live = false ∨ call.written = false then ⟨.ioException, call.data, w⟩
  else
    match w.rest with
    | [] => ⟨.ioException, call.data, w⟩
    | status :: rest =>
      if status = statusGetData then
        match rest with
        | a :: b :: c :: d :: _ =>
          readFully call.data call.pieceOffset (intOf a b c d) (w.advance 5)
        | _ => ⟨.ioException, call.data, w.advance w.rest.length⟩
      else ⟨.returned false, call.data, w.advance 1⟩

/-- `reconnect(true)`: without a new connection the socket stays closed. -/
def reconnect : Option (List UInt8) → Wire → Wire
  | some stream, _ => { rest := stream }
  | none, w => { w with live := false }

/-- The connection after a call of `retrievePiece` or `getPieceRemain`, which catch `IOException`s. -/
def afterwards (call : Call) (w : Wire) : Wire :=
  match (getData call w).outcome with
  | .ioException => reconnect call.reconnected (getData call w).wire
  | _ => (getData call w).wire

/-! ### What is right, and when -/

/-- `data'` has the payload in `[pieceOffset, pieceOffset + length)` and is like `data` elsewhere. -/
structure Filled (call : Call) (payload data' : List UInt8) : Prop where
  length_eq : payload.length = call.length.toNat
  getElem?_eq : ∀ i : ℕ, data'[i]? =
    if call.pieceOffset ≤ i ∧ i < call.pieceOffset + call.length then
      payload[(i - call.pieceOffset).toNat]?
    else call.data[i]?

/-- The connection cannot be used, or an answer begins with the next byte. -/
def Wire.AtBoundary (w : Wire) : Prop := w.live = true → w.read ∈ messages∗

/-- An answer is read from its beginning; true is returned only if the payload is in its place; and
the next answer will be read from its beginning. -/
structure Right (call : Call) (w : Wire) : Prop where
  begins : w.AtBoundary
  filled : (getData call w).outcome = .returned true → ∃ header payload, header.length = 5 ∧
    (getData call w).wire.read = w.read ++ header ++ payload ∧
    Filled call payload (getData call w).data
  resumes : (afterwards call w).AtBoundary

/-- A payload is announced with the length that was asked for, in the array; or it is in the array
and is cut short; or the length is negative. -/
def AsAsked (call : Call) (w : Wire) : Prop :=
  w.live = true → call.written = true → ∀ a b c d payload,
    w.rest = statusGetData :: a :: b :: c :: d :: payload →
      intOf a b c d < 0 ∨ (intOf a b c d = 0 ∧ call.length ≤ 0) ∨
        (0 < intOf a b c d ∧ 0 ≤ call.pieceOffset ∧
          call.pieceOffset + intOf a b c d ≤ call.data.length ∧
          (intOf a b c d = call.length ∨ payload.length < intOf a b c d))

/-- A property of all calls of a run. -/
def EveryCall (P : Call → Wire → Prop) : List Call → Wire → Prop
  | [], _ => True
  | call :: calls, w => P call w ∧ EveryCall P calls (afterwards call w)

/-! ### Messages -/

theorem status_mem_messages {status : UInt8} (h : status ≠ statusGetData) : [status] ∈ messages :=
  Or.inl ⟨status, h, rfl⟩

theorem data_mem_messages {a b c d : UInt8} {payload : List UInt8}
    (h : payload.length = (intOf a b c d).toNat) :
    statusGetData :: a :: b :: c :: d :: payload ∈ messages :=
  Or.inr ⟨a, b, c, d, payload, h, rfl⟩

/-- The length of an answer is known before its end. -/
theorem delimited_messages : Delimited messages := by
  constructor
  · rintro (⟨status, -, h⟩ | ⟨a, b, c, d, payload, -, h⟩) <;> cases h
  · rintro m (⟨status, hne, rfl⟩ | ⟨a, b, c, d, payload, hlen, rfl⟩) m'
      (⟨status', hne', rfl⟩ | ⟨a', b', c', d', payload', hlen', rfl⟩) hpre
    · obtain ⟨rfl, -⟩ := List.cons_prefix_cons.1 hpre
      rfl
    · obtain ⟨rfl, -⟩ := List.cons_prefix_cons.1 hpre
      exact absurd rfl hne
    · obtain ⟨rfl, -⟩ := List.cons_prefix_cons.1 hpre
      exact absurd rfl hne'
    · simp only [List.cons_prefix_cons] at hpre
      obtain ⟨-, rfl, rfl, rfl, rfl, hpre⟩ := hpre
      rw [hpre.eq_of_length (hlen.trans hlen'.symm)]

/-- Behind the length there is no boundary when a payload follows. -/
theorem header_notMem_kstar {a b c d : UInt8} (h : 0 < intOf a b c d) :
    [statusGetData, a, b, c, d] ∉ messages∗ := by
  obtain ⟨n, hn⟩ : ∃ n, (intOf a b c d).toNat = n := ⟨_, rfl⟩
  have hpos : 0 < n := by omega
  have hm := @data_mem_messages a b c d (List.replicate n 0) (by rw [List.length_replicate, hn])
  refine delimited_messages.notMem_kstar_of_prefix hm ?_ (by simp) ?_
  · simp only [List.cons_prefix_cons, List.nil_prefix, and_self]
  · intro heq
    have hlen := congrArg List.length heq
    simp only [List.length_cons, List.length_nil, List.length_replicate] at hlen
    omega

/-! ### One call -/

section

variable {call : Call} {w : Wire}

theorem afterwards_of_ioException (h : (getData call w).outcome = .ioException) :
    (afterwards call w).AtBoundary := by
  unfold afterwards
  rw [h]
  cases call.reconnected with
  | some stream => exact fun _ => Language.nil_mem_kstar messages
  | none => exact fun hlive => by cases hlive

/-- After an `IOException` nothing is promised of the array, and the connection is a new one. -/
theorem right_of_ioException (hw : w.AtBoundary) (h : (getData call w).outcome = .ioException) :
    Right call w :=
  ⟨hw, fun htrue => (by rw [h] at htrue; cases htrue), afterwards_of_ioException h⟩

/-- Without an `IOException` the bytes that were read are kept. -/
theorem afterwards_eq {b : Bool} (h : (getData call w).outcome = .returned b ∨
    (getData call w).outcome = .indexOutOfBounds) : afterwards call w = (getData call w).wire := by
  unfold afterwards
  rcases h with h | h <;> rw [h]

theorem advance_read (n : ℕ) : (w.advance n).read = w.read ++ w.rest.take n := rfl

/-- The four bytes behind `STATUS_GET_DATA`. -/
theorem getData_header {a b c d : UInt8} {payload : List UInt8} (hlive : w.live = true)
    (hwritten : call.written = true)
    (hrest : w.rest = statusGetData :: a :: b :: c :: d :: payload) :
    getData call w = readFully call.data call.pieceOffset (intOf a b c d) (w.advance 5) := by
  unfold getData
  rw [if_neg (by simp [hlive, hwritten]), hrest]
  simp only [if_true]

/-- The payload is what was read behind the header. -/
theorem filled_iff {data' read header payload : List UInt8} (hheader : header.length = 5)
    (hread : read = w.read ++ header ++ payload) :
    (∃ header' payload', header'.length = 5 ∧ read = w.read ++ header' ++ payload' ∧
      Filled call payload' data') ↔ Filled call payload data' := by
  refine ⟨?_, fun h => ⟨header, payload, hheader, hread, h⟩⟩
  rintro ⟨header', payload', hheader', hread', h⟩
  rw [hread, List.append_assoc, List.append_assoc] at hread'
  obtain ⟨-, rfl⟩ := List.append_inj (List.append_cancel_left hread') (hheader.trans hheader'.symm)
  exact h

theorem filled_nil_iff : Filled call [] call.data ↔ call.length ≤ 0 := by
  refine ⟨fun h => ?_, fun h => ⟨?_, fun i => ?_⟩⟩
  · have hlen := h.length_eq
    rw [List.length_nil] at hlen
    omega
  · rw [List.length_nil]
    omega
  · rw [if_neg (by omega)]

theorem filled_overwrite_iff {payload : List UInt8} (hoff : 0 ≤ call.pieceOffset)
    (hpos : 0 < payload.length)
    (hfits : call.pieceOffset + payload.length ≤ call.data.length) :
    Filled call payload (overwrite call.data call.pieceOffset.toNat payload) ↔
      payload.length = call.length := by
  refine ⟨fun h => ?_, fun h => ⟨?_, fun i => ?_⟩⟩
  · have hlen := h.length_eq
    omega
  · omega
  · rw [getElem?_overwrite (by omega)]
    by_cases hi : call.pieceOffset ≤ i ∧ i < call.pieceOffset + call.length
    · rw [if_pos hi, if_pos (by omega)]
      congr 1
      omega
    · rw [if_neg hi, if_neg (by omega)]

/-- A call that returns true at a boundary is right when the payload is in its place. -/
theorem right_returned_iff {data' header payload : List UInt8} {w' : Wire} (hw : w.AtBoundary)
    (hcall : getData call w = ⟨.returned true, data', w'⟩) (hheader : header.length = 5)
    (hread : w'.read = w.read ++ header ++ payload) (hstar : w'.read ∈ messages∗) :
    Right call w ↔ Filled call payload data' := by
  have hfilled := @filled_iff call w data' w'.read header payload hheader hread
  refine ⟨fun h => hfilled.1 ?_, fun h => ⟨hw, fun _ => ?_, ?_⟩⟩
  · have hf := h.filled (by rw [hcall])
    rwa [hcall] at hf
  · rw [hcall]
    exact hfilled.2 h
  · rw [afterwards_eq (b := true) (Or.inl (by rw [hcall])), hcall]
    exact fun _ => hstar

/-! ### The calls that get a length -/

section Header

variable {a b c d : UInt8} {payload : List UInt8} {len : ℤ}

theorem read_header (hrest : w.rest = statusGetData :: a :: b :: c :: d :: payload) :
    (w.advance 5).read = w.read ++ [statusGetData, a, b, c, d] := by
  rw [advance_read, hrest]
  rfl

theorem rest_header (hrest : w.rest = statusGetData :: a :: b :: c :: d :: payload) :
    (w.advance 5).rest = payload := by
  unfold Wire.advance
  rw [hrest]
  rfl

/-- Without a payload the header is a message. -/
theorem header_mem_kstar (hw : w.AtBoundary) (hlive : w.live = true)
    (hrest : w.rest = statusGetData :: a :: b :: c :: d :: payload) (hlen : intOf a b c d = len)
    (hle : len ≤ 0) : (w.advance 5).read ∈ messages∗ := by
  rw [read_header hrest]
  refine append_mem_kstar (hw hlive) (mem_kstar_of_mem (data_mem_messages ?_))
  rw [List.length_nil, hlen]
  omega

theorem right_of_negative (hw : w.AtBoundary) (hlive : w.live = true)
    (hrest : w.rest = statusGetData :: a :: b :: c :: d :: payload) (hlen : intOf a b c d = len)
    (hcall : getData call w = readFully call.data call.pieceOffset len (w.advance 5))
    (hneg : len < 0) : Right call w := by
  have hans : getData call w = ⟨.indexOutOfBounds, call.data, w.advance 5⟩ := by
    rw [hcall, readFully, if_pos hneg]
  refine ⟨hw, fun h => ?_, fun _ => ?_⟩
  · rw [hans] at h
    cases h
  · rw [afterwards_eq (b := true) (Or.inr (by rw [hans])), hans]
    exact header_mem_kstar hw hlive hrest hlen hneg.le

/-- The array stays as it is, which is right when nothing was asked for. -/
theorem right_zero_iff (hw : w.AtBoundary) (hlive : w.live = true)
    (hrest : w.rest = statusGetData :: a :: b :: c :: d :: payload) (hlen : intOf a b c d = 0)
    (hcall : getData call w = readFully call.data call.pieceOffset 0 (w.advance 5)) :
    Right call w ↔ call.length ≤ 0 := by
  have hans : getData call w = ⟨.returned true, call.data, w.advance 5⟩ := by
    rw [hcall, readFully, if_neg (by omega), if_pos rfl]
  have hread : (w.advance 5).read = w.read ++ [statusGetData, a, b, c, d] ++ [] := by
    rw [List.append_nil, read_header hrest]
  rw [right_returned_iff hw hans rfl hread (header_mem_kstar hw hlive hrest hlen le_rfl),
    filled_nil_iff]

/-- The payload is left on the connection. -/
theorem not_right_outside (hw : w.AtBoundary) (hlive : w.live = true)
    (hrest : w.rest = statusGetData :: a :: b :: c :: d :: payload) (hlen : intOf a b c d = len)
    (hcall : getData call w = readFully call.data call.pieceOffset len (w.advance 5))
    (hpos : 0 < len) (hout : call.pieceOffset < 0 ∨ call.data.length < call.pieceOffset + len) :
    ¬ Right call w := by
  have hans : getData call w = ⟨.indexOutOfBounds, call.data, w.advance 5⟩ := by
    rw [hcall, readFully, if_neg (by omega), if_neg (by omega), if_pos hout]
  intro h
  have hresumes := h.resumes
  rw [afterwards_eq (b := true) (Or.inr (by rw [hans])), hans] at hresumes
  have hafter := hresumes hlive
  rw [read_header hrest, delimited_messages.append_mem_kstar_iff (hw hlive)] at hafter
  exact header_notMem_kstar (by rw [hlen]; exact hpos) hafter

/-- The payload is cut short, or it is the one that was asked for. -/
theorem right_inside_iff (hw : w.AtBoundary) (hlive : w.live = true)
    (hrest : w.rest = statusGetData :: a :: b :: c :: d :: payload) (hlen : intOf a b c d = len)
    (hcall : getData call w = readFully call.data call.pieceOffset len (w.advance 5))
    (hpos : 0 < len)
    (hin : 0 ≤ call.pieceOffset ∧ call.pieceOffset + len ≤ call.data.length) :
    Right call w ↔ len = call.length ∨ payload.length < len := by
  have hcut : getData call w = ⟨if payload.length < len then .ioException
      else .returned true, overwrite call.data call.pieceOffset.toNat (payload.take len.toNat),
        (w.advance 5).advance len.toNat⟩ := by
    rw [hcall, readFully, if_neg (by omega), if_neg (by omega), if_neg (by omega),
      rest_header hrest]
  by_cases hshort : payload.length < len
  · rw [if_pos hshort] at hcut
    exact iff_of_true (right_of_ioException hw (by rw [hcut])) (Or.inr hshort)
  · rw [if_neg hshort] at hcut
    have htake : (payload.take len.toNat).length = len.toNat :=
      List.length_take_of_le (by omega)
    have hread : ((w.advance 5).advance len.toNat).read =
        w.read ++ [statusGetData, a, b, c, d] ++ payload.take len.toNat := by
      rw [advance_read, read_header hrest, rest_header hrest]
    have hstar : ((w.advance 5).advance len.toNat).read ∈ messages∗ := by
      rw [hread, List.append_assoc]
      exact append_mem_kstar (hw hlive)
        (mem_kstar_of_mem (data_mem_messages (by rw [hlen]; exact htake)))
    rw [right_returned_iff hw hcut rfl hread hstar,
      filled_overwrite_iff hin.1 (by omega) (by omega)]
    omega

theorem right_header_iff (hw : w.AtBoundary) (hlive : w.live = true)
    (hwritten : call.written = true) (hlen : intOf a b c d = len)
    (hrest : w.rest = statusGetData :: a :: b :: c :: d :: payload) :
    Right call w ↔ len < 0 ∨ (len = 0 ∧ call.length ≤ 0) ∨
        (0 < len ∧ 0 ≤ call.pieceOffset ∧ call.pieceOffset + len ≤ call.data.length ∧
          (len = call.length ∨ payload.length < len)) := by
  have hcall := getData_header hlive hwritten hrest
  rw [hlen] at hcall
  rcases lt_trichotomy len 0 with hneg | rfl | hpos
  · exact iff_of_true (right_of_negative hw hlive hrest hlen hcall hneg) (Or.inl hneg)
  · rw [right_zero_iff hw hlive hrest hlen hcall]
    omega
  · by_cases hout : call.pieceOffset < 0 ∨ call.data.length < call.pieceOffset + len
    · exact iff_of_false (not_right_outside hw hlive hrest hlen hcall hpos hout) (by omega)
    · rw [right_inside_iff hw hlive hrest hlen hcall hpos (by omega)]
      omega

end Header

/-- The calls that get no length: the answer is cut short or has another status. -/
theorem right_of_no_header (hw : w.AtBoundary) (hlive : w.live = true) (hwritten : call.written = true)
    (hheader : ¬ ∃ a b c d payload, w.rest = statusGetData :: a :: b :: c :: d :: payload) :
    Right call w := by
  have hcan : ¬ (w.live = false ∨ call.written = false) := by simp [hlive, hwritten]
  cases hrest : w.rest with
  | nil =>
    refine right_of_ioException hw ?_
    rw [getData, if_neg hcan, hrest]
  | cons status rest =>
    by_cases hstatus : status = statusGetData
    · subst hstatus
      refine right_of_ioException hw ?_
      rw [getData, if_neg hcan, hrest]
      simp only [if_true]
      rcases rest with _ | ⟨a, _ | ⟨b, _ | ⟨c, _ | ⟨d, payload⟩⟩⟩⟩
      · rfl
      · rfl
      · rfl
      · rfl
      · exact absurd ⟨a, b, c, d, payload, hrest⟩ hheader
    · have hans : getData call w = ⟨.returned false, call.data, w.advance 1⟩ := by
        rw [getData, if_neg hcan, hrest]
        simp only [if_neg hstatus]
      refine ⟨hw, fun h => ?_, fun _ => ?_⟩
      · rw [hans] at h
        cases h
      · rw [afterwards_eq (b := false) (Or.inl (by rw [hans])), hans, advance_read, hrest]
        exact append_mem_kstar (hw hlive) (mem_kstar_of_mem (status_mem_messages hstatus))

/-- One call from a boundary is right exactly when the answer is as asked for. -/
theorem right_iff (hw : w.AtBoundary) : Right call w ↔ AsAsked call w := by
  by_cases hcan : w.live = false ∨ call.written = false
  · refine iff_of_true (right_of_ioException hw ?_) fun hlive hwritten => ?_
    · rw [getData, if_pos hcan]
    · rcases hcan with h | h
      · rw [h] at hlive
        cases hlive
      · rw [h] at hwritten
        cases hwritten
  have hlive : w.live = true := by
    by_contra h
    exact hcan (Or.inl (Bool.eq_false_iff.2 h))
  have hwritten : call.written = true := by
    by_contra h
    exact hcan (Or.inr (Bool.eq_false_iff.2 h))
  by_cases hheader : ∃ a b c d payload, w.rest = statusGetData :: a :: b :: c :: d :: payload
  · obtain ⟨a, b, c, d, payload, hrest⟩ := hheader
    rw [right_header_iff hw hlive hwritten rfl hrest]
    refine ⟨fun h _ _ a' b' c' d' payload' hrest' => ?_, fun h => h hlive hwritten _ _ _ _ _ hrest⟩
    rw [hrest] at hrest'
    obtain ⟨-, rfl, rfl, rfl, rfl, rfl⟩ := by simpa only [List.cons.injEq] using hrest'
    exact h
  · exact iff_of_true (right_of_no_header hw hlive hwritten hheader)
      fun _ _ a b c d payload hrest => absurd ⟨a, b, c, d, payload, hrest⟩ hheader

end

/-! ### Runs -/

theorem everyCall_iff {P Q : Call → Wire → Prop}
    (hstep : ∀ call w, w.AtBoundary → (P call w ↔ Q call w))
    (hP : ∀ call w, P call w → (afterwards call w).AtBoundary) (calls : List Call) {w : Wire}
    (hw : w.AtBoundary) : EveryCall P calls w ↔ EveryCall Q calls w := by
  induction calls generalizing w with
  | nil => exact Iff.rfl
  | cons call calls ih =>
    rw [EveryCall, EveryCall, ← hstep call w hw]
    exact and_congr_right fun h => ih (hP call w h)

/-- **Answers in their places.** In a run of calls over a new connection, every answer is read from its
beginning and true is returned only with the payload in its place, exactly when every answer is as asked
for. -/
theorem everyCall_right_iff (stream : List UInt8) (calls : List Call) :
    EveryCall Right calls { rest := stream } ↔ EveryCall AsAsked calls { rest := stream } :=
  everyCall_iff (fun _ _ => right_iff) (fun _ _ h => h.resumes) calls
    fun _ => Language.nil_mem_kstar messages

/-- Two calls for four bytes each. -/
def fourBytes : Call where
  pieceOffset := 0
  length := 4
  data := [0, 0, 0, 0]
  written := true
  reconnected := none

/-- Six bytes are announced for the first call.  The second one takes the first of them for its
status and returns false. -/
theorem not_right_sixBytes :
    ¬ EveryCall Right [fourBytes, fourBytes]
      { rest := [4, 0, 0, 0, 6, 1, 2, 3, 4, 5, 6, 4, 0, 0, 0, 4, 1, 2, 3, 4] } := by
  rintro ⟨h, -⟩
  have hread : (afterwards fourBytes
      { rest := [4, 0, 0, 0, 6, 1, 2, 3, 4, 5, 6, 4, 0, 0, 0, 4, 1, 2, 3, 4] }).read =
        [4, 0, 0, 0, 6] := by decide +kernel
  have hstar := h.resumes (by decide +kernel)
  rw [hread] at hstar
  have hlen : 0 < intOf 0 0 0 6 := by decide +kernel
  exact header_notMem_kstar hlen hstar

end P2Player.Stream.DataConnector
