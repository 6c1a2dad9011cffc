import P2Player.Stream.Frame

/-!
# The iterations of both streamers

The bodies of the two loops differ in the condition of the block for missing pieces and in how this
block ends.  They are one program with two parameters, and what it does is said once.

* `opening`, `ending`, `commonIteration`: the body that both loops share;
* `TorrentStreamerImpl.iterations`, `HyperStreamer.iterations`: the iterations of a run;
* `triple_opening`, `triple_ending`: what the two parts of the body do;
* `runIterations_keeps`: the invariant rule for the iterations of a run.
-/

namespace P2Player.Stream

open Java Program

section

variable (R : Request) (t : Tick)

/-- What `computePieceBufferSize` returns. -/
def bufferSize : Option ℤ :=
  t.rate.map fun rate => max 5 (toInt ((60 * rate).tdiv R.torrent.pieceSize))

/-- The beginning of an iteration, which finds `PIECE_BUFFER_SIZE`. -/
def opening : Prog ℤ := do
  updateState t
  let PIECE_BUFFER_SIZE ← computePieceBufferSize R t
  updateIncompleteIdx t
  pure PIECE_BUFFER_SIZE

section

variable (buffers : ℤ → State → Prop) [∀ n s, Decidable (buffers n s)] (wait : Prog Unit)

/-- The rest of an iteration: `buffers` is the condition of the block for missing pieces, and `wait`
its end. -/
def ending (PIECE_BUFFER_SIZE : ℤ) : Prog Unit := do
  let s ← get
  onlyIf (buffers PIECE_BUFFER_SIZE s) do
    buffering R t PIECE_BUFFER_SIZE
    wait
  readAndSend R t

/-- An iteration. -/
def commonIteration : Prog Unit := opening R t >>= ending R t buffers wait

end

/-- The iterations of a run: the input of each, and the state at its beginning. -/
def runIterations (prologue : Prog Unit) (iteration : Tick → Prog Unit) (ts : List Tick) :
    List (Tick × State) :=
  match prologue (initState R) with
  | .ok _ s => entered goesOn iteration ts s
  | .error _ _ => []

/-- The calls that a part of an iteration makes. -/
def callsIn (m : Prog Unit) (s : State) : List Call :=
  match m s with
  | .ok _ s' => s'.calls.drop s.calls.length
  | .error _ s' => s'.calls.drop s.calls.length

end

namespace TorrentStreamerImpl

/-- The condition of the block for missing pieces. -/
def buffers (PIECE_BUFFER_SIZE : ℤ) (s : State) : Prop :=
  s.state ≠ 4 ∧ s.state ≠ 5 ∧ s.incompleteIdx < toInt (s.streamPiece + PIECE_BUFFER_SIZE)

instance (n : ℤ) (s : State) : Decidable (buffers n s) :=
  inferInstanceAs (Decidable (_ ∧ _ ∧ _))

theorem iteration_eq (R : Request) (t : Tick) :
    iteration R t = commonIteration R t buffers (waitForPiece t) := by
  simp only [commonIteration, opening, bind_assoc, pure_bind]
  rfl

/-- The iterations of `stream`. -/
def iterations (R : Request) (t₀ : Tick) (ts : List Tick) : List (Tick × State) :=
  runIterations R (prologue t₀) (iteration R) ts

end TorrentStreamerImpl

namespace HyperStreamer

/-- The condition of the block for missing pieces. -/
def buffers (R : Request) (PIECE_BUFFER_SIZE : ℤ) (s : State) : Prop :=
  s.state ≠ 4 ∧ s.state ≠ 5 ∧ s.incompleteIdx < R.torrent.pieceNum ∧
    s.incompleteIdx < toInt (s.streamPiece + PIECE_BUFFER_SIZE)

instance (R : Request) (n : ℤ) (s : State) : Decidable (buffers R n s) :=
  inferInstanceAs (Decidable (_ ∧ _ ∧ _ ∧ _))

theorem iteration_eq (R : Request) (H : Helper) (t : Tick) :
    iteration R H t = commonIteration R t (buffers R) (waitOrHelp R H t) := by
  simp only [commonIteration, opening, bind_assoc, pure_bind]
  rfl

/-- The iterations of `stream`. -/
def iterations (R : Request) (H : Helper) (t₀ t₁ : Tick) (ts : List Tick) : List (Tick × State) :=
  runIterations R (prologue R H t₀ t₁) (iteration R H) ts

end HyperStreamer

/-! ### The beginning of an iteration -/

section

variable {R : Request} {t : Tick} {s₀ : State}

theorem bufferSize_ge {n : ℤ} (h : bufferSize R t = some n) : 5 ≤ n := by
  obtain ⟨rate, -, rfl⟩ := Option.map_eq_some_iff.1 h
  exact le_max_left _ _

/-- What the beginning of an iteration has found and changed. -/
structure Opened (R : Request) (t : Tick) (s₀ : State) (n : ℤ) (s : State) : Prop where
  size : bufferSize R t = some n
  idx : t.getFirstPieceIncomplete s₀.streamPiece = some s.incompleteIdx
  state : s.state = s₀.state ∨ t.getTorrentState = some s.state
  rest : s = { s₀ with state := s.state, incompleteIdx := s.incompleteIdx }

theorem triple_updateState :
    Triple (fun s => s = s₀) (updateState t)
      (fun _ s => (s.state = s₀.state ∨ t.getTorrentState = some s.state) ∧
        s = { s₀ with state := s.state })
      fun e s => e = .threw ∧ s = s₀ := by
  rintro s rfl
  refine triple_onlyIf (P := fun s' => s' = s) (fun _ => ?_) (fun s' hs' => ?_) s rfl
  · refine Triple.bind (Q := fun x s' => t.getTorrentState = some x ∧ s' = s)
      (triple_ask _ (fun x s' hx hs' => ⟨hx, hs'⟩) fun s' hs' => ⟨rfl, hs'⟩) fun x => ?_
    apply triple_modify
    rintro s' ⟨hx, rfl⟩
    exact ⟨Or.inr hx, rfl⟩
  · rw [hs']
    exact ⟨Or.inl rfl, rfl⟩

theorem triple_opening :
    Triple (fun s => s = s₀) (opening R t) (fun n s => Opened R t s₀ n s)
      fun e s => e = .threw ∧ s.calls = s₀.calls := by
  refine Triple.bind (triple_updateState.conseq (fun _ => id) (fun _ _ => id) ?_) fun _ => ?_
  · rintro e s ⟨he, rfl⟩
    exact ⟨he, rfl⟩
  apply triple_of_part id
  rintro s₁ ⟨hstate, hrest⟩
  have hcalls : s₁.calls = s₀.calls := by rw [hrest]
  refine Triple.bind (Q := fun n s => bufferSize R t = some n ∧ s = s₁) ?_ fun n => ?_
  · refine Triple.bind (Q := fun rate s => t.rate = some rate ∧ s = s₁)
      (triple_ask _ (fun rate s hrate hs => ⟨hrate, hs⟩) ?_) fun rate => ?_
    · rintro s rfl
      exact ⟨rfl, hcalls⟩
    · refine triple_pure _ fun s hs => ⟨?_, hs.2⟩
      rw [bufferSize, hs.1]
      rfl
  · rintro s ⟨hn, rfl⟩
    have hidx : Triple (fun s' => s' = s) (updateIncompleteIdx t >>= fun _ => pure n)
        (fun n s' => Opened R t s₀ n s') fun e s' => e = .threw ∧ s'.calls = s₀.calls := by
      refine Triple.bind (Q := fun _ s' => Opened R t s₀ n s') ?_ fun _ => triple_pure _ fun _ => id
      rintro s' rfl
      refine Triple.bind (P := fun s => s = s')
        (Q := fun i s => t.getFirstPieceIncomplete s'.streamPiece = some i ∧ s = s')
        (triple_ask _ (fun i s hi hs => ⟨hi, hs⟩) fun s hs => ⟨rfl, hs ▸ hcalls⟩)
        (fun i => ?_) s' rfl
      apply triple_modify
      rintro s ⟨hi, rfl⟩
      refine ⟨hn, ?_, hstate, ?_⟩
      · rw [hrest] at hi
        exact hi
      · rw [hrest]
    exact hidx s rfl

/-! ### The rest of an iteration -/

/-- The end of the block for missing pieces is passed only when the first missing piece is not the one
to be sent. -/
def Waits (wait : Prog Unit) : Prop :=
  ∀ s₀, Triple (fun s => s = s₀) wait
    (fun _ s => s₀.streamPiece ≠ s₀.incompleteIdx ∧ Moved State.track (fun c => ¬ c.Reads) s₀ s)
    fun _ s => Moved State.aside (fun c => ¬ c.Reads) s₀ s

theorem TorrentStreamerImpl.waits : Waits (waitForPiece t) := fun _ =>
  triple_waitPast.conseq (fun _ => id) (fun _ _ => id) fun _ _ => Moved.of_track

theorem HyperStreamer.waits {H : Helper} : Waits (waitOrHelp R H t) := fun _ => triple_helpPast

theorem moves_startWindow {P : Call → Prop} : Moves (Moved State.state P) startWindow :=
  moved_modify fun _ => by exact ⟨rfl, rfl⟩

theorem Moved.of_aside {P : Call → Prop} {s s' : State} (h : Moved State.aside P s s') :
    Moved State.state P s s' :=
  h.mono (congrArg Prod.fst) fun _ => id

theorem Moved.of_place {P : Call → Prop} {s s' : State} (h : Moved State.place P s s') :
    Moved State.state P s s' :=
  h.mono (congrArg Prod.fst) fun _ => id

theorem TorrentStreamerImpl.moves_prologue :
    Moves (Moved State.state fun c => ¬ c.Reads) (prologue t) :=
  (keeps_clearDeadlines.place.mono fun _ _ => Moved.of_place).bind fun _ => moves_startWindow

theorem HyperStreamer.moves_prologue {H : Helper} {t₁ : Tick} :
    Moves (Moved State.state fun c => ¬ c.Reads) (prologue R H t t₁) := by
  refine (moves_helpFirst.mono fun _ _ => Moved.of_aside).bind fun _ => ?_
  exact (keeps_clearDeadlines.place.mono fun _ _ => Moved.of_place).bind fun _ => moves_startWindow

variable {buffers : ℤ → State → Prop} [∀ n s, Decidable (buffers n s)] {wait : Prog Unit} {n : ℤ}
  {s₁ : State} {P : Call → Prop}

/-- The calls of an iteration are in `P` when the reads are, of the piece that is to be sent. -/
theorem triple_ending (hwait : Waits wait) (hP : ∀ c : Call, ¬ c.Reads → P c)
    (hread : (buffers n s₁ → s₁.streamPiece ≠ s₁.incompleteIdx) →
      P (.setTorrentReadPiece s₁.streamPiece) ∧ P (.readTorrentPiece s₁.streamPiece)) :
    Triple (fun s => s = s₁) (ending R t buffers wait n) (fun _ s => Moved State.state P s₁ s)
      fun _ s => Moved State.state P s₁ s := by
  -- reading from a state in which the stream is where it was
  have hreads : ∀ s₃ : State, s₃.streamPiece = s₁.streamPiece → Moved State.state P s₁ s₃ →
      (buffers n s₁ → s₁.streamPiece ≠ s₁.incompleteIdx) →
      Triple (fun s => s = s₃) (readAndSend R t) (fun _ s => Moved State.state P s₁ s)
        fun _ s => Moved State.state P s₁ s := by
    intro s₃ hpiece hmoved hcase
    obtain ⟨hset, hget⟩ := hread hcase
    rw [← hpiece] at hset hget
    refine (triple_readEnd hset hget).conseq ?_ (fun _ s hs => trans_of _ hmoved hs.of_aside)
      fun _ s hs => trans_of _ hmoved hs.of_aside
    rintro s rfl
    exact refl_of _ s
  rintro s rfl
  refine triple_get_bind (f := id) (x := s) (fun s' hs' => ?_) s rfl
  obtain rfl : s' = s := hs'
  refine Triple.bind (Q := fun _ s₃ => (buffers n s' → s'.streamPiece ≠ s'.incompleteIdx) ∧
    s₃.streamPiece = s'.streamPiece ∧ Moved State.state P s' s₃) ?_ fun _ => ?_
  · refine triple_ite (fun _ => ?_) fun hno => triple_pure _ fun s₃ hs₃ => ?_
    · refine Triple.bind (Q := fun _ s₂ => Moved State.place (fun c => ¬ c.Reads) s' s₂) ?_ fun _ => ?_
      · refine (triple_of_moves (moves_buffering n)).conseq ?_ (fun _ _ => id)
          fun _ s hs => (hs.mono id hP).of_place
        rintro s rfl
        exact refl_of _ s
      · apply triple_of_part id
        intro s₂ hs₂
        have hpiece : s₂.streamPiece = s'.streamPiece := congrArg (fun x => x.2.1) hs₂.part
        have hidx : s₂.incompleteIdx = s'.incompleteIdx := congrArg (fun x => x.2.2) hs₂.part
        have hs₂ := (hs₂.mono id hP).of_place
        refine (hwait s₂).conseq (fun _ => id) ?_
          fun _ s hs => trans_of _ hs₂ (hs.mono id hP).of_aside
        rintro _ s₃ ⟨hne, hs₃⟩
        rw [hpiece, hidx] at hne
        have hpiece₃ : s₃.streamPiece = s₂.streamPiece := congrArg Prod.fst hs₃.part
        exact ⟨fun _ => hne, hpiece₃.trans hpiece,
          trans_of _ hs₂ (hs₃.mono id hP).of_track.of_aside⟩
    · obtain rfl : s₃ = s' := hs₃
      exact ⟨fun h => absurd h hno, rfl, refl_of _ s₃⟩
  · apply triple_of_part id
    rintro s₃ ⟨hcase, hpiece, hmoved⟩
    exact hreads s₃ hpiece hmoved hcase

/-- The torrent's state after an iteration is what it was or what the native layer has answered. -/
def NextState (t : Tick) (s₀ s : State) : Prop :=
  s.state = s₀.state ∨ t.getTorrentState = some s.state

theorem Opened.calls_eq (h : Opened R t s₀ n s₁) : s₁.calls = s₀.calls := by rw [h.rest]

theorem Opened.streamPiece_eq (h : Opened R t s₀ n s₁) : s₁.streamPiece = s₀.streamPiece := by
  rw [h.rest]

/-- **One iteration.** Its calls are in `P` when the reads are, of the piece that is to be sent. -/
theorem triple_commonIteration (hwait : Waits wait) (hP : ∀ c : Call, ¬ c.Reads → P c)
    (hread : ∀ n s₁, Opened R t s₀ n s₁ →
      (buffers n s₁ → s₁.streamPiece ≠ s₁.incompleteIdx) →
        P (.setTorrentReadPiece s₀.streamPiece) ∧ P (.readTorrentPiece s₀.streamPiece)) :
    Triple (fun s => s = s₀) (commonIteration R t buffers wait)
      (fun _ s => Moved (fun _ => ()) P s₀ s ∧ NextState t s₀ s)
      fun e s => Moved (fun _ => ()) P s₀ s ∧ (e = .again → NextState t s₀ s) := by
  refine Triple.bind (triple_opening.conseq (fun _ => id) (fun _ _ => id) ?_) fun n => ?_
  · rintro e s ⟨rfl, hcalls⟩
    exact ⟨⟨rfl, [], by rw [hcalls, List.append_nil], fun _ h => by cases h⟩, fun h => by cases h⟩
  apply triple_of_part id
  intro s₁ hopen
  have hcase := hread n s₁ hopen
  rw [← hopen.streamPiece_eq] at hcase
  have hmoved : ∀ s, Moved State.state P s₁ s →
      Moved (fun _ => ()) P s₀ s ∧ NextState t s₀ s := by
    rintro s ⟨hstate, added, hadded, hall⟩
    refine ⟨⟨rfl, added, by rw [hadded, hopen.calls_eq], hall⟩, ?_⟩
    rw [NextState, hstate]
    exact hopen.state
  exact (triple_ending hwait hP hcase).conseq (fun _ => id) (fun _ s hs => hmoved s hs)
    fun _ s hs => ⟨(hmoved s hs).1, fun _ => (hmoved s hs).2⟩

theorem mem_callsIn {m : Prog Unit} {E : Exit → State → Prop}
    (h : Triple (fun s => s = s₀) m (fun _ s => Moved (fun _ => ()) P s₀ s) E)
    (hE : ∀ e s, E e s → Moved (fun _ => ()) P s₀ s) {c : Call} (hc : c ∈ callsIn m s₀) : P c := by
  have hadded : ∀ s, Moved (fun _ => ()) P s₀ s → c ∈ s.calls.drop s₀.calls.length → P c := by
    rintro s ⟨-, added, hadded, hall⟩ hc
    rw [hadded, List.drop_left] at hc
    exact hall c hc
  have hm := h s₀ rfl
  unfold callsIn at hc
  cases hr : m s₀ with
  | ok a s => rw [hr] at hm hc; exact hadded s hm hc
  | error e s => rw [hr] at hm hc; exact hadded s (hE e s hm) hc

end

/-! ### The iterations of a run -/

section

variable {R : Request} {prologue : Prog Unit} {body : Tick → Prog Unit} {ts : List Tick} {k : ℕ}
  {t : Tick} {s : State}

theorem input_of_runIterations (h : (runIterations R prologue body ts)[k]? = some (t, s)) :
    ts[k]? = some t := by
  unfold runIterations at h
  cases hr : prologue (initState R) with
  | ok a s₀ => rw [hr] at h; exact input_of_entered h
  | error e s₀ => rw [hr] at h; cases h

/-- **The invariant rule for the iterations of a run.** -/
theorem runIterations_keeps {I : ℕ → State → Prop}
    (hpro : Triple (fun s => s = initState R) prologue (fun _ => I 0) fun _ _ => True)
    (hbody : ∀ k t s, (runIterations R prologue body ts)[k]? = some (t, s) → I k s →
      goesOn t s = true →
      Triple (fun s' => s' = s) (body t) (fun _ => I (k + 1)) (exits (I (k + 1)) fun _ => True))
    (h : (runIterations R prologue body ts)[k]? = some (t, s)) : I k s ∧ goesOn t s = true := by
  have hstart := hpro _ rfl
  unfold runIterations at h hbody
  cases hr : prologue (initState R) with
  | ok a s₀ =>
    rw [hr] at h hbody hstart
    exact entered_keeps hbody hstart h
  | error e s₀ => rw [hr] at h; cases h

end

/-! ### The calls of a run -/

section

variable {body : Tick → Prog Unit}

/-- Nothing is taken back from the calls that were made. -/
def AddsCalls (m : Prog Unit) : Prop := Moves (Moved (fun _ => ()) fun _ => True) m

theorem mem_callsIn_of_mem {m : Prog Unit} (hm : AddsCalls m) {s s' : State} {c : Call}
    (hr : m s = .ok () s' ∨ ∃ e, m s = .error e s') (hc : c ∈ s'.calls) :
    c ∈ s.calls ∨ c ∈ callsIn m s := by
  have hadd : Moved (fun _ => ()) (fun _ => True) s s' ∧
      callsIn m s = s'.calls.drop s.calls.length := by
    have hms := hm s
    unfold callsIn
    rcases hr with hr | ⟨e, hr⟩ <;> rw [hr] at hms ⊢ <;> exact ⟨hms, rfl⟩
  obtain ⟨⟨-, added, hadded, -⟩, hin⟩ := hadd
  rw [hin, hadded, List.drop_left]
  rw [hadded] at hc
  exact List.mem_append.1 hc

/-- A call of a loop was made before it or in one of its iterations. -/
theorem mem_calls_whileLoop (hbody : ∀ t, AddsCalls (body t)) {ts : List Tick} {s : State} {c : Call}
    (hc : c ∈ (whileLoop goesOn body ts s).calls) :
    c ∈ s.calls ∨ ∃ x ∈ entered goesOn body ts s, c ∈ callsIn (body x.1) x.2 := by
  induction ts generalizing s with
  | nil => exact Or.inl hc
  | cons t ts ih =>
    unfold whileLoop at hc
    unfold entered
    split_ifs at hc ⊢ with hg
    swap
    · exact Or.inl hc
    have hfirst : ∀ s', (body t s = .ok () s' ∨ ∃ e, body t s = .error e s') → c ∈ s'.calls →
        ∀ later, c ∈ s.calls ∨ ∃ x ∈ (t, s) :: later, c ∈ callsIn (body x.1) x.2 := by
      intro s' hr hc' later
      refine (mem_callsIn_of_mem (hbody t) hr hc').imp_right fun h => ?_
      exact ⟨(t, s), List.mem_cons_self, h⟩
    have hlater : ∀ s', (body t s = .ok () s' ∨ ∃ e, body t s = .error e s') →
        c ∈ (whileLoop goesOn body ts s').calls →
        c ∈ s.calls ∨ ∃ x ∈ (t, s) :: entered goesOn body ts s', c ∈ callsIn (body x.1) x.2 := by
      intro s' hr hc'
      rcases ih hc' with h | ⟨x, hx, h⟩
      · exact hfirst s' hr h _
      · exact Or.inr ⟨x, List.mem_cons_of_mem _ hx, h⟩
    cases hr : body t s with
    | ok a s' => rw [hr] at hc; exact hlater s' (Or.inl hr) hc
    | error e s' =>
      rw [hr] at hc
      cases e with
      | again => exact hlater s' (Or.inr ⟨_, hr⟩) hc
      | leave => exact hfirst s' (Or.inr ⟨_, hr⟩) hc _
      | threw => exact hfirst s' (Or.inr ⟨_, hr⟩) hc _

/-- The calls of a run are those before the loop and those of its iterations. -/
theorem mem_calls_runStream {R : Request} {prologue : Prog Unit} (hpro : AddsCalls prologue)
    (hbody : ∀ t, AddsCalls (body t)) {ts : List Tick} {c : Call}
    (hc : c ∈ (runStream R prologue body ts).calls) :
    c ∈ callsIn prologue (initState R) ∨
      ∃ x ∈ runIterations R prologue body ts, c ∈ callsIn (body x.1) x.2 := by
  have hnone : ∀ c, c ∉ (initState R).calls := fun c h => by cases h
  unfold runStream at hc
  unfold runIterations
  cases hr : prologue (initState R) with
  | ok a s =>
    rw [hr] at hc
    refine (mem_calls_whileLoop hbody hc).imp_left fun h => ?_
    exact (mem_callsIn_of_mem hpro (Or.inl hr) h).resolve_left (hnone c)
  | error e s =>
    rw [hr] at hc
    exact Or.inl ((mem_callsIn_of_mem hpro (Or.inr ⟨e, hr⟩) hc).resolve_left (hnone c))

end

end P2Player.Stream
