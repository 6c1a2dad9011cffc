import P2Player.Manager.TorrentManager

/-!
# The sessions of the HTTP server

`NanoHTTPD` keeps the handlers of the connections it has accepted in `sessions`, until they are done
or are cancelled.  When a stream of another torrent than the current one is asked for,
`TorrentManager.initStream` cancels all sessions, the one that asks included.

* `Handler`, `State`, `Action`, `step`: the handlers through their lives, with the acceptor, the
  cancellation and the switch of streams in any order;
* `Fitted`: what each phase tells about a handler;
* `Registered`: a handler that runs and is still streaming is one of the sessions;
* `socketOpen_initStream_iff`: the sockets that are open behind a request for a torrent;
* `switch_iff`: a request for another torrent goes on, and is the only one that does, exactly when
  there was no stream to switch from and no other session was streaming.
-/

namespace P2Player.Sessions

open Java Transition

/-- The fields of `HttpHandler` that `stop` changes; `streamerOpen` tells whether there is a
`streamer` that has not been closed. -/
structure Handler where
  streaming : Bool
  socketOpen : Bool
  streamerOpen : Bool
  deriving DecidableEq

/-- `new HttpHandler(socket, httpd)`. -/
def Handler.new : Handler := ⟨true, true, false⟩

/-- `stop`, where closing the socket may throw an `IOException`. -/
def Handler.stop (handler : Handler) (closes : Bool) : Handler :=
  if closes then ⟨false, false, false⟩ else { handler with streaming := false }

/-- Where a handler is: not there yet, accepted, registered and queued for a worker, in
`serveRequest`, after the `stop` at the end of `run`, and done. -/
inductive Phase
  | absent
  | accepted
  | queued
  | running
  | stopped
  | done
  deriving DecidableEq

/-- The server and the stream that the manager has switched on. -/
structure State where
  handler : ℕ → Handler
  phase : ℕ → Phase
  sessions : List ℕ
  serving : Bool
  currentStream : Option JString

/-- The server as it is constructed. -/
def init : State := ⟨fun _ => Handler.new, fun _ => .absent, [], true, none⟩

/-- `NanoHTTPD.cancelStream`, where `closes i` tells whether the socket of handler `i` gets
closed. -/
def State.cancelStream (s : State) (closes : ℕ → Bool) : State :=
  { s with
    handler := fun i => if i ∈ s.sessions then (s.handler i).stop (closes i) else s.handler i
    sessions := [] }

/-- `TorrentManager.initStream`, where `ok` tells whether the native calls ran through. -/
def State.initStream (s : State) (hashCode : JString) (ok : Bool) (closes : ℕ → Bool) : State :=
  if ok then
    match s.currentStream with
    | none => { s with currentStream := some hashCode }
    | some currentStream =>
      -- all sessions are cancelled, that of the request included
      if hashCode ≠ currentStream then
        { s.cancelStream closes with currentStream := some hashCode }
      else s
  else s

/-- The steps of the acceptor, of a handler `i` and of anyone who switches or cancels the stream or
turns the server off and on. -/
inductive Action
  | accept (i : ℕ)
  | addHandler (i : ℕ)
  | refuse (i : ℕ) (closes : Bool)
  | execute (i : ℕ)
  | openStreamer (i : ℕ)
  | finish (i : ℕ) (closes : Bool)
  | removeHandler (i : ℕ)
  | initStream (hashCode : JString) (ok : Bool) (closes : ℕ → Bool)
  | cancelStream (closes : ℕ → Bool)
  | setServing (serving : Bool)

/-- The handler `i` in a new phase. -/
def State.move (s : State) (i : ℕ) (handler : Handler) (phase : Phase) : State :=
  { s with
    handler := Function.update s.handler i handler
    phase := Function.update s.phase i phase }

/-- One step.  The acceptor adds a handler to the sessions before it hands it to a worker. -/
def step (s : State) : Action → Option State
  | .accept i => if s.phase i = .absent then some (s.move i Handler.new .accepted) else none
  | .addHandler i =>
    if s.phase i = .accepted ∧ s.serving then
      some { s.move i (s.handler i) .queued with sessions := s.sessions ++ [i] }
    else none
  | .refuse i closes =>
    if s.phase i = .accepted ∧ ¬ s.serving then some (s.move i ((s.handler i).stop closes) .done)
    else none
  | .execute i => if s.phase i = .queued then some (s.move i (s.handler i) .running) else none
  | .openStreamer i =>
    if s.phase i = .running then
      some (s.move i { s.handler i with streamerOpen := true } .running)
    else none
  | .finish i closes =>
    if s.phase i = .running then some (s.move i ((s.handler i).stop closes) .stopped) else none
  | .removeHandler i =>
    if s.phase i = .stopped then
      some { s.move i (s.handler i) .done with sessions := s.sessions.erase i }
    else none
  | .initStream hashCode ok closes => some (s.initStream hashCode ok closes)
  | .cancelStream closes => some (s.cancelStream closes)
  | .setServing serving => some { s with serving := serving }

/-! ### A handler that is streaming is a session -/

/-- A handler that waits for a worker or runs, and is streaming, is one of the sessions. -/
def Registered (s : State) : Prop :=
  ∀ i, s.phase i = .queued ∨ s.phase i = .running → (s.handler i).streaming = true → i ∈ s.sessions

/-- What a phase tells about a handler, and whether it is one of the sessions. -/
def Phase.Fits (handler : Handler) (isSession : Prop) : Phase → Prop
  | .absent => ¬ isSession
  | .accepted => handler.streaming = true ∧ ¬ isSession
  | .queued | .running => handler.streaming = true → isSession
  | .stopped => handler.streaming = false
  | .done => handler.streaming = false

/-- Every handler is as its phase tells. -/
def Fitted (s : State) : Prop := ∀ i, (s.phase i).Fits (s.handler i) (i ∈ s.sessions)

@[simp] theorem stop_streaming (handler : Handler) (closes : Bool) :
    (handler.stop closes).streaming = false := by
  cases closes <;> rfl

theorem Fitted.registered {s : State} (h : Fitted s) : Registered s := by
  rintro i (hi | hi)
  all_goals
    have hfits := h i
    rw [hi] at hfits
    exact hfits

theorem fitted_init : Fitted init := fun _ => List.not_mem_nil

/-- A stopped handler that is no session any more fits the phase that it was in as a session. -/
theorem Phase.Fits.stop {phase : Phase} {handler : Handler} {isSession : Prop}
    (h : phase.Fits handler isSession) (hi : isSession) (closes : Bool) :
    phase.Fits (handler.stop closes) False := by
  cases phase with
  | absent => exact not_false
  | accepted => exact absurd hi h.2
  | queued | running | stopped | done => simp [Phase.Fits]

theorem Fitted.cancelStream {s : State} (h : Fitted s) (closes : ℕ → Bool) :
    Fitted (s.cancelStream closes) := by
  intro i
  have hfits := h i
  simp only [State.cancelStream, List.not_mem_nil]
  split_ifs with hi
  · exact hfits.stop hi (closes i)
  · simpa only [hi] using hfits

theorem Fitted.initStream {s : State} (h : Fitted s) (hashCode : JString) (ok : Bool)
    (closes : ℕ → Bool) : Fitted (s.initStream hashCode ok closes) := by
  unfold State.initStream
  split_ifs
  · split
    · exact h
    · split_ifs
      · exact h.cancelStream closes
      · exact h
  · exact h

/-- A handler that moves, and may be added or removed, leaves the others as they are. -/
theorem Fitted.move {s : State} (h : Fitted s) {i : ℕ} {handler : Handler} {phase : Phase}
    {sessions : List ℕ} (hothers : ∀ j, j ≠ i → (j ∈ sessions ↔ j ∈ s.sessions))
    (hi : phase.Fits handler (i ∈ sessions)) :
    Fitted { s.move i handler phase with sessions := sessions } := by
  intro j
  dsimp only [State.move]
  rcases eq_or_ne j i with rfl | hj
  · rwa [Function.update_self, Function.update_self]
  · rw [Function.update_of_ne hj, Function.update_of_ne hj, hothers j hj]
    exact h j

theorem Fitted.step {s s' : State} {a : Action} (h : Fitted s)
    (hs : Sessions.step s a = some s') : Fitted s' := by
  have hsame : ∀ i j, j ≠ i → (j ∈ s.sessions ↔ j ∈ s.sessions) := fun _ _ _ => Iff.rfl
  cases a with
  | accept i =>
    dsimp only [Sessions.step] at hs
    split_ifs at hs with hi
    cases hs
    have hfits := h i
    rw [hi] at hfits
    exact h.move (hsame i) ⟨rfl, hfits⟩
  | addHandler i =>
    dsimp only [Sessions.step] at hs
    split_ifs at hs
    cases hs
    refine h.move (fun j hj => by simp [hj]) fun _ => ?_
    exact List.mem_append_right _ (List.mem_singleton.2 rfl)
  | refuse i closes =>
    dsimp only [Sessions.step] at hs
    split_ifs at hs
    cases hs
    exact h.move (hsame i) (stop_streaming _ _)
  | execute i =>
    dsimp only [Sessions.step] at hs
    split_ifs at hs with hi
    cases hs
    exact h.move (hsame i) (h.registered i (Or.inl hi))
  | openStreamer i =>
    dsimp only [Sessions.step] at hs
    split_ifs at hs with hi
    cases hs
    exact h.move (hsame i) (h.registered i (Or.inr hi))
  | finish i closes =>
    dsimp only [Sessions.step] at hs
    split_ifs at hs
    cases hs
    exact h.move (hsame i) (stop_streaming _ _)
  | removeHandler i =>
    dsimp only [Sessions.step] at hs
    split_ifs at hs with hi
    cases hs
    have hfits := h i
    rw [hi] at hfits
    exact h.move (fun j hj => List.mem_erase_of_ne hj) hfits
  | initStream hashCode ok closes => cases hs; exact h.initStream hashCode ok closes
  | cancelStream closes => cases hs; exact h.cancelStream closes
  | setServing serving => cases hs; exact h

/-- In every reachable state the handlers are as their phases tell. -/
theorem fitted_of_run {as : List Action} {s : State} (hr : run Sessions.step init as = some s) :
    Fitted s :=
  run_keeps (fun _ _ _ h hs => h.step hs) fitted_init hr

/-- In every reachable state a handler that runs and is streaming is one of the sessions. -/
theorem registered_of_run {as : List Action} {s : State} (hr : run Sessions.step init as = some s) :
    Registered s := (fitted_of_run hr).registered

/-! ### The switch of streams -/

/-- The stream that is switched on is the one of the manager's own model. -/
theorem initStream_currentStream {B : Type*} (s : State) (m : TorrentManager.State B)
    (hm : m.currentStream = s.currentStream) (hashCode : JString) (ok : Bool) (closes : ℕ → Bool) :
    (s.initStream hashCode ok closes).currentStream =
      (m.initStream hashCode ok).currentStream := by
  unfold State.initStream TorrentManager.State.initStream
  split_ifs
  · split
    · rfl
    · split_ifs with hne
      · rfl
      · rename_i current hcurrent
        rw [hcurrent, not_not.1 hne]
  · exact hm.symm

/-- What a request for another torrent should find after the switch: the other sessions have been
stopped, and its own handler has not. -/
structure Switched (before : State) (i : ℕ) (after : State) : Prop where
  others : ∀ j ∈ before.sessions, j ≠ i → (after.handler j).streaming = false
  streaming : (after.handler i).streaming = true
  socketOpen : (after.handler i).socketOpen = true

/-- A switch from another stream cancels every session. -/
theorem initStream_of_switch {s : State} {hashCode currentStream : JString} {closes : ℕ → Bool}
    (hcurrent : s.currentStream = some currentStream) (hne : hashCode ≠ currentStream) :
    s.initStream hashCode true closes =
      { s.cancelStream closes with currentStream := some hashCode } := by
  simp only [State.initStream, hcurrent, if_true, if_pos hne]

/-- Without a stream to switch from, or after an exception, no handler changes. -/
theorem initStream_handler {s : State} {hashCode : JString} {ok : Bool} {closes : ℕ → Bool}
    (h : ok = false ∨ s.currentStream = none) :
    (s.initStream hashCode ok closes).handler = s.handler := by
  rcases h with rfl | h
  · rfl
  · cases ok with
    | false => rfl
    | true => simp only [State.initStream, h, if_true]

/-- A handler whose socket is closed by the switch: it is one of the sessions, and there is another stream to
switch from. -/
structure Cancels (s : State) (hashCode : JString) (ok : Bool) (closes : ℕ → Bool) (i : ℕ) : Prop where
  ok : ok = true
  other : ∃ currentStream, s.currentStream = some currentStream ∧ hashCode ≠ currentStream
  mem : i ∈ s.sessions
  closes : closes i = true

/-- **Switching streams.** In every reachable state, a handler that runs and asks for another
torrent than the current stream goes on as the only one exactly when it was streaming as the only
session, and there was no current stream or a native call threw. -/
theorem switch_iff {as : List Action} {s : State} (hr : run Sessions.step init as = some s) {i : ℕ}
    (hrunning : s.phase i = .running) {hashCode : JString}
    (hother : s.currentStream ≠ some hashCode) (ok : Bool) (closes : ℕ → Bool) :
    Switched s i (s.initStream hashCode ok closes) ↔
      (ok = false ∨ s.currentStream = none) ∧ Switched s i s := by
  by_cases h : ok = false ∨ s.currentStream = none
  · have hhandler : (s.initStream hashCode ok closes).handler = s.handler := initStream_handler h
    rw [and_iff_right h]
    constructor
    · rintro ⟨hothers, hstreaming, hsocket⟩
      rw [hhandler] at hothers hstreaming hsocket
      exact ⟨hothers, hstreaming, hsocket⟩
    · rintro ⟨hothers, hstreaming, hsocket⟩
      exact ⟨by rwa [hhandler], by rwa [hhandler], by rwa [hhandler]⟩
  · -- the requester is a session, so that it is stopped with the others
    obtain ⟨hok, hsome⟩ := not_or.1 h
    obtain rfl : ok = true := by simpa using hok
    obtain ⟨currentStream, hcurrent⟩ := Option.ne_none_iff_exists'.1 hsome
    have hne : hashCode ≠ currentStream := fun he => hother (by rw [hcurrent, he])
    refine ⟨fun hs => ?_, fun hs => absurd hs.1 h⟩
    have hstreaming := hs.streaming
    rw [initStream_of_switch hcurrent hne] at hstreaming
    dsimp only [State.cancelStream] at hstreaming
    split_ifs at hstreaming with hi
    · rw [stop_streaming] at hstreaming
      cases hstreaming
    · exact absurd (registered_of_run hr i (Or.inr hrunning) hstreaming) hi

/-- The first request of a server goes on. -/
theorem switch_iff_first :
    ∃ s, run Sessions.step init [.accept 0, .addHandler 0, .execute 0] = some s ∧
      Switched s 0 (s.initStream (List.replicate 40 'a') true fun _ => true) := by
  have hr : run Sessions.step init [.accept 0, .addHandler 0, .execute 0] = some _ := rfl
  refine ⟨_, hr, (switch_iff hr rfl (by decide) true fun _ => true).2 ⟨Or.inr rfl, ?_, rfl, rfl⟩⟩
  decide

/-- A request for a second torrent is stopped by the switch that it asks for. -/
theorem not_switched_second :
    ∃ s, run Sessions.step init [.accept 0, .addHandler 0, .execute 0,
        .initStream (List.replicate 40 'a') true fun _ => true,
        .accept 1, .addHandler 1, .execute 1] = some s ∧ s.phase 1 = .running ∧
      s.currentStream ≠ some (List.replicate 40 'b') ∧
      ¬ Switched s 1 (s.initStream (List.replicate 40 'b') true fun _ => true) := by
  refine ⟨_, rfl, by decide, by decide, fun h => ?_⟩
  exact absurd h.streaming (by decide)

end P2Player.Sessions
