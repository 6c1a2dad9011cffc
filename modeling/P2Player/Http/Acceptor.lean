import P2Player.Http.Sessions

/-!
# The acceptor and the stop of the HTTP server

The acceptor thread of `NanoHTTPD` tests `serving` first and adds the handler to the sessions in a
step of its own, while `stop` clears `serving` first and then cancels the sessions.

* `Place`, `Stop`, `State`, `step`: the acceptor, one call of `stop` and the workers in any order,
  over the server of `Sessions`;
* `Accounted`, `exists_run_step`: every connection is accounted for by the acceptor, and the server
  goes through states of `Sessions`;
* `Stopped`: the connections accepted before `stop` returned are not streaming any more;
* `always_stopped_iff`: this is so in every state of a run exactly when no handler is added to the
  sessions after `stop` has returned.
-/

namespace P2Player.Acceptor

open Transition Sessions

/-- Where the acceptor is with the connection `i`: in `accept`, before the test of `serving`, in its
first branch before `addHandler` and before `execute`, and in its second branch. -/
inductive Place
  | idle
  | accepted (i : ℕ)
  | serving (i : ℕ)
  | added (i : ℕ)
  | refusing (i : ℕ)
  deriving DecidableEq

/-- The connection that the acceptor has not finished with. -/
def Place.connection : Place → Option ℕ
  | .idle => none
  | .accepted i | .serving i | .added i | .refusing i => some i

/-- The connection whose handler is not one of the sessions yet. -/
def Place.pending : Place → Option ℕ
  | .idle | .added _ => none
  | .accepted i | .serving i | .refusing i => some i

theorem Place.connection_of_pending {place : Place} {i : ℕ} (h : place.pending = some i) :
    place.connection = some i := by
  cases place with
  | idle | added j => cases h
  | accepted j | serving j | refusing j => exact h

/-- Where `stop` is: not called, before `cancelStream`, and back, when so many connections had been
accepted. -/
inductive Stop
  | notCalled
  | cleared
  | returned (accepted : ℕ)
  deriving DecidableEq

/-- The server, its two threads, and the number of connections accepted. -/
structure State where
  server : Sessions.State
  acceptor : Place
  stop : Stop
  accepted : ℕ

/-- The server as it is constructed. -/
def init : State := ⟨Sessions.init, .idle, .notCalled, 0⟩

/-- What a worker does with a handler. -/
inductive Work
  | start
  | openStreamer
  | finish (closes : Bool)
  | removeHandler

/-- The step of the server. -/
def Work.action (i : ℕ) : Work → Sessions.Action
  | .start => .execute i
  | .openStreamer => .openStreamer i
  | .finish closes => .finish i closes
  | .removeHandler => .removeHandler i

/-- The steps of the acceptor, of `stop` and of the workers. -/
inductive Action
  | accept
  | test
  | addHandler
  | execute
  | refuse (closes : Bool)
  | clearServing
  | cancelStream (closes : ℕ → Bool)
  | work (i : ℕ) (w : Work)

/-- One step.  A worker gets a handler only after `execute`. -/
def step (s : State) : Action → Option State
  | .accept =>
    match s.acceptor with
    | .idle =>
      some { s with
        server := s.server.move s.accepted Handler.new .accepted
        acceptor := .accepted s.accepted
        accepted := s.accepted + 1 }
    | _ => none
  | .test =>
    match s.acceptor with
    | .accepted i =>
      some { s with acceptor := if s.server.serving then .serving i else .refusing i }
    | _ => none
  | .addHandler =>
    match s.acceptor with
    | .serving i =>
      some { s with
        server := { s.server.move i (s.server.handler i) .queued with
          sessions := s.server.sessions ++ [i] }
        acceptor := .added i }
    | _ => none
  | .execute =>
    match s.acceptor with
    | .added _ => some { s with acceptor := .idle }
    | _ => none
  | .refuse closes =>
    match s.acceptor with
    | .refusing i =>
      some { s with
        server := s.server.move i ((s.server.handler i).stop closes) .done
        acceptor := .idle }
    | _ => none
  | .clearServing =>
    match s.stop with
    | .notCalled => some { s with server := { s.server with serving := false }, stop := .cleared }
    | _ => none
  | .cancelStream closes =>
    match s.stop with
    | .cleared =>
      some { s with server := s.server.cancelStream closes, stop := .returned s.accepted }
    | _ => none
  | .work i w =>
    if s.acceptor = .added i then none
    else (Sessions.step s.server (w.action i)).map fun server => { s with server := server }

/-! ### What a step can do -/

section Steps

variable {s s' : State}

theorem step_accept (h : step s .accept = some s') :
    s.acceptor = .idle ∧ s' = { s with
      server := s.server.move s.accepted Handler.new .accepted
      acceptor := .accepted s.accepted
      accepted := s.accepted + 1 } := by
  dsimp only [step] at h
  split at h <;> cases h
  rename_i hidle
  exact ⟨hidle, rfl⟩

theorem step_test (h : step s .test = some s') :
    ∃ i, s.acceptor = .accepted i ∧
      s' = { s with acceptor := if s.server.serving then .serving i else .refusing i } := by
  dsimp only [step] at h
  split at h <;> cases h
  rename_i i hi
  exact ⟨i, hi, rfl⟩

theorem step_addHandler (h : step s .addHandler = some s') :
    ∃ i, s.acceptor = .serving i ∧ s' = { s with
      server := { s.server.move i (s.server.handler i) .queued with
        sessions := s.server.sessions ++ [i] }
      acceptor := .added i } := by
  dsimp only [step] at h
  split at h <;> cases h
  rename_i i hi
  exact ⟨i, hi, rfl⟩

theorem step_execute (h : step s .execute = some s') :
    ∃ i, s.acceptor = .added i ∧ s' = { s with acceptor := .idle } := by
  dsimp only [step] at h
  split at h <;> cases h
  rename_i i hi
  exact ⟨i, hi, rfl⟩

theorem step_refuse {closes : Bool} (h : step s (.refuse closes) = some s') :
    ∃ i, s.acceptor = .refusing i ∧ s' = { s with
      server := s.server.move i ((s.server.handler i).stop closes) .done
      acceptor := .idle } := by
  dsimp only [step] at h
  split at h <;> cases h
  rename_i i hi
  exact ⟨i, hi, rfl⟩

theorem step_clearServing (h : step s .clearServing = some s') :
    s.stop = .notCalled ∧
      s' = { s with server := { s.server with serving := false }, stop := .cleared } := by
  dsimp only [step] at h
  split at h <;> cases h
  rename_i hstop
  exact ⟨hstop, rfl⟩

theorem step_cancelStream {closes : ℕ → Bool} (h : step s (.cancelStream closes) = some s') :
    s.stop = .cleared ∧
      s' = { s with server := s.server.cancelStream closes, stop := .returned s.accepted } := by
  dsimp only [step] at h
  split at h <;> cases h
  rename_i hstop
  exact ⟨hstop, rfl⟩

theorem step_work {i : ℕ} {w : Work} (h : step s (.work i w) = some s') :
    s.acceptor ≠ .added i ∧
      ∃ t, Sessions.step s.server (w.action i) = some t ∧ s' = { s with server := t } := by
  dsimp only [step] at h
  split_ifs at h with hadded
  obtain ⟨t, ht, hs'⟩ := Option.map_eq_some_iff.1 h
  exact ⟨hadded, t, ht, hs'.symm⟩

end Steps

/-! ### The server below -/

/-- What the state of the acceptor and of `stop` tells about the connections. -/
structure Accounted (s : State) : Prop where
  pending : ∀ i, s.server.phase i = .accepted ↔ s.acceptor.pending = some i
  absent : ∀ i, s.server.phase i = .absent ↔ s.accepted ≤ i
  added : ∀ i, s.acceptor = .added i → s.server.phase i = .queued
  serving : s.stop ≠ .notCalled → s.server.serving = false
  counted : ∀ n, s.stop = .returned n → n ≤ s.accepted
  returned : ∀ n i, s.stop = .returned n → s.acceptor = .serving i → i < n

theorem accounted_init : Accounted init where
  pending := fun _ => iff_of_false nofun nofun
  absent := fun i => iff_of_true rfl i.zero_le
  added := nofun
  serving := fun h => absurd rfl h
  counted := nofun
  returned := nofun

/-- A worker moves one handler, which the acceptor has left, and may remove it from the sessions. -/
theorem work_cases {t t' : Sessions.State} {i : ℕ} {w : Work}
    (h : Sessions.step t (w.action i) = some t') :
    ∃ handler phase sessions, t' = { t.move i handler phase with sessions := sessions } ∧
      sessions ⊆ t.sessions ∧ (phase ≠ .absent ∧ phase ≠ .accepted) ∧
      t.phase i ≠ .absent ∧ t.phase i ≠ .accepted := by
  cases w with
  | start | openStreamer | finish closes =>
    dsimp only [Work.action, Sessions.step] at h
    split_ifs at h with hi
    cases h
    exact ⟨_, _, _, rfl, List.Subset.refl _, by decide, by simp [hi], by simp [hi]⟩
  | removeHandler =>
    dsimp only [Work.action, Sessions.step] at h
    split_ifs at h with hi
    cases h
    exact ⟨_, _, _, rfl, List.erase_subset, by decide, by simp [hi], by simp [hi]⟩

/-- A move between two phases other than `q` makes no handler enter or leave `q`. -/
theorem update_phase_iff {phase : ℕ → Phase} {i : ℕ} {p q : Phase} (hp : p ≠ q) (hi : phase i ≠ q)
    (j : ℕ) : Function.update phase i p j = q ↔ phase j = q := by
  rcases eq_or_ne j i with rfl | hj
  · rw [Function.update_self]
    exact iff_of_false hp hi
  · rw [Function.update_of_ne hj]

/-- A step of the acceptor that moves its connection. -/
theorem Accounted.move {s : State} (h : Accounted s) {i : ℕ} (hi : s.acceptor.pending = some i)
    (handler : Handler) {phase : Phase} (hphase : phase ≠ .accepted ∧ phase ≠ .absent) {place : Place}
    (hplace : place.pending = none) (hadded : ∀ j, place = .added j → j = i ∧ phase = .queued)
    (sessions : List ℕ) :
    Accounted { s with
      server := { s.server.move i handler phase with sessions := sessions }, acceptor := place } where
  pending := fun j => by
    dsimp only [Sessions.State.move]
    rw [hplace]
    rcases eq_or_ne j i with rfl | hj
    · rw [Function.update_self]
      exact iff_of_false hphase.1 (by simp)
    · rw [Function.update_of_ne hj, h.pending, hi]
      simpa using hj.symm
  absent := fun j => by
    have haccepted := (h.pending i).2 hi
    exact (update_phase_iff hphase.2 (by rw [haccepted]; decide) j).trans (h.absent j)
  added := fun j hj => by
    obtain ⟨rfl, rfl⟩ := hadded j hj
    exact Function.update_self ..
  serving := h.serving
  counted := h.counted
  returned := fun n j _ hj => by
    rw [show place = .serving j from hj] at hplace
    cases hplace

theorem Accounted.step {s s' : State} {a : Action} (h : Accounted s)
    (hs : Acceptor.step s a = some s') : Accounted s' := by
  cases a with
  | accept =>
    obtain ⟨hidle, rfl⟩ := step_accept hs
    constructor
    · intro i
      dsimp only [Sessions.State.move, Place.pending]
      rcases eq_or_ne i s.accepted with rfl | hi
      · simp
      · rw [Function.update_of_ne hi, h.pending, hidle]
        simpa [Place.pending] using hi.symm
    · intro i
      dsimp only [Sessions.State.move]
      rcases eq_or_ne i s.accepted with rfl | hi
      · simp
      · rw [Function.update_of_ne hi, h.absent]
        omega
    · nofun
    · exact h.serving
    · exact fun n hn => (h.counted n hn).trans (Nat.le_succ _)
    · nofun
  | test =>
    obtain ⟨i, hi, rfl⟩ := step_test hs
    have hpending : ∀ b, (if b = true then Place.serving i else .refusing i).pending = some i := by
      rintro (_ | _) <;> rfl
    constructor
    · intro j
      rw [hpending, h.pending, hi]
      rfl
    · exact h.absent
    · intro j hj
      have hplace := congrArg Place.pending hj
      rw [hpending] at hplace
      cases hplace
    · exact h.serving
    · exact h.counted
    · intro n j hn hj
      have hserving := h.serving (by rw [hn]; exact Stop.noConfusion)
      rw [hserving] at hj
      cases hj
  | addHandler =>
    obtain ⟨i, hi, rfl⟩ := step_addHandler hs
    refine h.move (by rw [hi]; rfl) _ (by decide) rfl (fun j hj => ?_) _
    cases hj
    exact ⟨rfl, rfl⟩
  | execute =>
    obtain ⟨i, hi, rfl⟩ := step_execute hs
    refine ⟨fun j => ?_, h.absent, nofun, h.serving, h.counted, nofun⟩
    rw [h.pending, hi]
    rfl
  | refuse closes =>
    obtain ⟨i, hi, rfl⟩ := step_refuse hs
    exact h.move (by rw [hi]; rfl) _ (by decide) rfl (fun _ hj => by cases hj) _
  | clearServing =>
    obtain ⟨hstop, rfl⟩ := step_clearServing hs
    exact ⟨h.pending, h.absent, h.added, fun _ => rfl, fun _ hn => (by cases hn),
      fun _ _ hn => (by cases hn)⟩
  | cancelStream closes =>
    obtain ⟨hcleared, rfl⟩ := step_cancelStream hs
    refine ⟨h.pending, h.absent, h.added, fun _ => h.serving (by rw [hcleared]; decide), ?_, ?_⟩
    · intro n hn
      cases hn
      exact le_rfl
    intro n i hn hi
    cases hn
    have haccepted := (h.pending i).2 (by rw [show s.acceptor = .serving i from hi]; rfl)
    have habsent := mt (h.absent i).2
    rw [haccepted] at habsent
    exact not_le.1 (habsent (by decide))
  | work i w =>
    obtain ⟨hadded, t, ht, rfl⟩ := step_work hs
    obtain ⟨handler, phase, sessions, rfl, -, hphase, hi⟩ := work_cases ht
    constructor
    · exact fun j => (update_phase_iff hphase.2 hi.2 j).trans (h.pending j)
    · exact fun j => (update_phase_iff hphase.1 hi.1 j).trans (h.absent j)
    · intro j hj
      have hne : j ≠ i := fun he => hadded (he ▸ hj)
      exact (Function.update_of_ne hne ..).trans (h.added j hj)
    · exact h.serving
    · exact h.counted
    · exact h.returned

/-- A step of the acceptor, of `stop` or of a worker is none, one or several steps of the server: the
test of `serving` is part of its steps `addHandler` and `refuse`. -/
theorem exists_run_step {s s' : State} {a : Action} (h : Accounted s)
    (hs : Acceptor.step s a = some s') :
    ∃ as, run Sessions.step s.server as = some s'.server := by
  cases a with
  | accept =>
    obtain ⟨hidle, rfl⟩ := step_accept hs
    refine ⟨[.accept s.accepted], ?_⟩
    simp [run_cons, Sessions.step, (h.absent _).2 le_rfl]
  | test =>
    obtain ⟨i, hi, rfl⟩ := step_test hs
    exact ⟨[], rfl⟩
  | addHandler =>
    obtain ⟨i, hi, rfl⟩ := step_addHandler hs
    have haccepted : s.server.phase i = .accepted := (h.pending i).2 (by rw [hi]; rfl)
    refine ⟨[.setServing true, .addHandler i, .setServing s.server.serving], ?_⟩
    simp [run_cons, Sessions.step, haccepted, Sessions.State.move]
  | execute =>
    obtain ⟨i, hi, rfl⟩ := step_execute hs
    exact ⟨[], rfl⟩
  | refuse closes =>
    obtain ⟨i, hi, rfl⟩ := step_refuse hs
    have haccepted : s.server.phase i = .accepted := (h.pending i).2 (by rw [hi]; rfl)
    refine ⟨[.setServing false, .refuse i closes, .setServing s.server.serving], ?_⟩
    simp [run_cons, Sessions.step, haccepted, Sessions.State.move]
  | clearServing =>
    obtain ⟨hstop, rfl⟩ := step_clearServing hs
    exact ⟨[.setServing false], rfl⟩
  | cancelStream closes =>
    obtain ⟨hcleared, rfl⟩ := step_cancelStream hs
    exact ⟨[.cancelStream closes], rfl⟩
  | work i w =>
    obtain ⟨hadded, t, ht, rfl⟩ := step_work hs
    exact ⟨[w.action i], run_cons_eq_some.2 ⟨t, ht, rfl⟩⟩

/-- The connections are accounted for, and the server is in a reachable state. -/
def Reaches (s : State) : Prop :=
  Accounted s ∧ ∃ as, run Sessions.step Sessions.init as = some s.server

theorem reaches_init : Reaches init := ⟨accounted_init, [], rfl⟩

theorem Reaches.step {s s' : State} {a : Action} (h : Reaches s)
    (hs : Acceptor.step s a = some s') : Reaches s' := by
  obtain ⟨haccounted, as, has⟩ := h
  obtain ⟨bs, hbs⟩ := exists_run_step haccounted hs
  exact ⟨haccounted.step hs, as ++ bs, by rw [run_append_of_eq has, hbs]⟩

theorem Reaches.fitted {s : State} (h : Reaches s) : Fitted s.server := by
  obtain ⟨-, as, has⟩ := h
  exact fitted_of_run has

/-! ### What `stop` leaves behind -/

/-- Once `stop` has returned, and the acceptor has finished with the connections accepted before, none
of them is streaming. -/
def Stopped (s : State) : Prop :=
  ∀ n, s.stop = .returned n → (∀ i < n, s.acceptor.connection ≠ some i) →
    ∀ i < n, (s.server.handler i).streaming = false

/-- No handler is added to the sessions when `stop` has returned. -/
def InTime (s : State) (a : Action) : Prop :=
  a = .addHandler → ∀ n, s.stop ≠ .returned n

/-- Where handlers are added in time, `stop` leaves no session. -/
def Cancelled (s : State) : Prop :=
  Reaches s ∧ ∀ n, s.stop = .returned n → s.server.sessions = []

theorem cancelled_init : Cancelled init := ⟨reaches_init, nofun⟩

theorem Cancelled.step {s s' : State} {a : Action} (h : Cancelled s) (hin : InTime s a)
    (hs : Acceptor.step s a = some s') : Cancelled s' := by
  refine ⟨h.1.step hs, fun n hn => ?_⟩
  have hsessions := h.2 n
  cases a with
  | accept =>
    obtain ⟨hidle, rfl⟩ := step_accept hs
    exact hsessions hn
  | test =>
    obtain ⟨i, hi, rfl⟩ := step_test hs
    exact hsessions hn
  | execute =>
    obtain ⟨i, hi, rfl⟩ := step_execute hs
    exact hsessions hn
  | refuse closes =>
    obtain ⟨i, hi, rfl⟩ := step_refuse hs
    exact hsessions hn
  | addHandler =>
    obtain ⟨i, hi, rfl⟩ := step_addHandler hs
    exact absurd hn (hin rfl n)
  | clearServing =>
    obtain ⟨hstop, rfl⟩ := step_clearServing hs
    cases hn
  | cancelStream closes =>
    obtain ⟨hcleared, rfl⟩ := step_cancelStream hs
    rfl
  | work i w =>
    obtain ⟨hadded, t, ht, rfl⟩ := step_work hs
    obtain ⟨handler, phase, sessions, rfl, hsubset, -⟩ := work_cases ht
    rw [hsessions hn] at hsubset
    exact List.subset_nil.1 hsubset

/-- A handler that has got past `addHandler` or was refused is stopped when no session is left. -/
theorem Cancelled.stopped {s : State} (h : Cancelled s) : Stopped s := by
  intro n hn hfinished i hi
  obtain ⟨hreaches, hsessions⟩ := h
  have hsession : i ∉ s.server.sessions := by rw [hsessions n hn]; exact List.not_mem_nil
  have hfits := hreaches.fitted i
  cases hphase : s.server.phase i with
  | absent =>
    have hle := (hreaches.1.absent i).1 hphase
    exact absurd (hreaches.1.counted n hn) (not_le.2 (hi.trans_le' hle))
  | accepted =>
    have hpending := (hreaches.1.pending i).1 hphase
    exact absurd (Place.connection_of_pending hpending) (hfinished i hi)
  | queued | running =>
    rw [hphase] at hfits
    exact Bool.eq_false_iff.2 fun hstreaming => hsession (hfits hstreaming)
  | stopped | done =>
    rw [hphase] at hfits
    exact hfits

/-- In a run that adds its handlers in time, all that `stop` has found is stopped. -/
theorem always_stopped_of_inTime {as : List Action} (h : Along Acceptor.step InTime init as) :
    Always Acceptor.step Stopped init as :=
  (Along.always (fun _ _ _ hc hin hs => Cancelled.step hc hin hs) cancelled_init h).mono
    fun _ => Cancelled.stopped

/-! ### A handler that is added late -/

/-- The acceptor has added a handler that `stop` has not found, and has not handed it to a worker. -/
structure Late (s : State) (n i : ℕ) : Prop where
  reaches : Reaches s
  stop : s.stop = .returned n
  lt : i < n
  acceptor : s.acceptor = .added i
  streaming : (s.server.handler i).streaming = true

/-- Until `execute` no step stops the handler, and `execute` leaves it streaming. -/
theorem Late.step {s s' : State} {a : Action} {n i : ℕ} (h : Late s n i)
    (hs : Acceptor.step s a = some s') : Late s' n i ∨ ¬ Stopped s' := by
  cases a with
  | accept | test | addHandler | refuse closes =>
    -- not enabled: the acceptor is before `execute`
    simp only [Acceptor.step, h.acceptor] at hs
    cases hs
  | clearServing | cancelStream closes =>
    simp only [Acceptor.step, h.stop] at hs
    cases hs
  | execute =>
    obtain ⟨j, hj, rfl⟩ := step_execute hs
    refine Or.inr fun hstopped => ?_
    have hstreaming := hstopped n h.stop (fun _ _ => nofun) i h.lt
    rw [h.streaming] at hstreaming
    cases hstreaming
  | work j w =>
    have hreaches := h.reaches.step hs
    obtain ⟨hadded, t, ht, rfl⟩ := step_work hs
    have hne : i ≠ j := fun he => hadded (he ▸ h.acceptor)
    refine Or.inl ⟨hreaches, h.stop, h.lt, h.acceptor, ?_⟩
    obtain ⟨handler, phase, sessions, rfl, -⟩ := work_cases ht
    rw [← h.streaming]
    exact congrArg Handler.streaming (Function.update_of_ne hne ..)

theorem Late.not_always {s s' : State} {as : List Action} {n i : ℕ} (h : Late s n i)
    (hr : run Acceptor.step s as = some s') (hidle : s'.acceptor = .idle) :
    ¬ Always Acceptor.step Stopped s as := by
  induction as generalizing s with
  | nil =>
    cases hr
    rw [h.acceptor] at hidle
    cases hidle
  | cons a as ih =>
    obtain ⟨s₁, hs, hr⟩ := run_cons_eq_some.1 hr
    intro halways
    have hrest := halways.2 s₁ hs
    rcases h.step hs with hlate | hstopped
    · exact ih hlate hr hrest
    · exact hstopped hrest.first

/-- The handler that the acceptor adds after `stop` has returned is such a handler. -/
theorem late_of_addHandler {s s' : State} {n : ℕ} (h : Reaches s) (hn : s.stop = .returned n)
    (hs : Acceptor.step s .addHandler = some s') : ∃ i, Late s' n i := by
  have hreaches := h.step hs
  obtain ⟨i, hi, rfl⟩ := step_addHandler hs
  have hfits := h.fitted i
  rw [(h.1.pending i).2 (by rw [hi]; rfl)] at hfits
  refine ⟨i, hreaches, hn, h.1.returned n i hn hi, rfl, ?_⟩
  exact (congrArg Handler.streaming (Function.update_self ..)).trans hfits.1

/-- **Stopping the server.** In a run that adds no handler to the sessions after `stop` has returned,
the connections accepted before are stopped in every state in which the acceptor has finished with
them; and when the acceptor is through with its connections at the end, only in such a run. -/
theorem always_stopped_iff {as : List Action} {s : State}
    (hr : run Acceptor.step init as = some s) :
    (Along Acceptor.step InTime init as → Always Acceptor.step Stopped init as) ∧
      (s.acceptor = .idle → Always Acceptor.step Stopped init as →
        Along Acceptor.step InTime init as) := by
  refine ⟨always_stopped_of_inTime, fun hidle halways => ?_⟩
  by_contra hnot
  obtain ⟨as₁, a, as₂, s₁, s₂, rfl, -, hr₁, hin, hs, hr₂⟩ := exists_of_not_along hnot hr
  have hreaches : Reaches s₁ := run_keeps (fun _ _ _ h hs => h.step hs) reaches_init hr₁
  simp only [InTime, Classical.not_imp, not_forall, not_not] at hin
  obtain ⟨rfl, n, hn⟩ := hin
  obtain ⟨i, hlate⟩ := late_of_addHandler hreaches hn hs
  exact hlate.not_always hr₂ hidle ((halways.of_append hr₁).2 s₂ hs)

/-- A connection that is served, and one that comes after `stop`. -/
theorem always_stopped_iff_refused :
    ∃ s, run Acceptor.step init [.accept, .test, .addHandler, .execute, .clearServing,
        .cancelStream fun _ => true, .accept, .test, .refuse true] = some s ∧
      s.stop = .returned 1 ∧
      Always Acceptor.step Stopped init [.accept, .test, .addHandler, .execute, .clearServing,
        .cancelStream fun _ => true, .accept, .test, .refuse true] := by
  have hr : run Acceptor.step init [.accept, .test, .addHandler, .execute, .clearServing,
    .cancelStream fun _ => true, .accept, .test, .refuse true] = some _ := rfl
  refine ⟨_, hr, rfl, (always_stopped_iff hr).1 ?_⟩
  refine along_cons nofun rfl (along_cons nofun rfl (along_cons (fun _ _ => nofun) rfl ?_))
  refine along_cons nofun rfl (along_cons nofun rfl (along_cons nofun rfl ?_))
  exact along_cons nofun rfl (along_cons nofun rfl (along_cons nofun rfl trivial))

/-- `stop` runs between the test of `serving` and `addHandler`. -/
theorem not_stopped_late :
    ∃ s, run Acceptor.step init [.accept, .test, .clearServing, .cancelStream fun _ => true,
        .addHandler, .execute] = some s ∧
      s.stop = .returned 1 ∧ s.acceptor = .idle ∧ ¬ Stopped s := by
  refine ⟨_, rfl, rfl, rfl, fun h => ?_⟩
  have hstreaming := h 1 rfl (fun _ _ => nofun) 0 one_pos
  exact absurd hstreaming (by decide)

end P2Player.Acceptor
