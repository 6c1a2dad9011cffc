import P2Player.Lib.Transition

/-!
# Waiting for the parts of a download

`MultipartDownloader.download` submits one `PartDownloader` for each part and then takes the futures
from an iterator, waiting up to 100 ms at a time for the current one.

* `State`, `Action`, `step`: the tasks of the executor, the iterator and the current future `r`, with
  one turn of the wait loop, the end of a task and an interrupt as atomic steps;
* `AwaitsLast`: no wait for the last future times out;
* `download_sound`: in every run whose waits meet `AwaitsLast`, `download` returns true only when all
  parts have completed.
-/

namespace P2Player.MultipartDownloader

open Transition

/-- The task of a `PartDownloader`. -/
inductive Part
  | running
  | completed
  | failed
  | cancelled
  deriving DecidableEq

/-- How `download` ends. -/
inductive Outcome
  | returned (result : Bool)
  | interrupted
  deriving DecidableEq

/-- The calls of the `DownloadListener`. -/
inductive Event
  | onStart
  | onProgress
  | onCompleted
  | onFailed
  deriving DecidableEq

/-- The tasks, the number of futures taken from the iterator, the current future `r`, the outcome
once there is one, and the listener's calls so far. -/
structure State where
  parts : ℕ → Part
  taken : ℕ
  r : Option ℕ
  outcome : Option Outcome
  events : List Event

/-- The parts have been submitted.  `locked` tells whether the target could not be deleted, which is
reported as a failure without ending the download. -/
def init (locked : Bool) : State where
  parts _ := .running
  taken := 0
  r := none
  outcome := none
  events := if locked then [.onStart, .onFailed, .onProgress] else [.onStart, .onProgress]

/-- A task ends, the wait loop makes a turn, or the thread in the wait loop is interrupted. -/
inductive Action
  | finish (i : ℕ) (ok : Bool)
  | poll
  | interrupt

/-- `r` once `iter.next()` has been called if it was null. -/
def State.current (s : State) : ℕ := s.r.getD s.taken

/-- The number of futures taken from the iterator by then. -/
def State.advanced (s : State) : ℕ := if s.r = none then s.taken + 1 else s.taken

/-- One step.  A turn of the loop first asks `iter.hasNext()`, then waits for the current future:
the wait ends with the task's result, or times out when the task is still running. -/
def step (numPart : ℕ) (s : State) : Action → Option State
  | .finish i ok =>
    if i < numPart ∧ s.parts i = .running then
      some { s with parts := Function.update s.parts i (if ok then .completed else .failed) }
    else none
  | .poll =>
    if s.outcome = none then
      if s.taken < numPart then
        match s.parts s.current with
        | .completed => some { s with taken := s.advanced, r := none }
        | .running =>
          some { s with
            taken := s.advanced
            r := some s.current
            events := s.events ++ [.onProgress] }
        | .failed =>
          some { s with
            taken := s.advanced
            r := some s.current
            outcome := some (.returned false)
            events := s.events ++ [.onFailed] }
        | .cancelled => none
      else
        some { s with
          outcome := some (.returned true)
          events := s.events ++ [.onCompleted] }
    else none
  | .interrupt =>
    if s.outcome = none ∧ s.taken < numPart ∧ s.parts s.current = .running then
      some { s with
        parts := fun i => if s.parts i = .running then .cancelled else s.parts i
        outcome := some .interrupted }
    else none

/-- A wait that takes the last future, or finds it taken, does not time out. -/
def AwaitsLast (numPart : ℕ) (s : State) : Action → Prop
  | .poll => s.taken < numPart → s.advanced = numPart → s.parts s.current ≠ .running
  | _ => True

/-- Before the loop ends, every future taken has completed but for the current one, which is not
the last. -/
structure Inv (numPart : ℕ) (s : State) : Prop where
  r_eq : ∀ i, s.r = some i → s.outcome = none → i + 1 = s.taken ∧ s.taken < numPart
  taken_le : s.taken ≤ numPart
  done : s.outcome = none → ∀ i < s.taken, s.r ≠ some i → s.parts i = .completed
  returned : s.outcome = some (.returned true) → ∀ i < numPart, s.parts i = .completed
  notified : .onCompleted ∈ s.events → s.outcome = some (.returned true)

variable {numPart : ℕ}

theorem inv_init (locked : Bool) : Inv numPart (init locked) := by
  refine ⟨by simp [init], by simp [init], by simp [init], by simp [init], ?_⟩
  cases locked <;> simp [init]

/-- The future a turn waits for: the current one, or the next of the iterator. -/
theorem Inv.current_add_one {s : State} (hi : Inv numPart s) (hout : s.outcome = none) :
    s.current + 1 = s.advanced := by
  unfold State.current State.advanced
  cases hr : s.r with
  | none => rfl
  | some i => exact (hi.r_eq i hr hout).1

theorem Inv.done_of_lt_current {s : State} (hi : Inv numPart s) (hout : s.outcome = none) {i : ℕ}
    (h : i < s.current) : s.parts i = .completed := by
  have hcur := hi.current_add_one hout
  unfold State.current State.advanced at *
  cases hr : s.r with
  | none =>
    simp only [hr, Option.getD_none] at h
    exact hi.done hout i h (by simp [hr])
  | some j =>
    simp only [hr, Option.getD_some, reduceCtorEq, if_false] at h hcur
    exact hi.done hout i (by omega) (by simp [hr]; omega)

/-- A task that ends was running, so none of the completed ones changes. -/
theorem Inv.finish {s : State} (hi : Inv numPart s) {i : ℕ} {v : Part}
    (h : s.parts i = .running) : Inv numPart { s with parts := Function.update s.parts i v } := by
  have hkeep : ∀ j, s.parts j = .completed → Function.update s.parts i v j = .completed := by
    intro j hj
    rw [Function.update_of_ne (by rintro rfl; rw [h] at hj; cases hj), hj]
  exact ⟨hi.r_eq, hi.taken_le, fun ho j hj hr => hkeep j (hi.done ho j hj hr),
    fun ho j hj => hkeep j (hi.returned ho j hj), hi.notified⟩

theorem Inv.notMem_onCompleted {s : State} (hi : Inv numPart s) (hout : s.outcome = none) :
    Event.onCompleted ∉ s.events := fun hm => by
  rw [hi.notified hm] at hout
  cases hout

theorem advanced_le {s : State} (h : s.taken < numPart) : s.advanced ≤ numPart := by
  unfold State.advanced
  split_ifs <;> omega

/-! One turn of the loop for each result of the current future. -/

/-- The future has completed, and the next turn takes another one. -/
theorem Inv.takeCompleted {s : State} (hi : Inv numPart s) (hout : s.outcome = none)
    (hnext : s.taken < numPart) (hdone : s.parts s.current = .completed) :
    Inv numPart { s with taken := s.advanced, r := none } := by
  have hcur := hi.current_add_one hout
  refine ⟨by simp, advanced_le hnext, fun _ i hlt _ => ?_, by simp [hout], fun h => ?_⟩
  · rcases Nat.lt_or_ge i s.current with h | h
    · exact hi.done_of_lt_current hout h
    · have hi' : i = s.current := by
        dsimp only at hlt
        omega
      rw [hi']
      exact hdone
  · exact absurd h (hi.notMem_onCompleted hout)

/-- The wait has timed out.  The loop goes on when this future is not the last one. -/
theorem Inv.timeOut {s : State} (hi : Inv numPart s) (hout : s.outcome = none)
    (hlast : s.advanced < numPart) :
    Inv numPart { s with
      taken := s.advanced, r := some s.current, events := s.events ++ [.onProgress] } := by
  have hcur := hi.current_add_one hout
  refine ⟨?_, hlast.le, fun _ i hlt hne => ?_, by simp [hout], fun h => ?_⟩
  · rintro i ⟨⟩ -
    exact ⟨hcur, hlast⟩
  · have hne' : i ≠ s.current := fun he => hne (by rw [he])
    exact hi.done_of_lt_current hout (by dsimp only at hlt; omega)
  · exact absurd (by simpa using h) (hi.notMem_onCompleted hout)

theorem Inv.fail {s : State} (hi : Inv numPart s) (hout : s.outcome = none)
    (hnext : s.taken < numPart) :
    Inv numPart { s with
      taken := s.advanced, r := some s.current, outcome := some (.returned false),
      events := s.events ++ [.onFailed] } := by
  refine ⟨by simp, advanced_le hnext, by simp, by simp, fun h => ?_⟩
  exact absurd (by simpa using h) (hi.notMem_onCompleted hout)

/-- The iterator is exhausted, so no future is current. -/
theorem Inv.finishLoop {s : State} (hi : Inv numPart s) (hout : s.outcome = none)
    (hnext : ¬ s.taken < numPart) :
    Inv numPart { s with
      outcome := some (.returned true), events := s.events ++ [.onCompleted] } := by
  have htaken : s.taken = numPart := le_antisymm hi.taken_le (by omega)
  have hr : ∀ i, s.r ≠ some i := fun i h => by
    have := (hi.r_eq i h hout).2
    omega
  refine ⟨fun i h => absurd h (hr i), hi.taken_le, by simp, fun _ i hlt => ?_, fun _ => rfl⟩
  exact hi.done hout i (by omega) (hr i)

/-- **Step lemma.** -/
theorem inv_step (s : State) (a : Action) (s' : State) (hi : Inv numPart s)
    (hc : AwaitsLast numPart s a) (hs : step numPart s a = some s') : Inv numPart s' := by
  cases a with
  | finish i ok =>
    simp only [step] at hs
    split at hs
    · rename_i h
      cases hs
      exact hi.finish h.2
    · cases hs
  | poll =>
    simp only [step] at hs
    split at hs
    · rename_i hout
      split at hs
      · rename_i hnext
        split at hs
        · rename_i hdone
          cases hs
          exact hi.takeCompleted hout hnext hdone
        · rename_i hrun
          cases hs
          -- the future that is still running is not the last one
          exact hi.timeOut hout (lt_of_le_of_ne (advanced_le hnext) fun he => hc hnext he hrun)
        · cases hs
          exact hi.fail hout hnext
        · cases hs
      · rename_i hnext
        cases hs
        exact hi.finishLoop hout hnext
    · cases hs
  | interrupt =>
    simp only [step] at hs
    split at hs
    · rename_i h
      cases hs
      exact ⟨by simp, hi.taken_le, by simp, by simp,
        fun hm => absurd hm (hi.notMem_onCompleted h.1)⟩
    · cases hs

/-- A wait for the last future that times out is the end of the loop: `download` returns true with
the last part still running. -/
theorem returns_early {s s' : State} {a : Action} (hc : ¬ AwaitsLast numPart s a)
    (hs : step numPart s a = some s') :
    ∃ s'', step numPart s' .poll = some s'' ∧ s''.outcome = some (.returned true) ∧
      s''.parts s.current = .running := by
  cases a with
  | poll =>
    simp only [AwaitsLast, not_forall, not_not] at hc
    obtain ⟨hnext, hlast, hrun⟩ := hc
    simp only [step] at hs
    split at hs
    · rename_i hout
      rw [hrun] at hs
      cases hs
      refine ⟨{ s with
        taken := s.advanced
        r := some s.current
        outcome := some (.returned true)
        events := s.events ++ [.onProgress] ++ [.onCompleted] }, ?_, rfl, hrun⟩
      simp only [step, hout, hlast, lt_irrefl, if_true, if_false]
    · cases hs
  | _ => exact absurd trivial hc

/-- **`download` returns true, and calls `onCompleted`, only when every part has completed**, in
every run in which no wait for the last future times out; and a run in which one does goes on to
return true while that part is running. -/
theorem download_sound {locked : Bool} {as : List Action} {s : State}
    (hc : Along (step numPart) (AwaitsLast numPart) (init locked) as)
    (hr : run (step numPart) (init locked) as = some s) :
    (s.outcome = some (.returned true) ∨ .onCompleted ∈ s.events →
      ∀ i < numPart, s.parts i = .completed) ∧
    ∀ a s', ¬ AwaitsLast numPart s a → step numPart s a = some s' →
      ∃ s'', step numPart s' .poll = some s'' ∧ s''.outcome = some (.returned true) ∧
        ∃ i, s''.parts i = .running := by
  have hi : Inv numPart s := hc.keeps inv_step (inv_init locked) hr
  refine ⟨fun h => hi.returned (h.elim id hi.notified), fun a s' hn hs => ?_⟩
  obtain ⟨s'', h1, h2, h3⟩ := returns_early hn hs
  exact ⟨s'', h1, h2, _, h3⟩

/-- Two parts, the last of which ends before it is waited for. -/
theorem download_sound_two_parts :
    ∃ s, run (step 2) (init false) [.poll, .finish 1 true, .finish 0 true, .poll, .poll, .poll] =
      some s ∧ s.outcome = some (.returned true) ∧ ∀ i < 2, s.parts i = .completed := by
  refine ⟨_, rfl, rfl, (@download_sound 2 false [.poll, .finish 1 true, .finish 0 true, .poll, .poll,
    .poll] _ ?_ rfl).1 (Or.inl rfl)⟩
  refine along_cons (fun _ h => absurd h (by decide)) rfl <| along_cons trivial rfl <|
    along_cons trivial rfl <| along_cons (fun _ h => absurd h (by decide)) rfl <|
    along_cons (fun _ _ => by decide) rfl <| along_cons (fun h => absurd h (by decide)) rfl trivial

/-- One part that takes longer than a single wait. -/
theorem not_download_sound_slow_part :
    ∃ s, run (step 1) (init false) [.poll, .poll] = some s ∧
      s.outcome = some (.returned true) ∧ .onCompleted ∈ s.events ∧ s.parts 0 = .running :=
  ⟨_, rfl, rfl, by simp, rfl⟩

end P2Player.MultipartDownloader
