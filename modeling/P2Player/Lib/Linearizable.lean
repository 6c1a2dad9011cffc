import P2Player.Lib.Transition

/-!
# Linearizable objects

An object is given by what its operations do one at a time.  The atomic object runs them for several
threads: a call is invoked, takes effect at one moment, and responds with its result.  A history of
invocations and responses is linearizable when it is what is seen of such a run.

* `Object`, `Event`: sequential behaviour, and what is seen of a concurrent one;
* `Step`, `State`, `step`: the atomic object, with the calls in the order in which they take effect;
* `Legal`, `Linearizes.legal`: this order is a sequential run with the same results;
* `Linearizes`: a history with the state that the atomic object is in after it;
* `exists_run_of_simulation`: a system simulates another one when each of its steps is matched by
  steps of the other one that look the same.
-/

namespace P2Player.Concurrent

open Transition

variable {T Op Res σ : Type*}

/-- A sequential object: its first value, and the next value and the result of an operation. -/
structure Object (Op Res σ : Type*) where
  init : σ
  apply : Op → σ → σ × Res

/-- What a thread shows of a call. -/
inductive Event (T Op Res : Type*)
  | invoke (t : T) (op : Op)
  | respond (t : T) (res : Res)

/-! ### The atomic object -/

/-- A step of a call; its effect is not seen. -/
inductive Step (T Op Res : Type*)
  | invoke (t : T) (op : Op)
  | linearize (t : T)
  | respond (t : T) (res : Res)

/-- What is seen of a step. -/
def Step.event : Step T Op Res → Option (Event T Op Res)
  | .invoke t op => some (.invoke t op)
  | .linearize _ => none
  | .respond t res => some (.respond t res)

/-- Where a thread is: outside, before the effect of its call, or behind it. -/
inductive Status (Op Res : Type*)
  | idle
  | pending (op : Op)
  | done (res : Res)

/-- A call that has taken effect. -/
structure Entry (T Op Res : Type*) where
  thread : T
  op : Op
  res : Res

/-- The value, the threads, and the calls in the order of their effects. -/
structure State (T Op Res σ : Type*) where
  value : σ
  status : T → Status Op Res
  log : List (Entry T Op Res)

variable (obj : Object Op Res σ)

/-- No thread has called the object. -/
def init : State T Op Res σ := ⟨obj.init, fun _ => .idle, []⟩

/-- One step. -/
def step [DecidableEq T] [DecidableEq Res] (s : State T Op Res σ) :
    Step T Op Res → Option (State T Op Res σ)
  | .invoke t op =>
    match s.status t with
    | .idle => some { s with status := Function.update s.status t (.pending op) }
    | _ => none
  | .linearize t =>
    match s.status t with
    | .pending op => some
        { value := (obj.apply op s.value).1
          status := Function.update s.status t (.done (obj.apply op s.value).2)
          log := s.log ++ [⟨t, op, (obj.apply op s.value).2⟩] }
    | _ => none
  | .respond t res =>
    match s.status t with
    | .done res' =>
      if res' = res then some { s with status := Function.update s.status t .idle } else none
    | _ => none

/-- The history is what is seen of a run of the atomic object to the state `s`. -/
def Linearizes [DecidableEq T] [DecidableEq Res] (history : List (Event T Op Res))
    (s : State T Op Res σ) : Prop :=
  ∃ w, run (step obj) (init obj) w = some s ∧ w.filterMap Step.event = history

/-- The calls, one after the other, lead from `v` to `v'` with their results. -/
def Legal (v : σ) : List (Entry T Op Res) → σ → Prop
  | [], v' => v' = v
  | e :: log, v' => (obj.apply e.op v).2 = e.res ∧ Legal (obj.apply e.op v).1 log v'

variable {obj}

theorem legal_append {v v' : σ} {log log' : List (Entry T Op Res)} :
    Legal obj v (log ++ log') v' ↔ ∃ u, Legal obj v log u ∧ Legal obj u log' v' := by
  induction log generalizing v with
  | nil => exact ⟨fun h => ⟨v, rfl, h⟩, fun ⟨u, hu, h⟩ => hu ▸ h⟩
  | cons e log ih =>
    rw [List.cons_append, Legal, ih]
    exact ⟨fun ⟨h, u, hu, h'⟩ => ⟨u, ⟨h, hu⟩, h'⟩, fun ⟨u, ⟨h, hu⟩, h'⟩ => ⟨h, u, hu, h'⟩⟩

/-- A step appends at most its own call. -/
theorem legal_step [DecidableEq T] [DecidableEq Res] {s s' : State T Op Res σ} {a : Step T Op Res}
    (h : Legal obj obj.init s.log s.value) (ha : step obj s a = some s') :
    Legal obj obj.init s'.log s'.value := by
  cases a with
  | invoke t op =>
    simp only [step] at ha
    split at ha <;> cases ha
    exact h
  | linearize t =>
    simp only [step] at ha
    split at ha <;> cases ha
    exact legal_append.2 ⟨s.value, h, rfl, rfl⟩
  | respond t res =>
    simp only [step] at ha
    split at ha
    · split_ifs at ha
      cases ha
      exact h
    · cases ha

/-- The calls that have taken effect make up a sequential run. -/
theorem Linearizes.legal [DecidableEq T] [DecidableEq Res] {history : List (Event T Op Res)}
    {s : State T Op Res σ} (h : Linearizes obj history s) : Legal obj obj.init s.log s.value := by
  obtain ⟨w, hrun, -⟩ := h
  have h0 : Legal obj obj.init (init (T := T) obj).log (init (T := T) obj).value := rfl
  exact run_keeps (I := fun s => Legal obj obj.init s.log s.value)
    (fun _ _ _ h ha => legal_step h ha) h0 hrun

/-! ### Simulation -/

/-- **Simulation rule.** When each step of a system, by an action that satisfies `P`, is matched by
steps of another system that look the same, so is each run. -/
theorem exists_run_of_simulation {S A S' A' E : Type*} {step : S → A → Option S}
    {step' : S' → A' → Option S'} {event : A → Option E} {event' : A' → Option E} {P : A → Prop}
    {R : S → S' → Prop}
    (hsim : ∀ s a s₁ t, R s t → P a → step s a = some s₁ →
      ∃ w t₁, run step' t w = some t₁ ∧ w.filterMap event' = (event a).toList ∧ R s₁ t₁)
    {s s₁ : S} {t : S'} {as : List A} (hR : R s t) (hP : ∀ a ∈ as, P a)
    (hrun : run step s as = some s₁) :
    ∃ w t₁, run step' t w = some t₁ ∧ w.filterMap event' = as.filterMap event ∧ R s₁ t₁ := by
  induction as generalizing s t with
  | nil =>
    cases hrun
    exact ⟨[], t, rfl, rfl, hR⟩
  | cons a as ih =>
    obtain ⟨s₂, ha, hrun⟩ := run_cons_eq_some.1 hrun
    obtain ⟨w, t₂, hw, hevent, hR₂⟩ := hsim s a s₂ t hR (hP a List.mem_cons_self) ha
    obtain ⟨w', t₁, hw', hevent', hR₁⟩ :=
      ih hR₂ (fun b hb => hP b (List.mem_cons_of_mem a hb)) hrun
    refine ⟨w ++ w', t₁, ?_, ?_, hR₁⟩
    · rw [run_append_of_eq hw, hw']
    · rw [List.filterMap_append, hevent, hevent', List.filterMap_cons]
      cases event a <;> rfl

end P2Player.Concurrent
