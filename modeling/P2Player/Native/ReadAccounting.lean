import P2Player.Native.PieceDataQueue

/-!
# The readers that a piece is read for

`setTorrentReadPiece` counts its caller as a reader of the piece and has the piece read from disk
when it is the first one.  `readTorrentPiece` pops the alert with the data, again and again until
there is one, and the last reader takes it out of the queue.  A reader whose stream is cancelled
stops without having popped an alert.

* `State`, `Action`, `step`: any number of readers over one queue, with the reads in flight;
* `Accounting`: the count, the read in flight and the alert of each piece agree with its readers;
* `read_accounting`: this holds in every run whose readers go on until they have popped an alert;
* `read_released_iff`: a piece whose readers are done is left without a count and an alert exactly
  when none of them stopped before.
-/

namespace P2Player

namespace PieceDataQueue

theorem setRead_of_none {q : PieceDataQueue} {p : ℤ} (h : q.pieceFlag p = none) :
    q.setRead p = (true, { q with pieceFlag := Function.update q.pieceFlag p (some 1) }) := by
  simp only [setRead, h]

theorem setRead_of_some {q : PieceDataQueue} {p n : ℤ} (h : q.pieceFlag p = some n) :
    q.setRead p =
      (false, { q with pieceFlag := Function.update q.pieceFlag p (some (n + 1)) }) := by
  simp only [setRead, h]

theorem pop_of_none {q : PieceDataQueue} {p : ℤ} (h : q.queue p = none) :
    q.pop p = (none, false, q) := by
  simp only [pop, h]

theorem pop_of_missing {q : PieceDataQueue} {p : ℤ} {alrt : ℕ} (h : q.queue p = some alrt)
    (hf : q.pieceFlag p = none) : q.pop p = (some alrt, false, q) := by
  simp only [pop, h, hf]

theorem pop_of_one {q : PieceDataQueue} {p : ℤ} {alrt : ℕ} (h : q.queue p = some alrt)
    (hf : q.pieceFlag p = some 1) :
    q.pop p = (some alrt, true,
      { queue := Function.update q.queue p none
        pieceFlag := Function.update q.pieceFlag p none }) := by
  simp only [pop, h, hf, if_true]

theorem pop_of_some {q : PieceDataQueue} {p n : ℤ} {alrt : ℕ} (h : q.queue p = some alrt)
    (hf : q.pieceFlag p = some n) (hn : n ≠ 1) :
    q.pop p = (some alrt, false,
      { q with pieceFlag := Function.update q.pieceFlag p (some (n - 1)) }) := by
  simp only [pop, h, hf, if_neg hn]

end PieceDataQueue

namespace PieceReaders

open Transition

/-- The queue with its readers.  `inFlight` counts the reads of a piece that the session has not
answered, `readers` are those that have called `set_read` and will go on until they get an alert,
`abandoned` counts those that have stopped before.  Alerts are numbered as they are pushed, and
`returned` has what the calls of `pop` returned besides null, with `is_remove`. -/
structure State where
  data : PieceDataQueue
  inFlight : ℤ → ℕ
  readers : ℤ → Finset ℕ
  abandoned : ℤ → ℕ
  next : ℕ
  returned : List (ℕ × Bool)

/-- No piece has been asked for. -/
def init : State := ⟨PieceDataQueue.empty, fun _ => 0, fun _ => ∅, fun _ => 0, 0, []⟩

/-- The atomic steps: the two calls of a reader, the handling of a `read_piece_alert`, and the end
of a reader that is not going to call again. -/
inductive Action
  | setRead (r : ℕ) (p : ℤ)
  | push (p : ℤ)
  | pop (r : ℕ) (p : ℤ)
  | abandon (r : ℕ) (p : ℤ)
  deriving DecidableEq

/-- One step.  An alert is pushed for a read in flight only. -/
def step (s : State) : Action → Option State
  | .setRead r p =>
    if r ∈ s.readers p then none
    else
      let (start, data) := s.data.setRead p
      some { s with
        data := data
        inFlight := if start then Function.update s.inFlight p (s.inFlight p + 1) else s.inFlight
        readers := Function.update s.readers p (insert r (s.readers p)) }
  | .push p =>
    if 0 < s.inFlight p then
      some { s with
        data := (s.data.push p s.next).2
        inFlight := Function.update s.inFlight p (s.inFlight p - 1)
        next := s.next + 1 }
    else none
  | .pop r p =>
    if r ∈ s.readers p then
      match s.data.pop p with
      -- the reader calls again
      | (none, _, data) => some { s with data := data }
      | (some alrt, isRemove, data) =>
        some { s with
          data := data
          readers := Function.update s.readers p ((s.readers p).erase r)
          returned := (alrt, isRemove) :: s.returned }
    else none
  | .abandon r p =>
    if r ∈ s.readers p then
      some { s with
        readers := Function.update s.readers p ((s.readers p).erase r)
        abandoned := Function.update s.abandoned p (s.abandoned p + 1) }
    else none

/-- A reader does not stop before it has an alert. -/
def Persists (_ : State) : Action → Prop
  | .abandon _ _ => False
  | _ => True

/-! ### The accounts -/

/-- The readers of a piece that have not got an alert. -/
def State.outstanding (s : State) (p : ℤ) : ℕ := (s.readers p).card + s.abandoned p

/-- The count of a piece with `n` readers. -/
def flagOf (n : ℕ) : Option ℤ := if n = 0 then none else some n

/-- The number of alerts that wait for a piece. -/
def State.queued (s : State) (p : ℤ) : ℕ := if (s.data.queue p).isSome then 1 else 0

/-- The accounts of one piece: its count is the number of its outstanding readers, and there is one
read in flight or alert for it as long as there are such readers. -/
structure PieceAccount (s : State) (p : ℤ) : Prop where
  flag : s.data.pieceFlag p = flagOf (s.outstanding p)
  single : s.inFlight p + s.queued p = if s.outstanding p = 0 then 0 else 1

/-- The accounts of all alerts: one that waits waits for one piece and has not been handed out for
good, one that does not wait any more has been, once. -/
structure AlertAccount (s : State) : Prop where
  queued_lt : ∀ p alrt, s.data.queue p = some alrt → alrt < s.next
  queued_inj : ∀ p p' alrt, s.data.queue p = some alrt → s.data.queue p' = some alrt → p = p'
  returned_queued : ∀ p alrt, s.data.queue p = some alrt → s.returned.count (alrt, true) = 0
  returned_new : ∀ alrt, s.next ≤ alrt → s.returned.count (alrt, true) = 0
  returned_gone : ∀ alrt < s.next, (∀ p, s.data.queue p ≠ some alrt) →
    s.returned.count (alrt, true) = 1

/-- The accounts of the queue. -/
structure Accounting (s : State) : Prop where
  piece : ∀ p, PieceAccount s p
  alerts : AlertAccount s

theorem accounting_init : Accounting init := by
  refine ⟨fun p => ⟨rfl, rfl⟩, ?_⟩
  constructor <;> simp [init, PieceDataQueue.empty]

theorem flagOf_zero : flagOf 0 = none := rfl

theorem flagOf_succ (n : ℕ) : flagOf (n + 1) = some (n + 1 : ℤ) := by
  unfold flagOf
  rw [if_neg (Nat.succ_ne_zero n)]
  rfl

theorem flagOf_eq_none {n : ℕ} : flagOf n = none ↔ n = 0 := by
  cases n with
  | zero => simp [flagOf_zero]
  | succ n => simp [flagOf_succ]

theorem flagOf_eq_some {n : ℕ} {z : ℤ} : flagOf n = some z ↔ n ≠ 0 ∧ z = n := by
  cases n with
  | zero => simp [flagOf_zero]
  | succ n => simp [flagOf_succ, eq_comm]

theorem queued_eq_zero {s : State} {p : ℤ} : s.queued p = 0 ↔ s.data.queue p = none := by
  unfold State.queued
  cases s.data.queue p <;> simp

theorem queued_eq_one {s : State} {p : ℤ} :
    s.queued p = 1 ↔ ∃ alrt, s.data.queue p = some alrt := by
  unfold State.queued
  cases s.data.queue p <;> simp

/-! ### What a step does -/

/-- The piece that an action is about. -/
def Action.piece : Action → ℤ
  | .setRead _ p => p
  | .push p => p
  | .pop _ p => p
  | .abandon _ p => p

/-- The two states say the same about the piece `p`. -/
structure Agree (s s' : State) (p : ℤ) : Prop where
  flag : s'.data.pieceFlag p = s.data.pieceFlag p
  queue : s'.data.queue p = s.data.queue p
  inFlight : s'.inFlight p = s.inFlight p
  readers : s'.readers p = s.readers p
  abandoned : s'.abandoned p = s.abandoned p

theorem step_setRead_none {s s' : State} {r : ℕ} {p : ℤ} (hf : s.data.pieceFlag p = none) :
    step s (.setRead r p) = some s' ↔ r ∉ s.readers p ∧
      s' = { s with
        data.pieceFlag := Function.update s.data.pieceFlag p (some 1)
        inFlight := Function.update s.inFlight p (s.inFlight p + 1)
        readers := Function.update s.readers p (insert r (s.readers p)) } := by
  simp only [step, PieceDataQueue.setRead_of_none hf, if_true, Option.ite_none_left_eq_some,
    Option.some.injEq, @eq_comm _ s']

theorem step_setRead_some {s s' : State} {r : ℕ} {p n : ℤ} (hf : s.data.pieceFlag p = some n) :
    step s (.setRead r p) = some s' ↔ r ∉ s.readers p ∧
      s' = { s with
        data.pieceFlag := Function.update s.data.pieceFlag p (some (n + 1))
        readers := Function.update s.readers p (insert r (s.readers p)) } := by
  simp only [step, PieceDataQueue.setRead_of_some hf, Bool.false_eq_true, if_false,
    Option.ite_none_left_eq_some, Option.some.injEq, @eq_comm _ s']

theorem step_push {s s' : State} {p : ℤ} :
    step s (.push p) = some s' ↔ 0 < s.inFlight p ∧
      s' = { s with
        data.queue := Function.update s.data.queue p (some s.next)
        inFlight := Function.update s.inFlight p (s.inFlight p - 1)
        next := s.next + 1 } := by
  simp only [step, PieceDataQueue.push, Option.ite_none_right_eq_some, Option.some.injEq,
    @eq_comm _ s']

theorem step_pop_none {s s' : State} {r : ℕ} {p : ℤ} (hq : s.data.queue p = none) :
    step s (.pop r p) = some s' ↔ r ∈ s.readers p ∧ s' = s := by
  simp only [step, PieceDataQueue.pop_of_none hq, Option.ite_none_right_eq_some, Option.some.injEq,
    @eq_comm _ s']

theorem step_pop_missing {s s' : State} {r : ℕ} {p : ℤ} {alrt : ℕ}
    (hq : s.data.queue p = some alrt) (hf : s.data.pieceFlag p = none) :
    step s (.pop r p) = some s' ↔ r ∈ s.readers p ∧
      s' = { s with
        readers := Function.update s.readers p ((s.readers p).erase r)
        returned := (alrt, false) :: s.returned } := by
  simp only [step, PieceDataQueue.pop_of_missing hq hf, Option.ite_none_right_eq_some,
    Option.some.injEq, @eq_comm _ s']

theorem step_pop_one {s s' : State} {r : ℕ} {p : ℤ} {alrt : ℕ}
    (hq : s.data.queue p = some alrt) (hf : s.data.pieceFlag p = some 1) :
    step s (.pop r p) = some s' ↔ r ∈ s.readers p ∧
      s' = { s with
        data.queue := Function.update s.data.queue p none
        data.pieceFlag := Function.update s.data.pieceFlag p none
        readers := Function.update s.readers p ((s.readers p).erase r)
        returned := (alrt, true) :: s.returned } := by
  simp only [step, PieceDataQueue.pop_of_one hq hf, Option.ite_none_right_eq_some,
    Option.some.injEq, @eq_comm _ s']

theorem step_pop_some {s s' : State} {r : ℕ} {p n : ℤ} {alrt : ℕ}
    (hq : s.data.queue p = some alrt) (hf : s.data.pieceFlag p = some n) (hn : n ≠ 1) :
    step s (.pop r p) = some s' ↔ r ∈ s.readers p ∧
      s' = { s with
        data.pieceFlag := Function.update s.data.pieceFlag p (some (n - 1))
        readers := Function.update s.readers p ((s.readers p).erase r)
        returned := (alrt, false) :: s.returned } := by
  simp only [step, PieceDataQueue.pop_of_some hq hf hn, Option.ite_none_right_eq_some,
    Option.some.injEq, @eq_comm _ s']

theorem step_abandon {s s' : State} {r : ℕ} {p : ℤ} :
    step s (.abandon r p) = some s' ↔ r ∈ s.readers p ∧
      s' = { s with
        readers := Function.update s.readers p ((s.readers p).erase r)
        abandoned := Function.update s.abandoned p (s.abandoned p + 1) } := by
  simp only [step, Option.ite_none_right_eq_some, Option.some.injEq,
    @eq_comm _ s']

theorem step_agree {s s' : State} {a : Action} (hs : step s a = some s') {p' : ℤ}
    (hp : p' ≠ a.piece) : Agree s s' p' := by
  cases a with
  | setRead r p =>
    change p' ≠ p at hp
    cases hf : s.data.pieceFlag p with
    | none =>
      obtain ⟨-, rfl⟩ := (step_setRead_none hf).1 hs
      constructor <;> simp [hp]
    | some n =>
      obtain ⟨-, rfl⟩ := (step_setRead_some hf).1 hs
      constructor <;> simp [hp]
  | push p =>
    change p' ≠ p at hp
    obtain ⟨-, rfl⟩ := step_push.1 hs
    constructor <;> simp [hp]
  | pop r p =>
    change p' ≠ p at hp
    cases hq : s.data.queue p with
    | none =>
      obtain ⟨-, rfl⟩ := (step_pop_none hq).1 hs
      exact ⟨rfl, rfl, rfl, rfl, rfl⟩
    | some alrt =>
      cases hf : s.data.pieceFlag p with
      | none =>
        obtain ⟨-, rfl⟩ := (step_pop_missing hq hf).1 hs
        constructor <;> simp [hp]
      | some n =>
        rcases eq_or_ne n 1 with rfl | hn
        · obtain ⟨-, rfl⟩ := (step_pop_one hq hf).1 hs
          constructor <;> simp [hp]
        · obtain ⟨-, rfl⟩ := (step_pop_some hq hf hn).1 hs
          constructor <;> simp [hp]
  | abandon r p =>
    change p' ≠ p at hp
    obtain ⟨-, rfl⟩ := step_abandon.1 hs
    constructor <;> simp [hp]

/-- The accounts of a piece depend on what the state says about it. -/
theorem PieceAccount.of_agree {s s' : State} {p : ℤ} (h : PieceAccount s p) (hag : Agree s s' p) :
    PieceAccount s' p := by
  have hout : s'.outstanding p = s.outstanding p := by
    unfold State.outstanding
    rw [hag.readers, hag.abandoned]
  have hqueued : s'.queued p = s.queued p := by
    unfold State.queued
    rw [hag.queue]
  exact ⟨by rw [hag.flag, hout, h.flag], by rw [hag.inFlight, hqueued, hout, h.single]⟩

/-! ### Every step keeps the accounts -/

theorem outstanding_insert {s s' : State} {r : ℕ} {p : ℤ} (hr : r ∉ s.readers p)
    (hreaders : s'.readers p = insert r (s.readers p))
    (habandoned : s'.abandoned p = s.abandoned p) : s'.outstanding p = s.outstanding p + 1 := by
  unfold State.outstanding
  rw [hreaders, habandoned, Finset.card_insert_of_notMem hr]
  omega

theorem outstanding_erase {s s' : State} {r : ℕ} {p : ℤ} (hr : r ∈ s.readers p)
    (hreaders : s'.readers p = (s.readers p).erase r)
    (habandoned : s'.abandoned p = s.abandoned p) : s.outstanding p = s'.outstanding p + 1 := by
  unfold State.outstanding
  rw [hreaders, habandoned, ← Finset.card_erase_add_one hr]
  omega

/-- A reader joins: the first one starts the read. -/
theorem PieceAccount.setRead {s s' : State} {r : ℕ} {p : ℤ} (h : PieceAccount s p)
    (hs : step s (.setRead r p) = some s') : PieceAccount s' p := by
  have hsum := h.single
  have hflag := h.flag
  cases hf : s.data.pieceFlag p with
  | none =>
    obtain ⟨hr, hs'⟩ := (step_setRead_none hf).1 hs
    have hout : s'.outstanding p = s.outstanding p + 1 :=
      outstanding_insert hr (by simp [hs']) (by simp [hs'])
    have h0 : s.outstanding p = 0 := flagOf_eq_none.1 (by rw [← hflag, hf])
    have hqueued : s'.queued p = s.queued p := by simp [hs', State.queued]
    rw [if_pos h0] at hsum
    refine ⟨?_, ?_⟩
    · rw [hout, h0, flagOf_succ]
      simp [hs']
    · rw [hqueued, hout, if_neg (Nat.succ_ne_zero _)]
      simp only [hs', Function.update_self]
      omega
  | some n =>
    obtain ⟨hr, hs'⟩ := (step_setRead_some hf).1 hs
    have hout : s'.outstanding p = s.outstanding p + 1 :=
      outstanding_insert hr (by simp [hs']) (by simp [hs'])
    have hn : s.outstanding p ≠ 0 ∧ n = s.outstanding p := flagOf_eq_some.1 (by rw [← hflag, hf])
    have hqueued : s'.queued p = s.queued p := by simp [hs', State.queued]
    rw [if_neg hn.1] at hsum
    refine ⟨?_, ?_⟩
    · rw [hout, flagOf_succ, ← hn.2]
      simp [hs']
    · rw [hqueued, hout, if_neg (Nat.succ_ne_zero _)]
      simp only [hs']
      exact hsum

/-- The alert of the read in flight arrives: no alert was waiting. -/
theorem PieceAccount.push {s s' : State} {p : ℤ} (h : PieceAccount s p)
    (hs : step s (.push p) = some s') : PieceAccount s' p := by
  have hsum := h.single
  obtain ⟨hpos, hs'⟩ := step_push.1 hs
  have hout : s'.outstanding p = s.outstanding p := by simp [hs', State.outstanding]
  have hne : s.outstanding p ≠ 0 := fun h0 => by rw [if_pos h0] at hsum; omega
  have hqueued : s'.queued p = 1 := by simp [hs', State.queued]
  rw [if_neg hne] at hsum
  refine ⟨?_, ?_⟩
  · rw [hout, ← h.flag, hs']
  · rw [hqueued, hout, if_neg hne]
    simp only [hs', Function.update_self]
    omega

/-- A reader gets the alert: the last one takes it out of the queue. -/
theorem PieceAccount.pop {s s' : State} {r : ℕ} {p : ℤ} (h : PieceAccount s p)
    (hs : step s (.pop r p) = some s') : PieceAccount s' p := by
  have hsum := h.single
  have hflag := h.flag
  cases hq : s.data.queue p with
  | none =>
    obtain ⟨-, rfl⟩ := (step_pop_none hq).1 hs
    exact h
  | some alrt =>
    have hqueued : s.queued p = 1 := queued_eq_one.2 ⟨alrt, hq⟩
    have hne : s.outstanding p ≠ 0 := fun h0 => by rw [if_pos h0] at hsum; omega
    have hf : s.data.pieceFlag p = some (s.outstanding p : ℤ) := by
      rw [hflag, flagOf_eq_some]
      exact ⟨hne, rfl⟩
    rw [if_neg hne] at hsum
    rcases eq_or_ne (s.outstanding p : ℤ) 1 with h1 | h1
    · rw [h1] at hf
      obtain ⟨hr, hs'⟩ := (step_pop_one hq hf).1 hs
      have hout : s.outstanding p = s'.outstanding p + 1 :=
        outstanding_erase hr (by simp [hs']) (by simp [hs'])
      have h0 : s'.outstanding p = 0 := by omega
      refine ⟨?_, ?_⟩
      · rw [h0, flagOf_zero]
        simp [hs']
      · rw [if_pos h0, queued_eq_zero.2 (by simp [hs'])]
        simp only [hs']
        omega
    · obtain ⟨hr, hs'⟩ := (step_pop_some hq hf h1).1 hs
      have hout : s.outstanding p = s'.outstanding p + 1 :=
        outstanding_erase hr (by simp [hs']) (by simp [hs'])
      have hne' : s'.outstanding p ≠ 0 := by omega
      refine ⟨?_, ?_⟩
      · rw [flagOf_eq_some.2 ⟨hne', rfl⟩]
        simp only [hs', Function.update_self, Option.some.injEq] at hout ⊢
        omega
      · rw [if_neg hne', queued_eq_one.2 ⟨alrt, by simp [hs', hq]⟩]
        simp only [hs']
        omega

/-- A reader that stops leaves its count behind. -/
theorem PieceAccount.abandon {s s' : State} {r : ℕ} {p : ℤ} (h : PieceAccount s p)
    (hs : step s (.abandon r p) = some s') : PieceAccount s' p := by
  obtain ⟨hr, hs'⟩ := step_abandon.1 hs
  have hout : s'.outstanding p = s.outstanding p := by
    unfold State.outstanding
    simp only [hs', Function.update_self]
    rw [← Finset.card_erase_add_one hr]
    omega
  refine ⟨?_, ?_⟩
  · rw [hout, ← h.flag, hs']
  · rw [hout, ← h.single, hs']
    rfl

/-- The accounts of the alerts depend on the alerts that wait, their number and the results. -/
theorem AlertAccount.of_queue {s s' : State} (h : AlertAccount s)
    (hqueue : s'.data.queue = s.data.queue) (hnext : s'.next = s.next)
    (hreturned : ∀ alrt, s'.returned.count (alrt, true) = s.returned.count (alrt, true)) :
    AlertAccount s' := by
  constructor
  · rw [hqueue, hnext]; exact h.queued_lt
  · rw [hqueue]; exact h.queued_inj
  · rw [hqueue]; intro p alrt hq; rw [hreturned]; exact h.returned_queued p alrt hq
  · rw [hnext]; intro alrt hlt; rw [hreturned]; exact h.returned_new alrt hlt
  · rw [hqueue, hnext]; intro alrt hlt hq; rw [hreturned]; exact h.returned_gone alrt hlt hq

theorem AlertAccount.setRead {s s' : State} {r : ℕ} {p : ℤ} (h : AlertAccount s)
    (hs : step s (.setRead r p) = some s') : AlertAccount s' := by
  cases hf : s.data.pieceFlag p with
  | none =>
    obtain ⟨-, rfl⟩ := (step_setRead_none hf).1 hs
    exact h.of_queue rfl rfl fun _ => rfl
  | some n =>
    obtain ⟨-, rfl⟩ := (step_setRead_some hf).1 hs
    exact h.of_queue rfl rfl fun _ => rfl

/-- The new alert waits for a piece that had none. -/
theorem AlertAccount.push {s s' : State} {p : ℤ} (h : AlertAccount s)
    (hq : s.data.queue p = none) (hs : step s (.push p) = some s') : AlertAccount s' := by
  obtain ⟨-, rfl⟩ := step_push.1 hs
  have hcases : ∀ p' alrt, Function.update s.data.queue p (some s.next) p' = some alrt →
      p' = p ∧ alrt = s.next ∨ s.data.queue p' = some alrt := by
    intro p' alrt h'
    rcases eq_or_ne p' p with rfl | hp
    · rw [Function.update_self, Option.some.injEq] at h'
      exact Or.inl ⟨rfl, h'.symm⟩
    · rw [Function.update_of_ne hp] at h'
      exact Or.inr h'
  constructor
  · intro p' alrt h'
    rcases hcases p' alrt h' with ⟨-, rfl⟩ | h'
    · exact Nat.lt_succ_self _
    · exact Nat.lt_succ_of_lt (h.queued_lt p' alrt h')
  · intro p₁ p₂ alrt h₁ h₂
    rcases hcases p₁ alrt h₁ with ⟨rfl, rfl⟩ | h₁' <;> rcases hcases p₂ _ h₂ with ⟨rfl, h₂'⟩ | h₂'
    · rfl
    · exact absurd (h.queued_lt p₂ _ h₂') (Nat.lt_irrefl _)
    · exact absurd (h.queued_lt p₁ _ h₁') (h₂' ▸ Nat.lt_irrefl _)
    · exact h.queued_inj p₁ p₂ alrt h₁' h₂'
  · intro p' alrt h'
    rcases hcases p' alrt h' with ⟨-, rfl⟩ | h'
    · exact h.returned_new s.next le_rfl
    · exact h.returned_queued p' alrt h'
  · intro alrt hle
    exact h.returned_new alrt (Nat.le_of_succ_le hle)
  · intro alrt hlt hgone
    have hne : alrt ≠ s.next := fun he => hgone p (by rw [he]; exact Function.update_self ..)
    refine h.returned_gone alrt (lt_of_le_of_ne (Nat.le_of_lt_succ hlt) hne) fun p' h' => ?_
    have hp : p' ≠ p := fun he => by rw [he, hq] at h'; cases h'
    exact hgone p' (by rw [← h']; exact Function.update_of_ne hp _ _)

/-- The last reader is handed the alert for good. -/
theorem AlertAccount.pop_one {s s' : State} {p : ℤ} {alrt : ℕ} (h : AlertAccount s)
    (hq : s.data.queue p = some alrt) (hqueue : s'.data.queue = Function.update s.data.queue p none)
    (hnext : s'.next = s.next) (hreturned : s'.returned = (alrt, true) :: s.returned) :
    AlertAccount s' := by
  have hcases : ∀ p' alrt', s'.data.queue p' = some alrt' →
      s.data.queue p' = some alrt' ∧ alrt' ≠ alrt := by
    intro p' alrt' h'
    rw [hqueue] at h'
    have hp : p' ≠ p := fun he => by rw [he, Function.update_self] at h'; cases h'
    rw [Function.update_of_ne hp] at h'
    exact ⟨h', fun he => hp (h.queued_inj p' p alrt (he ▸ h') hq)⟩
  have hcount : ∀ alrt', alrt' ≠ alrt →
      s'.returned.count (alrt', true) = s.returned.count (alrt', true) := by
    intro alrt' hne
    rw [hreturned, List.count_cons_of_ne]
    exact fun he => hne (Prod.ext_iff.1 he).1.symm
  constructor
  · intro p' alrt' h'
    rw [hnext]
    exact h.queued_lt p' alrt' (hcases p' alrt' h').1
  · intro p₁ p₂ alrt' h₁ h₂
    exact h.queued_inj p₁ p₂ alrt' (hcases p₁ alrt' h₁).1 (hcases p₂ alrt' h₂).1
  · intro p' alrt' h'
    obtain ⟨h', hne⟩ := hcases p' alrt' h'
    rw [hcount alrt' hne]
    exact h.returned_queued p' alrt' h'
  · intro alrt' hle
    rw [hnext] at hle
    rw [hcount alrt' fun he => absurd (h.queued_lt p alrt hq) (by omega)]
    exact h.returned_new alrt' hle
  · intro alrt' hlt hgone
    rw [hnext] at hlt
    rcases eq_or_ne alrt' alrt with rfl | hne
    · rw [hreturned, List.count_cons_self, h.returned_queued p alrt' hq]
    · rw [hcount alrt' hne]
      refine h.returned_gone alrt' hlt fun p' h' => ?_
      have hp : p' ≠ p := fun he => hne (by rw [he, hq] at h'; exact (Option.some.inj h').symm)
      exact hgone p' (by rw [hqueue, Function.update_of_ne hp, h'])

theorem AlertAccount.pop {s s' : State} {r : ℕ} {p : ℤ} (h : AlertAccount s)
    (hs : step s (.pop r p) = some s') : AlertAccount s' := by
  have hcount : ∀ alrt alrt' : ℕ, ((alrt, false) :: s.returned).count (alrt', true) =
      s.returned.count (alrt', true) := fun alrt alrt' =>
    List.count_cons_of_ne (by simp)
  cases hq : s.data.queue p with
  | none =>
    obtain ⟨-, rfl⟩ := (step_pop_none hq).1 hs
    exact h
  | some alrt =>
    cases hf : s.data.pieceFlag p with
    | none =>
      obtain ⟨-, rfl⟩ := (step_pop_missing hq hf).1 hs
      exact h.of_queue rfl rfl (hcount alrt)
    | some n =>
      rcases eq_or_ne n 1 with rfl | hn
      · obtain ⟨-, rfl⟩ := (step_pop_one hq hf).1 hs
        exact h.pop_one hq rfl rfl rfl
      · obtain ⟨-, rfl⟩ := (step_pop_some hq hf hn).1 hs
        exact h.of_queue rfl rfl (hcount alrt)

theorem AlertAccount.abandon {s s' : State} {r : ℕ} {p : ℤ} (h : AlertAccount s)
    (hs : step s (.abandon r p) = some s') : AlertAccount s' := by
  obtain ⟨-, rfl⟩ := step_abandon.1 hs
  exact h.of_queue rfl rfl fun _ => rfl

/-- While a read is in flight no alert waits for its piece. -/
theorem PieceAccount.queue_eq_none {s : State} {p : ℤ} (h : PieceAccount s p)
    (hpos : 0 < s.inFlight p) : s.data.queue p = none := by
  have hsum := h.single
  have hle : (if s.outstanding p = 0 then 0 else 1) ≤ 1 := by split_ifs <;> omega
  exact queued_eq_zero.1 (by omega)

/-- Every step keeps the accounts. -/
theorem Accounting.step {s s' : State} {a : Action} (h : Accounting s)
    (hs : PieceReaders.step s a = some s') : Accounting s' := by
  refine ⟨fun p' => ?_, ?_⟩
  · rcases eq_or_ne p' a.piece with rfl | hp
    · cases a with
      | setRead r p => exact (h.piece p).setRead hs
      | push p => exact (h.piece p).push hs
      | pop r p => exact (h.piece p).pop hs
      | abandon r p => exact (h.piece p).abandon hs
    · exact (h.piece p').of_agree (step_agree hs hp)
  · cases a with
    | setRead r p => exact h.alerts.setRead hs
    | push p => exact h.alerts.push ((h.piece p).queue_eq_none (step_push.1 hs).1) hs
    | pop r p => exact h.alerts.pop hs
    | abandon r p => exact h.alerts.abandon hs

/-- Every run keeps the accounts. -/
theorem accounting_of_run {as : List Action} {s : State}
    (hr : run PieceReaders.step init as = some s) : Accounting s :=
  run_keeps (fun _ _ _ h hs => h.step hs) accounting_init hr

/-! ### Readers that go on until they have an alert -/

theorem step_pop_mem {s s' : State} {r : ℕ} {p : ℤ} (hs : step s (.pop r p) = some s') :
    r ∈ s.readers p := by
  dsimp only [step] at hs
  split_ifs at hs with hr
  exact hr

theorem step_pop_abandoned {s s' : State} {r : ℕ} {p : ℤ} (hs : step s (.pop r p) = some s') :
    s'.abandoned = s.abandoned := by
  dsimp only [step] at hs
  split_ifs at hs
  split at hs <;> cases hs <;> rfl

theorem step_setRead_abandoned {s s' : State} {r : ℕ} {p : ℤ}
    (hs : step s (.setRead r p) = some s') : s'.abandoned = s.abandoned := by
  cases hf : s.data.pieceFlag p with
  | none => rw [((step_setRead_none hf).1 hs).2]
  | some n => rw [((step_setRead_some hf).1 hs).2]

/-- A piece is abandoned by the end of one of its readers only. -/
theorem step_abandoned_eq_zero {s s' : State} {a : Action} {p : ℤ} (hs : step s a = some s') :
    s'.abandoned p = 0 ↔ s.abandoned p = 0 ∧ ∀ r, a ≠ .abandon r p := by
  cases a with
  | setRead r p' => simp [step_setRead_abandoned hs]
  | push p' => simp [(step_push.1 hs).2]
  | pop r p' => simp [step_pop_abandoned hs]
  | abandon r p' =>
    rw [(step_abandon.1 hs).2]
    rcases eq_or_ne p p' with rfl | hp
    · simp
    · simp [hp, hp.symm]

theorem run_abandoned_eq_zero {s s' : State} {as : List Action} {p : ℤ}
    (hr : run step s as = some s') :
    s'.abandoned p = 0 ↔ s.abandoned p = 0 ∧ ∀ r, .abandon r p ∉ as := by
  induction as generalizing s with
  | nil => cases hr; simp
  | cons a as ih =>
    obtain ⟨s₁, h₁, hr⟩ := run_cons_eq_some.1 hr
    rw [ih hr, step_abandoned_eq_zero h₁]
    simp only [List.mem_cons, not_or, forall_and, ne_eq, @eq_comm _ a, and_assoc]

/-- A run whose readers all go on abandons no piece. -/
theorem abandoned_of_persists {s : State} {as : List Action} (hc : Along step Persists init as)
    (hr : run step init as = some s) (p : ℤ) : s.abandoned p = 0 :=
  Along.keeps (I := fun s => s.abandoned p = 0)
    (fun _ a _ h hc hs => (step_abandoned_eq_zero hs).2 ⟨h, by rintro r rfl; exact hc⟩) rfl hc hr

/-- An alert waits for a reader of its piece as long as the readers go on. -/
theorem step_keeps_alert {s s' : State} {a : Action} {r alrt : ℕ} {p : ℤ} (ha : Accounting s)
    (hq : s.data.queue p = some alrt) (hr : r ∈ s.readers p) (hc : Persists s a)
    (hne : a ≠ .pop r p) (hs : step s a = some s') :
    s'.data.queue p = some alrt ∧ r ∈ s'.readers p := by
  by_cases hp : p = a.piece
  swap
  · have hag := step_agree hs hp
    rw [hag.queue, hag.readers]
    exact ⟨hq, hr⟩
  cases a with
  | setRead r' p' =>
    obtain rfl : p = p' := hp
    cases hf : s.data.pieceFlag p with
    | none =>
      obtain ⟨-, rfl⟩ := (step_setRead_none hf).1 hs
      exact ⟨hq, by simp [hr]⟩
    | some n =>
      obtain ⟨-, rfl⟩ := (step_setRead_some hf).1 hs
      exact ⟨hq, by simp [hr]⟩
  | push p' =>
    obtain rfl : p = p' := hp
    rw [(ha.piece p).queue_eq_none (step_push.1 hs).1] at hq
    cases hq
  | pop r' p' =>
    obtain rfl : p = p' := hp
    have hne' : r ≠ r' := fun he => hne (by rw [he])
    have hpair : 1 < s.outstanding p := by
      have hr' := (step_pop_mem hs)
      have hcard : 1 < (s.readers p).card := Finset.one_lt_card.2 ⟨r, hr, r', hr', hne'⟩
      exact lt_of_lt_of_le hcard (Nat.le_add_right _ _)
    have hf : s.data.pieceFlag p = some (s.outstanding p : ℤ) := by
      rw [(ha.piece p).flag, flagOf_eq_some]
      exact ⟨by omega, rfl⟩
    obtain ⟨-, rfl⟩ := (step_pop_some hq hf (by omega)).1 hs
    exact ⟨hq, by simp [hr, hne']⟩
  | abandon r' p' => exact hc.elim

/-- An alert waits for a reader of its piece until the reader pops it. -/
theorem run_keeps_alert {s s' : State} {as : List Action} {r alrt : ℕ} {p : ℤ} (ha : Accounting s)
    (hq : s.data.queue p = some alrt) (hr : r ∈ s.readers p) (hc : Along step Persists s as)
    (hne : .pop r p ∉ as) (hrun : run step s as = some s') :
    s'.data.queue p = some alrt ∧ r ∈ s'.readers p := by
  induction as generalizing s with
  | nil => cases hrun; exact ⟨hq, hr⟩
  | cons a as ih =>
    obtain ⟨s₁, h₁, hrun⟩ := run_cons_eq_some.1 hrun
    rw [List.mem_cons, not_or] at hne
    obtain ⟨hq, hr⟩ := step_keeps_alert ha hq hr hc.1 (Ne.symm hne.1) h₁
    exact ih (ha.step h₁) hq hr (hc.2 s₁ h₁) hne.2 hrun

theorem pop_fst (q : PieceDataQueue) (p : ℤ) : (q.pop p).1 = q.queue p := by
  rcases q.pop_cases p with ⟨h, hq⟩ | ⟨alrt, q', h, hq, -⟩ | ⟨alrt, q', h, hq, -⟩
  all_goals rw [h, hq]

/-! ### The main results -/

/-- The accounts of a piece whose readers all go on until they have an alert. -/
structure Accounted (s : State) (p : ℤ) : Prop where
  flag : s.data.pieceFlag p = if (s.readers p).card = 0 then none else some ((s.readers p).card : ℤ)
  single : s.inFlight p + s.queued p = if s.data.pieceFlag p = none then 0 else 1
  push_new : 0 < s.inFlight p → ∀ alrt, (s.data.push p alrt).1 = none
  pop_counted : (s.data.pop p).1 ≠ none → s.data.pieceFlag p ≠ none

theorem PieceAccount.accounted {s : State} {p : ℤ} (h : PieceAccount s p)
    (h0 : s.abandoned p = 0) : Accounted s p := by
  have hout : s.outstanding p = (s.readers p).card := by rw [State.outstanding, h0, Nat.add_zero]
  have hnone : s.data.pieceFlag p = none ↔ s.outstanding p = 0 := by
    rw [h.flag, flagOf_eq_none]
  have hsum := h.single
  refine ⟨by rw [h.flag, hout, flagOf], ?_, fun hpos _ => h.queue_eq_none hpos, ?_⟩
  · simp only [hnone]
    exact hsum
  · rw [pop_fst, ne_eq, ne_eq, ← queued_eq_zero, hnone]
    intro hq h0
    rw [if_pos h0] at hsum
    omega

/-- **Accounting.** In every run whose readers go on until they have an alert, the count of each
piece is the number of its readers, a read in flight or an alert stands for them, every reader gets
the alert that waits for it whatever the others do before, and each alert is handed out for good
exactly once, unless it still waits for a reader. -/
theorem read_accounting {as : List Action} {s : State} (hc : Along step Persists init as)
    (hr : run step init as = some s) :
    (∀ p, Accounted s p) ∧
    (∀ p alrt, s.data.queue p = some alrt → (s.readers p).Nonempty) ∧
    (∀ p alrt r bs s', s.data.queue p = some alrt → r ∈ s.readers p → Along step Persists s bs →
      .pop r p ∉ bs → run step s bs = some s' → (s'.data.pop p).1 = some alrt) ∧
    (∀ alrt < s.next, (∀ p, s.data.queue p ≠ some alrt) → s.returned.count (alrt, true) = 1) ∧
    (∀ p alrt, s.data.queue p = some alrt → s.returned.count (alrt, true) = 0) := by
  have ha := accounting_of_run hr
  have h0 := abandoned_of_persists hc hr
  refine ⟨fun p => (ha.piece p).accounted (h0 p), fun p alrt hq => ?_, ?_,
    ha.alerts.returned_gone, ha.alerts.returned_queued⟩
  · have hsum := (ha.piece p).single
    rw [queued_eq_one.2 ⟨alrt, hq⟩, State.outstanding, h0 p, Nat.add_zero] at hsum
    rw [← Finset.card_ne_zero]
    intro hcard
    rw [hcard, if_pos rfl] at hsum
    omega
  · intro p alrt r bs s' hq hmem hbs hne hrun
    rw [pop_fst]
    exact (run_keeps_alert ha hq hmem hbs hne hrun).1

/-- Two readers of piece 3, one of which has its alert. -/
theorem read_accounting_two_readers :
    ∃ s, run step init [.setRead 0 3, .setRead 1 3, .push 3, .pop 0 3] = some s ∧
      ∀ p, Accounted s p := by
  have hc : Along step Persists init [.setRead 0 3, .setRead 1 3, .push 3, .pop 0 3] :=
    along_cons trivial rfl <| along_cons trivial rfl <| along_cons trivial rfl <|
      along_cons trivial rfl (along_nil _)
  obtain ⟨s, hr⟩ := Option.isSome_iff_exists.1
    (show (run step init [.setRead 0 3, .setRead 1 3, .push 3, .pop 0 3]).isSome by decide)
  exact ⟨s, hr, (read_accounting hc hr).1⟩

/-- A piece whose readers are done is left as it was before the first of them, so that the next one
starts a new read, exactly when none of them stopped before it had an alert. -/
theorem read_released_iff {as : List Action} {s : State} (hr : run step init as = some s) {p : ℤ}
    (hdone : s.readers p = ∅) :
    ((s.data.pieceFlag p = none ∧ s.data.queue p = none) ∧ (s.data.setRead p).1 = true) ↔
      ∀ r, .abandon r p ∉ as := by
  have ha := (accounting_of_run hr).piece p
  have hout : s.outstanding p = s.abandoned p := by
    rw [State.outstanding, hdone, Finset.card_empty, Nat.zero_add]
  have habandoned : s.abandoned p = 0 ↔ ∀ r, .abandon r p ∉ as := by
    rw [run_abandoned_eq_zero hr]
    exact and_iff_right rfl
  rw [← habandoned, ← hout]
  refine ⟨fun h => ?_, fun h0 => ?_⟩
  · rw [← flagOf_eq_none, ← ha.flag]
    exact h.1.1
  · have hflag : s.data.pieceFlag p = none := by rw [ha.flag, h0, flagOf_zero]
    have hsum := ha.single
    rw [if_pos h0] at hsum
    exact ⟨⟨hflag, queued_eq_zero.1 (by omega)⟩, by rw [PieceDataQueue.setRead_of_none hflag]⟩

/-- A reader that has its alert leaves nothing behind. -/
theorem read_released_iff_one_reader :
    ∃ s, run step init [.setRead 0 3, .push 3, .pop 0 3] = some s ∧ s.readers 3 = ∅ ∧
      (s.data.pieceFlag 3 = none ∧ s.data.queue 3 = none) ∧ (s.data.setRead 3).1 = true :=
  have hr : run step init [.setRead 0 3, .push 3, .pop 0 3] = some _ := rfl
  ⟨_, hr, by decide, (read_released_iff hr (by decide)).2 (by simp)⟩

/-- After a reader has stopped the next one is not told to start a read, and gets the alert that was
read for the first. -/
theorem not_read_released_after_abandon :
    ∃ s, run step init [.setRead 0 3, .push 3, .abandon 0 3, .setRead 1 3, .pop 1 3] = some s ∧
      s.readers 3 = ∅ ∧ s.data.pieceFlag 3 = some 1 ∧ s.data.queue 3 = some 0 ∧
      (s.data.setRead 3).1 = false ∧ s.returned = [(0, false)] :=
  ⟨_, rfl, by decide, by decide, by decide, by decide, by decide⟩

end PieceReaders

end P2Player
