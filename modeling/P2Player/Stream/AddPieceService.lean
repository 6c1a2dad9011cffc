import P2Player.Lib.Transition

/-!
# The pieces that are marked as helped

`HyperStreamer.AddPieceService` marks a piece in `helpedPieces` when it queues it.  A worker takes the
pieces from the queue and fetches them, and an alert of the session clears the mark again.

* `State`, `Action`, `step`: the steps of `add`, of the worker and of `hashPieceFailed`;
* `Justified`: every marked piece is queued, being fetched, or has been passed to the session;
* `QueuedOnce`: a piece is queued twice only if its mark has been cleared in between;
* `Fetches`: a marked piece is not given up by the worker;
* `marks_iff`: the runs in which all marks are justified.

The worker does not clear the mark when `getPieceRemain` returns false or throws.
-/

namespace P2Player.Stream.AddPieceService

open Transition

/-! ### The steps -/

/-- Where the worker is; it hands a piece over when `getPieceRemain` has returned true. -/
inductive Worker
  | waiting
  | fetching (p : ℕ)
  | handing (p : ℕ)
  | stopped
  deriving DecidableEq

/-- Where `add` is, inside of the monitor. -/
inductive Adding
  | offering (p : ℕ)
  | setting (p : ℕ)
  deriving DecidableEq

/-- What has happened to a piece: it was queued, taken from the queue, passed to `addTorrentPiece`, or
its mark was cleared. -/
inductive Event
  | offered (p : ℕ)
  | taken (p : ℕ)
  | passed (p : ℕ)
  | cleared (p : ℕ)
  deriving DecidableEq

/-- How `getPieceRemain` ends. -/
inductive Fetch
  | returned (result : Bool)
  | threw
  deriving DecidableEq

/-- `helpedPieces`, the queue, the call of `add`, the worker, and what has happened, the last event
first. -/
structure State where
  helped : ℕ → Bool
  pieces : Multiset ℕ
  adding : Option Adding
  worker : Worker
  log : List Event

/-- A new service. -/
def init : State where
  helped _ := false
  pieces := 0
  adding := none
  worker := .waiting
  log := []

/-- The steps of `add`, of the worker, of `retrieveAndSendPice` that passes a piece, of
`hashPieceFailed`, and of `close`. -/
inductive Action
  | add (p : ℕ)
  | offer
  | setBit
  | take (p : ℕ)
  | fetch (outcome : Fetch)
  | handOver (ok : Bool)
  | retrieved (p : ℕ)
  | hashPieceFailed (p : ℕ)
  | interrupt

/-- One step.  `add` and `hashPieceFailed` exclude each other; `take` removes the least element. -/
def step (s : State) : Action → Option State
  | .add p =>
    if s.adding = none then
      some (if s.helped p then s else { s with adding := some (.offering p) })
    else none
  | .offer =>
    match s.adding with
    | some (.offering p) =>
      some { s with
        pieces := p ::ₘ s.pieces
        adding := some (.setting p)
        log := .offered p :: s.log }
    | _ => none
  | .setBit =>
    match s.adding with
    | some (.setting p) =>
      some { s with helped := Function.update s.helped p true, adding := none }
    | _ => none
  | .take p =>
    if s.worker = .waiting ∧ p ∈ s.pieces ∧ ∀ q ∈ s.pieces, p ≤ q then
      some { s with
        pieces := s.pieces.erase p
        worker := .fetching p
        log := .taken p :: s.log }
    else none
  | .fetch outcome =>
    match s.worker with
    | .fetching p =>
      match outcome with
      | .returned true => some { s with worker := .handing p }
      | .returned false => some { s with worker := .waiting }
      | .threw => some { s with worker := .stopped }
    | _ => none
  | .handOver ok =>
    match s.worker with
    | .handing p =>
      some { s with worker := if ok then .waiting else .stopped, log := .passed p :: s.log }
    | _ => none
  | .retrieved p => some { s with log := .passed p :: s.log }
  | .hashPieceFailed p =>
    if s.adding = none then
      some { s with helped := Function.update s.helped p false, log := .cleared p :: s.log }
    else none
  | .interrupt => if s.worker = .waiting then some { s with worker := .stopped } else none

/-! ### What is right, and when -/

/-- The piece has been passed to the session since its mark was cleared. -/
def State.PassedSince (s : State) (p : ℕ) : Prop :=
  .passed p ∈ s.log.takeWhile fun e => e ≠ .cleared p

/-- The worker has the piece. -/
def State.InWork (s : State) (p : ℕ) : Prop := s.worker = .fetching p ∨ s.worker = .handing p

/-- A marked piece is queued, or the worker has it, or it has been passed to the session. -/
def Justified (s : State) : Prop :=
  ∀ p, s.helped p = true → p ∈ s.pieces ∨ s.InWork p ∨ s.PassedSince p

/-- All marks are justified, and will be when `add` sets the one that it is about to set. -/
def MarksJustified (s : State) : Prop :=
  Justified s ∧ ∀ s', step s .setBit = some s' → Justified s'

/-- When a piece is queued again its mark has been cleared since. -/
def ClearedBetween (log : List Event) : Prop :=
  ∀ p after before, log = after ++ .offered p :: before → .offered p ∈ before →
    .cleared p ∈ before.takeWhile fun e => e ≠ .offered p

/-- Every copy in the queue has been queued, with the mark cleared between two of them. -/
structure QueuedOnce (s : State) : Prop where
  count_le : ∀ p, s.pieces.count p ≤ s.log.count (.offered p)
  cleared : ClearedBetween s.log

/-- A piece that the worker gives up has no mark and is getting none, unless it is queued again or has
been passed to the session. -/
def Fetches (s : State) (a : Action) : Prop :=
  ∀ outcome p, a = .fetch outcome → outcome ≠ .returned true → s.worker = .fetching p →
    s.helped p = true ∨ s.adding = some (.setting p) → p ∈ s.pieces ∨ s.PassedSince p

/-! ### The marks -/

section

variable {s s' : State}

/-- The piece has its mark or is getting it. -/
def State.Marked (s : State) (p : ℕ) : Prop := s.helped p = true ∨ s.adding = some (.setting p)

/-- There is a reason for the mark. -/
def State.Held (s : State) (p : ℕ) : Prop := p ∈ s.pieces ∨ s.InWork p ∨ s.PassedSince p

theorem marksJustified_iff : MarksJustified s ↔ ∀ p, s.Marked p → s.Held p := by
  constructor
  · rintro ⟨hnow, hset⟩ p (hp | hp)
    · exact hnow p hp
    · have hstep : step s .setBit =
          some { s with helped := Function.update s.helped p true, adding := none } := by
        dsimp only [step]
        rw [hp]
      exact hset _ hstep p (Function.update_self ..)
  · intro h
    refine ⟨fun p hp => h p (Or.inl hp), fun s' hs => ?_⟩
    dsimp only [step] at hs
    split at hs
    · rename_i p hadding
      cases hs
      intro q hq
      rcases eq_or_ne q p with rfl | hne
      · exact h q (Or.inr hadding)
      · dsimp only at hq
        rw [Function.update_of_ne hne] at hq
        exact h q (Or.inl hq)
    · cases hs

theorem not_inWork (h : s.worker = .waiting ∨ s.worker = .stopped) (p : ℕ) : ¬ s.InWork p := by
  rintro (hp | hp)
  · rw [hp] at h
    rcases h with h | h <;> cases h
  · rw [hp] at h
    rcases h with h | h <;> cases h

/-- The worker has one piece only. -/
theorem inWork_iff {p : ℕ} (h : s.worker = .fetching p ∨ s.worker = .handing p) {q : ℕ} :
    s.InWork q ↔ q = p := by
  constructor
  · intro hq
    unfold State.InWork at hq
    rcases h with h | h
    · rw [h] at hq
      rcases hq with hq | hq <;> cases hq
      rfl
    · rw [h] at hq
      rcases hq with hq | hq <;> cases hq
      rfl
  · rintro rfl
    exact h

/-- An event other than the clearing of its mark leaves a piece passed. -/
theorem State.PassedSince.cons {p : ℕ} (h : s.PassedSince p) {e : Event} (he : e ≠ .cleared p)
    (hlog : s'.log = e :: s.log) : s'.PassedSince p := by
  unfold State.PassedSince at h ⊢
  rw [hlog, List.takeWhile_cons, if_pos (by simpa using he)]
  exact List.mem_cons_of_mem _ h

theorem passedSince_of_passed {p : ℕ} {log : List Event} (hlog : s.log = .passed p :: log) :
    s.PassedSince p := by
  unfold State.PassedSince
  rw [hlog, List.takeWhile_cons, if_pos (by simp)]
  exact List.mem_cons_self

/-- A step that gives no piece a mark without a reason and takes no reason away. -/
theorem MarksJustified.of_imp (h : MarksJustified s)
    (hstep : ∀ p, s'.Marked p → s.Marked p ∧ (s.Held p → s'.Held p) ∨ s'.Held p) :
    MarksJustified s' := by
  rw [marksJustified_iff] at h ⊢
  intro p hp
  rcases hstep p hp with ⟨hmarked, hheld⟩ | hheld
  · exact hheld (h p hmarked)
  · exact hheld

/-- The worker gives up its piece. -/
theorem marksJustified_giveUp_iff {p : ℕ} {w : Worker} (h : MarksJustified s)
    (hworker : s.worker = .fetching p) (hw : w = .waiting ∨ w = .stopped) :
    MarksJustified { s with worker := w } ↔
      (s.Marked p → p ∈ s.pieces ∨ s.PassedSince p) := by
  have hwork := not_inWork (s := { s with worker := w }) hw
  rw [marksJustified_iff] at h ⊢
  constructor
  · intro h' hp
    rcases h' p hp with hq | hq | hq
    · exact Or.inl hq
    · exact absurd hq (hwork p)
    · exact Or.inr hq
  · intro hp q hq
    rcases eq_or_ne q p with rfl | hne
    · rcases hp hq with h' | h'
      · exact Or.inl h'
      · exact Or.inr (Or.inr h')
    · rcases h q hq with h' | h' | h'
      · exact Or.inl h'
      · exact absurd ((inWork_iff (Or.inl hworker)).1 h') hne
      · exact Or.inr (Or.inr h')

/-- The end of `getPieceRemain` keeps all marks justified exactly when the piece is not given up with
its mark. -/
theorem marksJustified_fetch_iff {outcome : Fetch} (h : MarksJustified s)
    (hs : step s (.fetch outcome) = some s') : MarksJustified s' ↔ Fetches s (.fetch outcome) := by
  dsimp only [step] at hs
  split at hs
  · rename_i p hworker
    have hfetches : outcome ≠ .returned true →
        (Fetches s (.fetch outcome) ↔ (s.Marked p → p ∈ s.pieces ∨ s.PassedSince p)) := by
      intro hne
      constructor
      · intro hf hp
        exact hf outcome p rfl hne hworker hp
      · intro hf outcome' p' _ _ hworker' hp
        obtain rfl : p = p' := Worker.fetching.inj (hworker.symm.trans hworker')
        exact hf hp
    split at hs
    · cases hs
      refine iff_of_true ?_ fun outcome' p' ha hne => ?_
      · refine h.of_imp fun q hq => Or.inl ⟨hq, ?_⟩
        rintro (hq | hq | hq)
        · exact Or.inl hq
        · obtain rfl := (inWork_iff (Or.inl hworker)).1 hq
          exact Or.inr (Or.inl (Or.inr rfl))
        · exact Or.inr (Or.inr hq)
      · cases ha
        exact absurd rfl hne
    · cases hs
      rw [hfetches (by simp)]
      exact marksJustified_giveUp_iff h hworker (Or.inl rfl)
    · cases hs
      rw [hfetches (by simp)]
      exact marksJustified_giveUp_iff h hworker (Or.inr rfl)
  · cases hs

/-- Every other step keeps all marks justified. -/
theorem MarksJustified.step {a : Action} (h : MarksJustified s) (hfetch : ∀ outcome, a ≠ .fetch outcome)
    (hs : AddPieceService.step s a = some s') : MarksJustified s' := by
  cases a with
  | add p =>
    dsimp only [AddPieceService.step] at hs
    split_ifs at hs with hadding hhelped
    · cases hs
      exact h
    · cases hs
      refine h.of_imp fun q hq => Or.inl ⟨Or.inl ?_, id⟩
      rcases hq with hq | hq
      · exact hq
      · cases hq
  | offer =>
    dsimp only [AddPieceService.step] at hs
    split at hs
    · rename_i p hadding
      cases hs
      refine h.of_imp fun q hq => ?_
      rcases eq_or_ne q p with rfl | hne
      · exact Or.inr (Or.inl (Multiset.mem_cons_self _ _))
      · refine Or.inl ⟨?_, ?_⟩
        · rcases hq with hq | hq
          · exact Or.inl hq
          · cases hq
            exact absurd rfl hne
        · rintro (hq | hq | hq)
          · exact Or.inl (Multiset.mem_cons_of_mem hq)
          · exact Or.inr (Or.inl hq)
          · exact Or.inr (Or.inr (hq.cons (by simp) rfl))
    · cases hs
  | setBit =>
    have hjust := h.2 s' hs
    dsimp only [AddPieceService.step] at hs
    split at hs
    · cases hs
      rw [marksJustified_iff]
      rintro q (hq | hq)
      · exact hjust q hq
      · cases hq
    · cases hs
  | take p =>
    dsimp only [AddPieceService.step] at hs
    split_ifs at hs with hguard
    cases hs
    refine h.of_imp fun q hq => ?_
    rcases eq_or_ne q p with rfl | hne
    · exact Or.inr (Or.inr (Or.inl (Or.inl rfl)))
    · refine Or.inl ⟨hq, ?_⟩
      rintro (hq | hq | hq)
      · exact Or.inl ((Multiset.mem_erase_of_ne hne).2 hq)
      · exact absurd hq (not_inWork (Or.inl hguard.1) q)
      · exact Or.inr (Or.inr (hq.cons (by simp) rfl))
  | fetch outcome => exact absurd rfl (hfetch outcome)
  | handOver ok =>
    dsimp only [AddPieceService.step] at hs
    split at hs
    · rename_i p hworker
      cases hs
      refine h.of_imp fun q hq => ?_
      rcases eq_or_ne q p with rfl | hne
      · exact Or.inr (Or.inr (Or.inr (passedSince_of_passed rfl)))
      · refine Or.inl ⟨hq, ?_⟩
        rintro (hq | hq | hq)
        · exact Or.inl hq
        · exact absurd ((inWork_iff (Or.inr hworker)).1 hq) hne
        · exact Or.inr (Or.inr (hq.cons (by simp) rfl))
    · cases hs
  | retrieved p =>
    cases hs
    refine h.of_imp fun q hq => Or.inl ⟨hq, ?_⟩
    rintro (hq | hq | hq)
    · exact Or.inl hq
    · exact Or.inr (Or.inl hq)
    · exact Or.inr (Or.inr (hq.cons (by simp) rfl))
  | hashPieceFailed p =>
    dsimp only [AddPieceService.step] at hs
    split_ifs at hs with hadding
    cases hs
    refine h.of_imp fun q hq => ?_
    rcases eq_or_ne q p with rfl | hne
    · rcases hq with hq | hq
      · dsimp only at hq
        rw [Function.update_self] at hq
        cases hq
      · dsimp only at hq
        rw [hadding] at hq
        cases hq
    · refine Or.inl ⟨?_, ?_⟩
      · rcases hq with hq | hq
        · dsimp only at hq
          rw [Function.update_of_ne hne] at hq
          exact Or.inl hq
        · exact Or.inr hq
      · rintro (hq | hq | hq)
        · exact Or.inl hq
        · exact Or.inr (Or.inl hq)
        · exact Or.inr (Or.inr (hq.cons (by simp [hne.symm]) rfl))
  | interrupt =>
    dsimp only [AddPieceService.step] at hs
    split_ifs at hs with hworker
    cases hs
    refine h.of_imp fun q hq => Or.inl ⟨hq, ?_⟩
    rintro (hq | hq | hq)
    · exact Or.inl hq
    · exact absurd hq (not_inWork (Or.inl hworker) q)
    · exact Or.inr (Or.inr hq)

/-- **Step lemma.** A step keeps all marks justified exactly when it does not give up a marked
piece. -/
theorem marksJustified_step_iff {a : Action} (h : MarksJustified s) (hs : step s a = some s') :
    MarksJustified s' ↔ Fetches s a := by
  by_cases hfetch : ∃ outcome, a = .fetch outcome
  · obtain ⟨outcome, rfl⟩ := hfetch
    exact marksJustified_fetch_iff h hs
  · have hne : ∀ outcome, a ≠ .fetch outcome := fun outcome ha => hfetch ⟨outcome, ha⟩
    exact iff_of_true (h.step hne hs) fun outcome _ ha => absurd ha (hne outcome)

/-! ### The queue -/

theorem ClearedBetween.cons {log : List Event} (h : ClearedBetween log) {e : Event}
    (he : ∀ p, e = .offered p → .offered p ∈ log →
      .cleared p ∈ log.takeWhile fun e => e ≠ .offered p) : ClearedBetween (e :: log) := by
  intro p after before heq hmem
  cases after with
  | nil =>
    obtain ⟨rfl, rfl⟩ := List.cons.inj heq
    exact he p rfl hmem
  | cons e' after =>
    obtain ⟨-, heq⟩ := List.cons.inj heq
    exact h p after before heq hmem

/-- A piece that was queued has its mark, or is getting it, or has lost it since; and `add` queues a
piece without a mark. -/
structure Queue (s : State) : Prop where
  once : QueuedOnce s
  offered : ∀ p, .offered p ∈ s.log → s.Marked p ∨
    .cleared p ∈ s.log.takeWhile fun e => e ≠ .offered p
  offering : ∀ p, s.adding = some (.offering p) → s.helped p = false

theorem queue_init : Queue init := by
  refine ⟨⟨fun p => le_rfl, fun p after before h => ?_⟩, fun p h => ?_, fun p h => ?_⟩
  · have hlen := congrArg List.length h
    simp [init] at hlen
  · cases h
  · cases h

/-- An event that queues nothing. -/
theorem Queue.of_cons (h : Queue s) {e : Event} (he : ∀ p, e ≠ .offered p)
    (hlog : s'.log = e :: s.log) (hpieces : s'.pieces ≤ s.pieces) (hadding : s'.adding = s.adding)
    (hhelped : ∀ p, s.helped p = true → s'.helped p = true ∨ e = .cleared p)
    (hoffering : ∀ p, s'.adding = some (.offering p) → s'.helped p = false) : Queue s' := by
  refine ⟨⟨fun p => ?_, ?_⟩, fun p hp => ?_, hoffering⟩
  · rw [hlog, List.count_cons_of_ne (he p)]
    exact (Multiset.count_le_of_le p hpieces).trans (h.once.count_le p)
  · rw [hlog]
    exact h.once.cleared.cons fun p hp => absurd hp (he p)
  · rw [hlog] at hp ⊢
    rw [List.takeWhile_cons, if_pos (by simpa using he p)]
    rcases h.offered p ((List.mem_cons.1 hp).resolve_left (he p).symm) with (hm | hm) | hc
    · rcases hhelped p hm with hm | rfl
      · exact Or.inl (Or.inl hm)
      · exact Or.inr List.mem_cons_self
    · exact Or.inl (Or.inr (hadding.trans hm))
    · exact Or.inr (List.mem_cons_of_mem _ hc)

/-- A step of the worker that is no event. -/
theorem Queue.of_worker (h : Queue s) (w : Worker) : Queue { s with worker := w } :=
  ⟨⟨h.once.count_le, h.once.cleared⟩, h.offered, h.offering⟩

/-- `add` queues a piece without a mark. -/
theorem Queue.offer (h : Queue s) {p : ℕ} (hadding : s.adding = some (.offering p)) :
    Queue { s with
      pieces := p ::ₘ s.pieces
      adding := some (.setting p)
      log := .offered p :: s.log } := by
  have hunmarked : ¬ s.Marked p := by
    rintro (hm | hm)
    · rw [h.offering p hadding] at hm
      cases hm
    · rw [hadding] at hm
      cases hm
  refine ⟨⟨fun q => ?_, ?_⟩, fun q hq => ?_, fun q hq => by cases hq⟩
  · rcases eq_or_ne q p with rfl | hne
    · dsimp only
      rw [Multiset.count_cons_self, List.count_cons_self]
      exact Nat.succ_le_succ (h.once.count_le q)
    · have hne' : Event.offered p ≠ Event.offered q := by simpa using hne.symm
      dsimp only
      rw [Multiset.count_cons_of_ne hne, List.count_cons_of_ne hne']
      exact h.once.count_le q
  · refine h.once.cleared.cons fun q hq hmem => ?_
    cases hq
    exact (h.offered p hmem).resolve_left hunmarked
  · rcases eq_or_ne q p with rfl | hne
    · exact Or.inl (Or.inr rfl)
    · have hne' : Event.offered p ≠ Event.offered q := by simpa using hne.symm
      dsimp only at hq ⊢
      rw [List.takeWhile_cons, if_pos (by simpa using hne')]
      rcases h.offered q ((List.mem_cons.1 hq).resolve_left hne'.symm) with (hm | hm) | hc
      · exact Or.inl (Or.inl hm)
      · rw [hadding] at hm
        cases hm
      · exact Or.inr (List.mem_cons_of_mem _ hc)

/-- The piece that has been queued gets its mark. -/
theorem Queue.setBit (h : Queue s) {p : ℕ} (hadding : s.adding = some (.setting p)) :
    Queue { s with helped := Function.update s.helped p true, adding := none } := by
  refine ⟨⟨h.once.count_le, h.once.cleared⟩, fun q hq => ?_, fun q hq => by cases hq⟩
  rcases eq_or_ne q p with rfl | hne
  · exact Or.inl (Or.inl (Function.update_self ..))
  · rcases h.offered q hq with (hm | hm) | hc
    · refine Or.inl (Or.inl ?_)
      dsimp only
      rwa [Function.update_of_ne hne]
    · rw [hadding] at hm
      cases hm
      exact absurd rfl hne
    · exact Or.inr hc

theorem Queue.step {a : Action} (h : Queue s) (hs : AddPieceService.step s a = some s') :
    Queue s' := by
  cases a with
  | add p =>
    dsimp only [AddPieceService.step] at hs
    split_ifs at hs with hadding hhelped
    · cases hs
      exact h
    · cases hs
      refine ⟨⟨h.once.count_le, h.once.cleared⟩, fun q hq => ?_, fun q hq => ?_⟩
      · rcases h.offered q hq with (hm | hm) | hc
        · exact Or.inl (Or.inl hm)
        · rw [hadding] at hm
          cases hm
        · exact Or.inr hc
      · cases hq
        simpa using hhelped
  | offer =>
    dsimp only [AddPieceService.step] at hs
    split at hs
    · rename_i p hadding
      cases hs
      exact h.offer hadding
    · cases hs
  | setBit =>
    dsimp only [AddPieceService.step] at hs
    split at hs
    · rename_i p hadding
      cases hs
      exact h.setBit hadding
    · cases hs
  | take p =>
    dsimp only [AddPieceService.step] at hs
    split_ifs at hs
    cases hs
    exact h.of_cons (by simp) rfl (Multiset.erase_le _ _) rfl (fun q hq => Or.inl hq) h.offering
  | fetch outcome =>
    dsimp only [AddPieceService.step] at hs
    split at hs
    · split at hs
      · cases hs
        exact h.of_worker _
      · cases hs
        exact h.of_worker _
      · cases hs
        exact h.of_worker _
    · cases hs
  | handOver ok =>
    dsimp only [AddPieceService.step] at hs
    split at hs
    · cases hs
      exact h.of_cons (by simp) rfl le_rfl rfl (fun q hq => Or.inl hq) h.offering
    · cases hs
  | retrieved p =>
    cases hs
    exact h.of_cons (by simp) rfl le_rfl rfl (fun q hq => Or.inl hq) h.offering
  | hashPieceFailed p =>
    dsimp only [AddPieceService.step] at hs
    split_ifs at hs with hadding
    cases hs
    refine h.of_cons (by simp) rfl le_rfl rfl (fun q hq => ?_) fun q hq => ?_
    · rcases eq_or_ne q p with rfl | hne
      · exact Or.inr rfl
      · refine Or.inl ?_
        dsimp only
        rwa [Function.update_of_ne hne]
    · dsimp only at hq
      rw [hadding] at hq
      cases hq
  | interrupt =>
    dsimp only [AddPieceService.step] at hs
    split_ifs at hs
    cases hs
    exact h.of_worker _

end

/-! ### Runs -/

/-- **Helped pieces.** In a run, every mark is always justified and no piece is queued twice without
its mark being cleared, exactly when the worker gives up no marked piece. -/
theorem marks_iff {as : List Action} {s : State} (hr : run step init as = some s) :
    Always step (fun t => MarksJustified t ∧ QueuedOnce t) init as ↔ Along step Fetches init as := by
  have hinit : MarksJustified init := by
    rw [marksJustified_iff]
    rintro p (hp | hp) <;> cases hp
  refine always_iff_along (J := Queue) (fun _ _ _ h hs => h.step hs) (fun t a t' hq h hs => ?_)
    queue_init ⟨hinit, queue_init.once⟩ hr
  rw [← marksJustified_step_iff h.1 hs]
  exact and_iff_left (hq.step hs).once

/-- A piece is queued, fetched and passed to the session. -/
theorem marks_fetched :
    Always step (fun t => MarksJustified t ∧ QueuedOnce t) init
      [.add 3, .offer, .take 3, .fetch (.returned true), .setBit, .handOver true] := by
  refine (@marks_iff [.add 3, .offer, .take 3, .fetch (.returned true), .setBit, .handOver true] _
    rfl).2 ?_
  simp [Along, Fetches, step, init]

/-- The mark of a piece that is nowhere. -/
def stale : State where
  helped := Function.update (fun _ => false) 3 true
  pieces := 0
  adding := none
  worker := .waiting
  log := [.taken 3, .offered 3]

/-- `getPieceRemain` returns false, and the mark stays. -/
theorem not_marks_refused :
    run step init [.add 3, .offer, .setBit, .take 3, .fetch (.returned false)] = some stale ∧
      stale.helped 3 = true ∧ ¬ Justified stale := by
  refine ⟨rfl, rfl, fun h => ?_⟩
  rcases h 3 rfl with h | h | h
  · exact absurd h (Multiset.notMem_zero 3)
  · rcases h with h | h <;> cases h
  · exact absurd h (by simp [State.PassedSince, stale])

end P2Player.Stream.AddPieceService
