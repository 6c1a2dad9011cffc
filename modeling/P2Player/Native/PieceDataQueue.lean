import P2Player.Lib.Lifetime
import P2Player.Lib.Transition

/-!
# The queue of pieces read from disk

`piece_data_queue` hands the pieces that libtorrent has read from disk to the threads that stream
them.  `queue` maps a piece to the alert with its data, `piece_flag` counts the readers that have
asked for it.  A reader pops the alert under the queue's mutex, copies from it after the mutex has
been released, and deletes it when `pop` said that it was the last one; a thread that handles a
`read_piece_alert` pushes a clone of it and deletes the alert that `push` returned.

* `PieceDataQueue`: the object, with `setRead`, `push` and `pop`;
* `State`, `Action`, `step`: any number of readers and alert threads over one queue, with the
  mutex-protected operations, the copy and the deletes as atomic steps;
* `Inv`: an alert has at most one owner, and a deleted alert has none;
* `reads_sound`: no reader copies from a deleted alert as long as none is deleted while another
  reader still has to copy from it.
-/

namespace P2Player

/-- `solt::piece_data_queue`: the alert waiting for each piece and the number of its readers. -/
structure PieceDataQueue where
  queue : ℤ → Option ℕ
  pieceFlag : ℤ → Option ℤ

namespace PieceDataQueue

/-- A queue as it is constructed. -/
def empty : PieceDataQueue := ⟨fun _ => none, fun _ => none⟩

/-- `set_read`: whether the caller has to start the native read. -/
def setRead (q : PieceDataQueue) (p : ℤ) : Bool × PieceDataQueue :=
  match q.pieceFlag p with
  | some n => (false, { q with pieceFlag := Function.update q.pieceFlag p (some (n + 1)) })
  | none => (true, { q with pieceFlag := Function.update q.pieceFlag p (some 1) })

/-- `push`: the alert that is replaced, if there is one. -/
def push (q : PieceDataQueue) (p : ℤ) (alrt : ℕ) : Option ℕ × PieceDataQueue :=
  (q.queue p, { q with queue := Function.update q.queue p (some alrt) })

/-- `pop`: the alert, `is_remove`, and the queue afterwards. -/
def pop (q : PieceDataQueue) (p : ℤ) : Option ℕ × Bool × PieceDataQueue :=
  match q.queue p with
  | none => (none, false, q)
  | some alrt =>
    match q.pieceFlag p with
    | none => (some alrt, false, q)
    | some n =>
      if n = 1 then
        (some alrt, true,
          { queue := Function.update q.queue p none
            pieceFlag := Function.update q.pieceFlag p none })
      else (some alrt, false, { q with pieceFlag := Function.update q.pieceFlag p (some (n - 1)) })

@[simp] theorem setRead_queue (q : PieceDataQueue) (p : ℤ) : (q.setRead p).2.queue = q.queue := by
  unfold setRead; split <;> rfl

/-- Everything `pop` can do: nothing, hand out a shared alert that stays queued, or hand out the
alert for good. -/
theorem pop_cases (q : PieceDataQueue) (p : ℤ) :
    q.pop p = (none, false, q) ∧ q.queue p = none ∨
    (∃ alrt q', q.pop p = (some alrt, false, q') ∧ q.queue p = some alrt ∧ q'.queue = q.queue) ∨
    (∃ alrt q', q.pop p = (some alrt, true, q') ∧ q.queue p = some alrt ∧
      q'.queue = Function.update q.queue p none) := by
  unfold pop
  cases hq : q.queue p with
  | none => exact Or.inl ⟨rfl, rfl⟩
  | some alrt =>
    refine Or.inr ?_
    cases hf : q.pieceFlag p with
    | none => exact Or.inl ⟨alrt, q, rfl, rfl, rfl⟩
    | some n =>
      dsimp only
      split_ifs with h1
      · exact Or.inr ⟨alrt, _, rfl, rfl, rfl⟩
      · exact Or.inl ⟨alrt, _, rfl, rfl, rfl⟩

end PieceDataQueue

namespace PieceReads

open Transition

/-! ### Readers and alert threads -/

/-- Where a thread is in `readTorrentPiece`: before `pop`, between `pop` and the copy, or between
the copy and the `delete`. -/
inductive Reader
  | idle
  | popped (alrt : ℕ) (isRemove : Bool)
  | copied (alrt : ℕ)
  deriving DecidableEq

/-- The shared state.  `next` is the address of the next clone of an alert, and `replaced h` the
alert that `push` has returned to the alert thread `h`. -/
structure State where
  data : PieceDataQueue
  next : ℕ
  reader : ℕ → Reader
  replaced : ℕ → Option ℕ
  log : List (Access ℕ)

/-- No read has been requested yet. -/
def init : State := ⟨PieceDataQueue.empty, 0, fun _ => .idle, fun _ => none, []⟩

/-- The atomic steps: `setTorrentReadPiece` of a piece, the three steps of a reader `t` and the two
of an alert thread `h`. -/
inductive Action
  | setRead (p : ℤ)
  | pop (t : ℕ) (p : ℤ)
  | copy (t : ℕ)
  | delete (t : ℕ)
  | push (h : ℕ) (p : ℤ)
  | deleteOld (h : ℕ)

/-- One step.  A reader that pops no alert returns 0 and stays idle. -/
def step (s : State) : Action → Option State
  | .setRead p => some { s with data := (s.data.setRead p).2 }
  | .pop t p =>
    if s.reader t = .idle then
      match s.data.pop p with
      | (none, _, _) => some s
      | (some alrt, isRemove, q) =>
        some { s with data := q, reader := Function.update s.reader t (.popped alrt isRemove) }
    else none
  | .copy t =>
    match s.reader t with
    | .popped alrt isRemove =>
      some { s with
        reader := Function.update s.reader t (if isRemove then .copied alrt else .idle)
        log := .use alrt :: s.log }
    | _ => none
  | .delete t =>
    match s.reader t with
    | .copied alrt =>
      some { s with reader := Function.update s.reader t .idle, log := .delete alrt :: s.log }
    | _ => none
  | .push h p =>
    match s.replaced h with
    | none =>
      some { s with
        data := (s.data.push p s.next).2
        next := s.next + 1
        replaced := Function.update s.replaced h (s.data.push p s.next).1 }
    | some _ => none
  | .deleteOld h =>
    match s.replaced h with
    | some old =>
      some { s with replaced := Function.update s.replaced h none, log := .delete old :: s.log }
    | none => none

/-- An alert is deleted only when no reader is left between its `pop` and its copy. -/
def DeletesUnread (s : State) : Action → Prop
  | .delete t => ∀ alrt, s.reader t = .copied alrt → ∀ t' r, s.reader t' ≠ .popped alrt r
  | .deleteOld h => ∀ alrt, s.replaced h = some alrt → ∀ t' r, s.reader t' ≠ .popped alrt r
  | _ => True

/-! ### Ownership -/

/-- The places that may be responsible for deleting an alert. -/
inductive Owner
  | queue (p : ℤ)
  | reader (t : ℕ)
  | handler (h : ℕ)
  deriving DecidableEq

/-- The place `o` is responsible for deleting the alert. -/
def Owns (s : State) : Owner → ℕ → Prop
  | .queue p, alrt => s.data.queue p = some alrt
  | .reader t, alrt => s.reader t = .popped alrt true ∨ s.reader t = .copied alrt
  | .handler h, alrt => s.replaced h = some alrt

/-- Alerts have one owner at most; a deleted alert has none and no reader is about to copy it. -/
structure Inv (s : State) : Prop where
  owned_lt : ∀ o alrt, Owns s o alrt → alrt < s.next
  unique : ∀ o o' alrt, Owns s o alrt → Owns s o' alrt → o = o'
  held_lt : ∀ t alrt r, s.reader t = .popped alrt r → alrt < s.next
  deleted_lt : ∀ alrt, Deleted s.log alrt → alrt < s.next
  deleted_unowned : ∀ alrt, Deleted s.log alrt → ∀ o, ¬ Owns s o alrt
  deleted_unheld : ∀ alrt, Deleted s.log alrt → ∀ t r, s.reader t ≠ .popped alrt r
  sound : Sound s.log

theorem inv_init : Inv init := by
  constructor
  · rintro (p | t | h) alrt ho <;> simp [Owns, init, PieceDataQueue.empty] at ho
  · rintro (p | t | h) o' alrt ho <;> simp [Owns, init, PieceDataQueue.empty] at ho
  all_goals simp [init]

/-- A step that creates and deletes no alert: `m` says where the responsibility for each alert
lay before. -/
theorem Inv.of_transfer {s s' : State} (hi : Inv s) (m : Owner → Owner)
    (hown : ∀ o alrt, Owns s' o alrt → Owns s (m o) alrt)
    (hinj : ∀ o o' alrt, Owns s' o alrt → Owns s' o' alrt → m o = m o' → o = o')
    (hheld : ∀ t alrt r, s'.reader t = .popped alrt r →
      s.reader t = .popped alrt r ∨ ∃ o, Owns s o alrt)
    (hnext : s'.next = s.next) (hlog : ∀ alrt, Deleted s'.log alrt → Deleted s.log alrt)
    (hsound : Sound s'.log) : Inv s' where
  owned_lt o alrt ho := hnext ▸ hi.owned_lt _ _ (hown o alrt ho)
  unique o o' alrt ho ho' :=
    hinj o o' alrt ho ho' (hi.unique _ _ alrt (hown o alrt ho) (hown o' alrt ho'))
  held_lt t alrt r ht := by
    rw [hnext]
    rcases hheld t alrt r ht with h | ⟨o, ho⟩
    · exact hi.held_lt t alrt r h
    · exact hi.owned_lt o alrt ho
  deleted_lt alrt hd := hnext ▸ hi.deleted_lt alrt (hlog alrt hd)
  deleted_unowned alrt hd o ho := hi.deleted_unowned alrt (hlog alrt hd) _ (hown o alrt ho)
  deleted_unheld alrt hd t r ht := by
    rcases hheld t alrt r ht with h | ⟨o, ho⟩
    · exact hi.deleted_unheld alrt (hlog alrt hd) t r h
    · exact hi.deleted_unowned alrt (hlog alrt hd) o ho
  sound := hsound

/-- A step in which the owner `o₀` of an alert deletes it, while no reader is about to copy it. -/
theorem Inv.of_release {s s' : State} (hi : Inv s) {o₀ : Owner} {alrt₀ : ℕ}
    (h₀ : Owns s o₀ alrt₀) (hunread : ∀ t r, s.reader t ≠ .popped alrt₀ r)
    (hown : ∀ o alrt, Owns s' o alrt → Owns s o alrt ∧ o ≠ o₀)
    (hheld : ∀ t alrt r, s'.reader t = .popped alrt r → s.reader t = .popped alrt r)
    (hnext : s'.next = s.next) (hlog : s'.log = .delete alrt₀ :: s.log) : Inv s' where
  owned_lt o alrt ho := hnext ▸ hi.owned_lt _ _ (hown o alrt ho).1
  unique o o' alrt ho ho' := hi.unique _ _ alrt (hown o alrt ho).1 (hown o' alrt ho').1
  held_lt t alrt r ht := hnext ▸ hi.held_lt t alrt r (hheld t alrt r ht)
  deleted_lt alrt hd := by
    rw [hlog, deleted_delete_cons] at hd
    rw [hnext]
    rcases hd with rfl | hd
    · exact hi.owned_lt o₀ alrt h₀
    · exact hi.deleted_lt alrt hd
  deleted_unowned alrt hd o ho := by
    rw [hlog, deleted_delete_cons] at hd
    obtain ⟨ho, hne⟩ := hown o alrt ho
    rcases hd with rfl | hd
    · exact hne (hi.unique _ _ alrt ho h₀)
    · exact hi.deleted_unowned alrt hd o ho
  deleted_unheld alrt hd t r ht := by
    rw [hlog, deleted_delete_cons] at hd
    rcases hd with rfl | hd
    · exact hunread t r (hheld t alrt r ht)
    · exact hi.deleted_unheld alrt hd t r (hheld t alrt r ht)
  sound := by
    rw [hlog, sound_delete_cons]
    exact ⟨fun hd => hi.deleted_unowned alrt₀ hd o₀ h₀, hi.sound⟩

theorem inv_setRead {s : State} (hi : Inv s) (p : ℤ) :
    Inv { s with data := (s.data.setRead p).2 } := by
  refine hi.of_transfer id ?_ (fun _ _ _ _ _ h => h) (fun _ _ _ h => Or.inl h) rfl
    (fun _ h => h) hi.sound
  rintro (p' | t | h) alrt ho <;> simpa [Owns] using ho

theorem inv_popShared {s : State} (hi : Inv s) {t alrt : ℕ} {p : ℤ} {q : PieceDataQueue}
    (hq : s.data.queue p = some alrt) (hq' : q.queue = s.data.queue) :
    Inv { s with data := q, reader := Function.update s.reader t (.popped alrt false) } := by
  refine hi.of_transfer id ?_ (fun _ _ _ _ _ h => h) ?_ rfl (fun _ h => h) hi.sound
  · rintro (p' | t' | h) a ho
    · simpa [Owns, hq'] using ho
    · by_cases ht : t' = t
      · subst ht; simp [Owns] at ho
      · simpa [Owns, Function.update_of_ne ht] using ho
    · exact ho
  · intro t' a r ht'
    by_cases ht : t' = t
    · subst ht
      simp only [Function.update_self, Reader.popped.injEq] at ht'
      exact Or.inr ⟨.queue p, ht'.1 ▸ hq⟩
    · exact Or.inl (by simpa [Function.update_of_ne ht] using ht')

theorem inv_popLast {s : State} (hi : Inv s) {t alrt : ℕ} {p : ℤ} {q : PieceDataQueue}
    (hq : s.data.queue p = some alrt) (hq' : q.queue = Function.update s.data.queue p none) :
    Inv { s with data := q, reader := Function.update s.reader t (.popped alrt true) } := by
  -- the responsibility moves from the queue to the reader
  have hgone : ∀ a, ¬ Owns { s with
      data := q, reader := Function.update s.reader t (.popped alrt true) } (.queue p) a := by
    intro a ho; simp [Owns, hq'] at ho
  refine hi.of_transfer (fun o => if o = .reader t then .queue p else o) ?_ ?_ ?_ rfl
    (fun _ h => h) hi.sound
  · rintro (p' | t' | h) a ho
    · by_cases hp : p' = p
      · subst hp; exact absurd ho (hgone a)
      · simpa [Owns, hq', Function.update_of_ne hp] using ho
    · by_cases ht : t' = t
      · subst ht
        simp only [Owns, Function.update_self, Reader.popped.injEq, and_true, reduceCtorEq,
          or_false] at ho
        simpa [Owns] using ho ▸ hq
      · simpa [Owns, Function.update_of_ne ht, ht] using ho
    · exact ho
  · intro o o' a ho ho' hm
    split_ifs at hm with h1 h2 h2
    · rw [h1, h2]
    · subst hm; exact absurd ho' (hgone a)
    · subst hm; exact absurd ho (hgone a)
    · exact hm
  · intro t' a r ht'
    by_cases ht : t' = t
    · subst ht
      simp only [Function.update_self, Reader.popped.injEq] at ht'
      exact Or.inr ⟨.queue p, ht'.1 ▸ hq⟩
    · exact Or.inl (by simpa [Function.update_of_ne ht] using ht')

theorem inv_copy {s : State} (hi : Inv s) {t alrt : ℕ} {r : Bool}
    (ht : s.reader t = .popped alrt r) :
    Inv { s with
      reader := Function.update s.reader t (if r then .copied alrt else .idle)
      log := .use alrt :: s.log } := by
  refine hi.of_transfer id ?_ (fun _ _ _ _ _ h => h) ?_ rfl (fun _ h => by simpa using h)
    (sound_use_cons.2 ⟨fun hd => hi.deleted_unheld alrt hd t r ht, hi.sound⟩)
  · rintro (p' | t' | h) a ho
    · exact ho
    · by_cases htt : t' = t
      · subst htt
        cases r with
        | false => simp [Owns] at ho
        | true =>
          simp only [Owns, Function.update_self, if_true, reduceCtorEq, Reader.copied.injEq,
            false_or] at ho
          exact Or.inl (ho ▸ ht)
      · simpa [Owns, Function.update_of_ne htt] using ho
    · exact ho
  · intro t' a r' ht'
    by_cases htt : t' = t
    · subst htt; cases r <;> simp at ht'
    · exact Or.inl (by simpa [Function.update_of_ne htt] using ht')

theorem inv_delete {s : State} (hi : Inv s) {t alrt : ℕ} (ht : s.reader t = .copied alrt)
    (hunread : ∀ t' r, s.reader t' ≠ .popped alrt r) :
    Inv { s with reader := Function.update s.reader t .idle, log := .delete alrt :: s.log } := by
  have howns : Owns s (.reader t) alrt := Or.inr ht
  refine hi.of_release howns hunread ?_ ?_ rfl rfl
  · rintro (p' | t' | h) a ho
    · exact ⟨ho, by simp⟩
    · by_cases htt : t' = t
      · subst htt; simp [Owns] at ho
      · exact ⟨by simpa [Owns, Function.update_of_ne htt] using ho, by simpa using htt⟩
    · exact ⟨ho, by simp⟩
  · intro t' a r ht'
    by_cases htt : t' = t
    · subst htt; simp at ht'
    · simpa [Function.update_of_ne htt] using ht'

theorem inv_deleteOld {s : State} (hi : Inv s) {h old : ℕ} (hh : s.replaced h = some old)
    (hunread : ∀ t r, s.reader t ≠ .popped old r) :
    Inv { s with replaced := Function.update s.replaced h none, log := .delete old :: s.log } := by
  have howns : Owns s (.handler h) old := hh
  refine hi.of_release howns hunread ?_ (fun _ _ _ ht => ht) rfl rfl
  rintro (p' | t' | h') a ho
  · exact ⟨ho, by simp⟩
  · exact ⟨ho, by simp⟩
  · by_cases hhh : h' = h
    · subst hhh; simp [Owns] at ho
    · exact ⟨by simpa [Owns, Function.update_of_ne hhh] using ho, by simpa using hhh⟩

/-- The owners after a push: the new alert is queued, the old one is with the alert thread. -/
theorem owns_push {s : State} {h : ℕ} {p : ℤ} {o : Owner} {alrt : ℕ}
    (ho : Owns { s with
      data := (s.data.push p s.next).2
      next := s.next + 1
      replaced := Function.update s.replaced h (s.data.push p s.next).1 } o alrt) :
    (o = .queue p ∧ alrt = s.next) ∨ (o = .handler h ∧ Owns s (.queue p) alrt) ∨
      (o ≠ .queue p ∧ o ≠ .handler h ∧ Owns s o alrt) := by
  obtain p' | t' | h' := o
  · by_cases hp : p' = p
    · subst hp
      simp only [Owns, PieceDataQueue.push, Function.update_self, Option.some.injEq] at ho
      exact Or.inl ⟨rfl, ho.symm⟩
    · simp only [Owns, PieceDataQueue.push, Function.update_of_ne hp] at ho
      exact Or.inr (Or.inr ⟨by simpa using hp, by simp, ho⟩)
  · exact Or.inr (Or.inr ⟨by simp, by simp, ho⟩)
  · by_cases hh : h' = h
    · subst hh
      simp only [Owns, PieceDataQueue.push, Function.update_self] at ho
      exact Or.inr (Or.inl ⟨rfl, ho⟩)
    · simp only [Owns, Function.update_of_ne hh] at ho
      exact Or.inr (Or.inr ⟨by simp, by simpa using hh, ho⟩)

theorem inv_push {s : State} (hi : Inv s) {h : ℕ} (p : ℤ) :
    Inv { s with
      data := (s.data.push p s.next).2
      next := s.next + 1
      replaced := Function.update s.replaced h (s.data.push p s.next).1 } where
  owned_lt o alrt ho := by
    rcases owns_push ho with ⟨-, rfl⟩ | ⟨-, ho⟩ | ⟨-, -, ho⟩
    · exact Nat.lt_succ_self _
    · exact Nat.lt_succ_of_lt (hi.owned_lt _ _ ho)
    · exact Nat.lt_succ_of_lt (hi.owned_lt _ _ ho)
  unique o o' alrt ho ho' := by
    have hfresh : ∀ o, ¬ Owns s o s.next := fun o ho => absurd (hi.owned_lt _ _ ho) (by omega)
    rcases owns_push ho with ⟨rfl, rfl⟩ | ⟨rfl, h1⟩ | ⟨h1, h2, h3⟩ <;>
      rcases owns_push ho' with ⟨rfl, h4⟩ | ⟨rfl, h4⟩ | ⟨h4, h5, h6⟩
    · rfl
    · exact absurd h4 (hfresh _)
    · exact absurd h6 (hfresh _)
    · exact absurd (h4 ▸ h1) (hfresh _)
    · rfl
    · exact absurd (hi.unique _ _ _ h6 h1) h4
    · exact absurd (h4 ▸ h3) (hfresh _)
    · exact absurd (hi.unique _ _ _ h3 h4) h1
    · exact hi.unique _ _ _ h3 h6
  held_lt t alrt r ht := Nat.lt_succ_of_lt (hi.held_lt t alrt r ht)
  deleted_lt alrt hd := Nat.lt_succ_of_lt (hi.deleted_lt alrt hd)
  deleted_unowned alrt hd o ho := by
    rcases owns_push ho with ⟨-, rfl⟩ | ⟨-, ho⟩ | ⟨-, -, ho⟩
    · exact absurd (hi.deleted_lt _ hd) (by omega)
    · exact hi.deleted_unowned alrt hd _ ho
    · exact hi.deleted_unowned alrt hd _ ho
  deleted_unheld := hi.deleted_unheld
  sound := hi.sound

/-- **Step lemma.** Every step that deletes no alert still to be copied keeps the ownership
invariant. -/
theorem inv_step (s : State) (a : Action) (s' : State) (hi : Inv s) (hc : DeletesUnread s a)
    (hs : step s a = some s') : Inv s' := by
  cases a with
  | setRead p => cases hs; exact inv_setRead hi p
  | pop t p =>
    simp only [step] at hs
    split_ifs at hs with ht
    rcases s.data.pop_cases p with ⟨hp, -⟩ | ⟨alrt, q, hp, hq, hq'⟩ | ⟨alrt, q, hp, hq, hq'⟩ <;>
      rw [hp] at hs <;> cases hs
    · exact hi
    · exact inv_popShared hi hq hq'
    · exact inv_popLast hi hq hq'
  | copy t =>
    simp only [step] at hs
    split at hs
    · rename_i alrt r ht
      cases hs
      exact inv_copy hi ht
    · cases hs
  | delete t =>
    simp only [step] at hs
    split at hs
    · rename_i alrt ht
      cases hs
      exact inv_delete hi ht (hc alrt ht)
    · cases hs
  | push h p =>
    simp only [step] at hs
    split at hs
    · cases hs
      exact inv_push hi p
    · cases hs
  | deleteOld h =>
    simp only [step] at hs
    split at hs
    · rename_i old hh
      cases hs
      exact inv_deleteOld hi hh (hc old hh)
    · cases hs

/-! ### Whole runs -/

/-- The invariant holds after every guarded run. -/
theorem inv_run {as : List Action} {s : State} (hc : Along step DeletesUnread init as)
    (hr : run step init as = some s) : Inv s :=
  hc.keeps inv_step inv_init hr

/-- Where the condition fails, a reader that is still to copy reads a deleted alert. -/
theorem exists_copy_not_sound {s : State} {a : Action} {s' : State} (hc : ¬ DeletesUnread s a)
    (hs : step s a = some s') :
    ∃ t s'', step s' (.copy t) = some s'' ∧ ¬ Sound s''.log := by
  cases a with
  | delete t =>
    simp only [DeletesUnread, not_forall, not_not] at hc
    obtain ⟨alrt, ht, t', r, ht'⟩ := hc
    simp only [step, ht, Option.some.injEq] at hs
    subst hs
    have hne : t' ≠ t := by rintro rfl; rw [ht] at ht'; cases ht'
    refine ⟨t', _, by simp only [step, Function.update_of_ne hne, ht']; rfl, ?_⟩
    simp [sound_use_cons]
  | deleteOld h =>
    simp only [DeletesUnread, not_forall, not_not] at hc
    obtain ⟨alrt, hh, t, r, ht⟩ := hc
    simp only [step, hh, Option.some.injEq] at hs
    subst hs
    refine ⟨t, _, by simp only [step, ht]; rfl, ?_⟩
    simp [sound_use_cons]
  | _ => exact absurd trivial hc

/-- **No reader copies a deleted alert and no alert is deleted twice**, in every interleaving in
which an alert is deleted only when no reader is left between its `pop` and its copy; and a delete
that breaks this condition lets the next copy read freed memory. -/
theorem reads_sound {as : List Action} {s : State} (hc : Along step DeletesUnread init as)
    (hr : run step init as = some s) :
    Sound s.log ∧ ∀ a s', ¬ DeletesUnread s a → step s a = some s' →
      ∃ t s'', step s' (.copy t) = some s'' ∧ ¬ Sound s''.log :=
  ⟨(inv_run hc hr).sound, fun _ _ hn hs => exists_copy_not_sound hn hs⟩

/-- Two readers of piece 3, the second of which pops after the first has copied. -/
theorem reads_sound_two_readers :
    ∃ s, run step init [.setRead 3, .setRead 3, .push 0 3, .pop 0 3, .copy 0, .pop 1 3, .copy 1,
      .delete 1] = some s ∧ Sound s.log := by
  refine ⟨_, rfl, (@reads_sound [.setRead 3, .setRead 3, .push 0 3, .pop 0 3, .copy 0, .pop 1 3,
    .copy 1, .delete 1] _ ?_ rfl).1⟩
  refine along_cons trivial rfl <| along_cons trivial rfl <| along_cons trivial rfl <|
    along_cons trivial rfl <| along_cons trivial rfl <| along_cons trivial rfl <|
    along_cons trivial rfl <| along_cons ?_ rfl trivial
  intro alrt _ t r ht
  by_cases h1 : t = 1 <;> by_cases h0 : t = 0 <;> simp_all [Function.update_apply, init]

/-- Two readers of piece 3 that both pop before either copies: the second one is told to delete the
alert, and does so before the first one copies from it. -/
theorem not_reads_sound_overlapping :
    ∃ s, run step init [.setRead 3, .setRead 3, .push 0 3, .pop 0 3, .pop 1 3, .copy 1, .delete 1,
      .copy 0] = some s ∧ ¬ Sound s.log :=
  ⟨_, rfl, fun h => (sound_use_cons.1 h).1 (deleted_delete_cons.2 (Or.inl rfl))⟩

end PieceReads

end P2Player
