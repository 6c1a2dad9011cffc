import P2Player.Pieces.Counts
import P2Player.Stream.Range
import P2Player.Stream.Iteration

/-!
# The deadlines of the window

An iteration in which pieces are missing gives deadlines to the pieces of its window, from `lastDLP`
on, and remembers in `dlPieces` when it did so.  `lastDLP` is the last piece of the window, which gets
its deadline again in the next iteration.

* `deadlineStep`, `afterDeadlines`: an iteration up to the deadlines, and the rest of it;
* `DeadlinesSet`: what the deadline step does;
* `NoGap`, `Tracked`: what the iterations keep of the deadlines and of `dlPieces`;
* `no_deadline_gap`, `floorEntry_ne_none`: every piece of the window has got a deadline, and there is
  an entry for the first missing piece.
-/

namespace P2Player.Stream

open Java Program

section

variable (R : Request) (t : Tick)

/-- What `pState.getNumDone()` returns in the deadline step. -/
def countDone (ps : PiecesState) (incompleteIdx PIECE_BUFFER_SIZE : ℤ) : Option ℤ :=
  ((ps.setFromIdx incompleteIdx).setLength PIECE_BUFFER_SIZE false).bind fun ps =>
    ps.states.bind fun xs => (t.getPieceState xs).bind fun ys =>
      ({ ps with states := some ys } : PiecesState).getNumDone.map Prod.fst

section

variable (buffers : ℤ → State → Prop) [∀ n s, Decidable (buffers n s)] (wait : Prog Unit)

/-- An iteration up to the deadlines; the result is `PIECE_BUFFER_SIZE` in the block for missing
pieces. -/
def deadlineStep : Prog (Option ℤ) := do
  let PIECE_BUFFER_SIZE ← opening R t
  let s ← get
  if buffers PIECE_BUFFER_SIZE s then do
    setDeadlines R t PIECE_BUFFER_SIZE
    pure (some PIECE_BUFFER_SIZE)
  else pure none

/-- The slow piece, and the first key of `dlPieces`. -/
def cancelling : Prog Unit := do
  let s ← get
  let entry := s.dlPieces.floorEntry s.incompleteIdx
  let speed ← ask t.getTorrentDownloadRate
  modify fun s => { s with speed := speed }
  cancelSlow R t entry
  let first ← ask s.dlPieces.firstKey
  let e ← ask entry
  onlyIf (first < e.1) (modify fun s => { s with dlPieces := s.dlPieces.remove first })

/-- The rest of an iteration. -/
def afterDeadlines : Option ℤ → Prog Unit
  | some _ => do
    cancelling R t
    wait
    readAndSend R t
  | none => readAndSend R t

theorem buffering_eq (PIECE_BUFFER_SIZE : ℤ) :
    buffering R t PIECE_BUFFER_SIZE = setDeadlines R t PIECE_BUFFER_SIZE >>= fun _ => cancelling R t :=
  rfl

theorem commonIteration_eq :
    commonIteration R t buffers wait = deadlineStep R t buffers >>= afterDeadlines R t wait := by
  unfold commonIteration deadlineStep
  rw [bind_assoc]
  congr 1
  funext n
  unfold ending
  rw [bind_assoc]
  congr 1
  funext s
  unfold onlyIf
  split_ifs with h
  · rw [buffering_eq]
    simp only [bind_assoc, pure_bind, afterDeadlines]
  · simp only [pure_bind, afterDeadlines]

end

/-! ### The deadline step -/

/-- The deadlines of the pieces from `fromIndex` on and before `n`. -/
def newDeadlines (fromIndex n : ℤ) : List Call :=
  (List.range (n - fromIndex).toNat).map fun i : ℕ =>
    .setPieceDeadline (fromIndex + i) (toInt (i * 150 + 1500))

/-- What the deadline step does in the state `s₁`, when `numDone` pieces are counted. -/
structure DeadlinesSet (PIECE_BUFFER_SIZE numDone : ℤ) (s₁ s : State) : Prop where
  count : countDone t s₁.pState s₁.incompleteIdx PIECE_BUFFER_SIZE = some numDone
  idx : s.incompleteIdx = s₁.incompleteIdx
  step : ∃ lastDLP numSet : ℤ, lastDLP = max s₁.lastDLP s₁.incompleteIdx ∧
    numSet = toInt (s₁.incompleteIdx + PIECE_BUFFER_SIZE - lastDLP + numDone) ∧
    (¬ 0 < numSet ∧ s.lastDLP = lastDLP ∧ s.dlPieces = s₁.dlPieces ∧ s.calls = s₁.calls ∨
      ∃ n, n = min (toInt (lastDLP + numSet)) R.endPiece ∧ 0 < numSet ∧
        s.lastDLP = toInt (max lastDLP n - 1) ∧
        s.dlPieces = s₁.dlPieces.put lastDLP t.currentTime ∧
        s.calls = s₁.calls ++ newDeadlines lastDLP n)

end

section

variable {R : Request} {t : Tick} {s₀ s₁ : State} {n : ℤ}

/-- What the deadline step is about. -/
def State.window (s : State) : ℤ × ℤ × TreeMap ℤ ℤ × PiecesState × List Call :=
  (s.incompleteIdx, s.lastDLP, s.dlPieces, s.pState, s.calls)

theorem window_eq_iff {s : State} {i L : ℤ} {d : TreeMap ℤ ℤ} {ps : PiecesState}
    {cs : List Call} : s.window = (i, L, d, ps, cs) ↔
      s.incompleteIdx = i ∧ s.lastDLP = L ∧ s.dlPieces = d ∧ s.pState = ps ∧ s.calls = cs := by
  simp [State.window]

/-- A step that stops does so with an exception. -/
def Threw (e : Exit) (_ : State) : Prop := e = .threw

section

variable {i L : ℤ} {d : TreeMap ℤ ℤ} {ps : PiecesState} {cs : List Call}

theorem triple_call {c : Call} :
    Triple (fun s => s.window = (i, L, d, ps, cs)) (call t c)
      (fun _ s => s.window = (i, L, d, ps, cs ++ [c])) Threw := by
  refine part_modify (y := (i, L, d, ps, cs ++ [c])) (fun s hs => ?_) ?_
  · obtain ⟨hi, hL, hd, hps, hcs⟩ := window_eq_iff.1 hs
    exact window_eq_iff.2 ⟨hi, hL, hd, hps, congrArg (· ++ [c]) hcs⟩
  · exact triple_ite (fun _ => triple_throw _ fun _ _ => rfl) fun _ => triple_pure _ fun _ => id

theorem triple_calls {α : Type} (l : List α) (c : α → Call) :
    Triple (fun s => s.window = (i, L, d, ps, cs)) (l.forM fun a => call t (c a))
      (fun _ s => s.window = (i, L, d, ps, cs ++ l.map c)) Threw := by
  induction l generalizing cs with
  | nil =>
    refine triple_pure _ fun s hs => ?_
    rw [hs, List.map_nil, List.append_nil]
  | cons a l ih =>
    refine Triple.bind triple_call fun _ => ?_
    rw [List.map_cons, List.append_cons cs (c a) (l.map c)]
    exact ih

theorem triple_setDeadline {fromIndex count endIndex n : ℤ} (h : count ≠ 0)
    (hn : n = min (toInt (fromIndex + count)) endIndex) :
    Triple (fun s => s.window = (i, L, d, ps, cs)) (setDeadline t fromIndex count endIndex)
      (fun lastDLP s => lastDLP = toInt (max fromIndex n - 1) ∧
        s.window = (i, L, d, ps, cs ++ newDeadlines fromIndex n)) Threw := by
  subst hn
  refine triple_ite (fun h0 => absurd h0 h) fun _ => ?_
  exact (triple_calls _ _).bind fun _ => triple_pure _ fun s hs => ⟨rfl, hs⟩

section

variable {Q : Unit → State → Prop}

theorem part_pState {ps' : PiecesState} {k : PUnit → Prog Unit} {g : State → PiecesState}
    (hg : ∀ s, s.pState = ps → g s = ps')
    (h : Triple (fun s => s.window = (i, L, d, ps', cs)) (k ⟨⟩) Q Threw) :
    Triple (fun s => s.window = (i, L, d, ps, cs))
      ((modify fun s => { s with pState := g s }) >>= k) Q Threw := by
  refine part_modify (fun s hs => ?_) h
  obtain ⟨hi, hL, hd, hps, hcs⟩ := window_eq_iff.1 hs
  exact window_eq_iff.2 ⟨hi, hL, hd, hg s hps, hcs⟩

theorem part_getPieceState {answer : List UInt8 → Option (List UInt8)} {k : Unit → Prog Unit}
    (h : ∀ xs ys, ps.states = some xs → answer xs = some ys →
      Triple (fun s => s.window = (i, L, d, { ps with states := some ys }, cs)) (k ()) Q Threw) :
    Triple (fun s => s.window = (i, L, d, ps, cs)) (getPieceState answer >>= k) Q Threw := by
  unfold getPieceState
  simp only [bind_assoc]
  refine triple_get_bind fun s hs => ?_
  rw [(window_eq_iff.1 hs).2.2.2.1]
  refine part_ask (fun _ _ => rfl) fun xs hxs => part_ask (fun _ _ => rfl) fun ys hys => ?_
  exact part_pState (fun s hs => by rw [hs]) (h xs ys hxs hys)

theorem part_getNumDone {k : ℤ → Prog Unit}
    (h : ∀ numDone ps', ps.getNumDone = some (numDone, ps') →
      Triple (fun s => s.window = (i, L, d, ps', cs)) (k numDone) Q Threw) :
    Triple (fun s => s.window = (i, L, d, ps, cs)) (getNumDone >>= k) Q Threw := by
  unfold getNumDone
  simp only [bind_assoc, pure_bind]
  refine triple_get_bind fun s hs => ?_
  rw [(window_eq_iff.1 hs).2.2.2.1]
  refine part_ask (fun _ _ => rfl) fun r hr => ?_
  exact part_pState (fun _ _ => rfl) (h r.1 r.2 hr)

end

end

/-- **The deadline step.** -/
theorem triple_setDeadlines :
    Triple (fun s => s.window = s₁.window) (setDeadlines R t n)
      (fun _ s => ∃ numDone, DeadlinesSet R t n numDone s₁ s) Threw := by
  refine part_modify (y := (s₁.incompleteIdx, max s₁.lastDLP s₁.incompleteIdx, s₁.dlPieces, s₁.pState,
    s₁.calls)) (fun s hs => ?_) ?_
  · obtain ⟨hi, hL, hd, hps, hcs⟩ := window_eq_iff.1 hs
    exact window_eq_iff.2 ⟨hi, by rw [hi, hL], hd, hps, hcs⟩
  generalize hL : max s₁.lastDLP s₁.incompleteIdx = L
  refine triple_get_bind fun s hs => ?_
  obtain ⟨hi, hs', -, hps, -⟩ := window_eq_iff.1 hs
  rw [hi, hs', hps]
  refine part_ask (fun _ _ => rfl) fun before hbefore => part_pState (fun _ _ => rfl) ?_
  refine part_getPieceState fun xs ys hxs hys => part_getNumDone fun numDone ps hnum => ?_
  have hcount : countDone t s₁.pState s₁.incompleteIdx n = some numDone := by
    rw [countDone, hbefore, Option.bind_some, hxs, Option.bind_some, hys, Option.bind_some, hnum]
    rfl
  generalize hnumSet : toInt (s₁.incompleteIdx + n - L + numDone) = numSet
  refine part_modify (fun _ h => h) ?_
  refine triple_ite (fun hpos => ?_) fun hneg => triple_pure _ fun s₂ hs₂ => ?_
  · refine part_modify (y := (s₁.incompleteIdx, L, s₁.dlPieces.put L t.currentTime, ps, s₁.calls))
      (fun s₂ hs₂ => ?_) ?_
    · obtain ⟨hi, hL', hd, hps, hcs⟩ := window_eq_iff.1 hs₂
      exact window_eq_iff.2 ⟨hi, hL', by rw [hd, hL'], hps, hcs⟩
    refine (triple_setDeadline hpos.ne' rfl).bind fun lastDLP => triple_modify _ ?_
    rintro s₂ ⟨hlast, hs₂⟩
    obtain ⟨hi, -, hd, -, hcs⟩ := window_eq_iff.1 hs₂
    exact ⟨numDone, hcount, hi, L, numSet, hL.symm, hnumSet.symm,
      Or.inr ⟨_, rfl, hpos, hlast, hd, hcs⟩⟩
  · obtain ⟨hi, hL', hd, -, hcs⟩ := window_eq_iff.1 hs₂
    exact ⟨numDone, hcount, hi, L, numSet, hL.symm, hnumSet.symm, Or.inl ⟨hneg, hL', hd, hcs⟩⟩

/-! ### The rest of an iteration -/

/-- What the rest of an iteration leaves of the deadlines. -/
structure Trimmed (s s' : State) : Prop where
  idx : s'.incompleteIdx = s.incompleteIdx
  lastDLP : s'.lastDLP = s.lastDLP
  calls : ∀ c ∈ s.calls, c ∈ s'.calls
  floor : s.dlPieces.HasFloor s.incompleteIdx → s'.dlPieces.HasFloor s.incompleteIdx
  empty : s.dlPieces.entries = [] → s'.dlPieces.entries = []

theorem Trimmed.trans {s s' s'' : State} (h : Trimmed s s') (h' : Trimmed s' s'') :
    Trimmed s s'' where
  idx := h'.idx.trans h.idx
  lastDLP := h'.lastDLP.trans h.lastDLP
  calls c hc := h'.calls c (h.calls c hc)
  floor hs := by
    have hfloor := h'.floor
    rw [h.idx] at hfloor
    exact hfloor (h.floor hs)
  empty hs := h'.empty (h.empty hs)

theorem Trimmed.of_moved {P : Call → Prop} {s s' : State} (h : Moved State.aside P s s') :
    Trimmed s s' := by
  have hidx : s'.incompleteIdx = s.incompleteIdx := congrArg (fun x => x.2.1) h.part
  have hlast : s'.lastDLP = s.lastDLP := congrArg (fun x => x.2.2.1) h.part
  have hpieces : s'.dlPieces = s.dlPieces := congrArg (fun x => x.2.2.2) h.part
  exact ⟨hidx, hlast, fun _ hc => h.mem_calls hc, fun hs => hpieces ▸ hs, fun hs => hpieces ▸ hs⟩

theorem Trimmed.refl (s : State) : Trimmed s s := ⟨rfl, rfl, fun _ => id, id, id⟩

theorem triple_trimmed {α : Type} {m : Prog α} {P : Call → Prop} (h : Moves (Moved State.aside P) m) :
    Triple (fun s => Moved State.aside P s₁ s) m (fun _ s => Moved State.aside P s₁ s)
      fun _ s => Trimmed s₁ s :=
  (triple_of_moves h).conseq (fun _ => id) (fun _ _ => id) fun _ _ => Trimmed.of_moved

/-- The first key is dropped only when there is a larger one up to the first missing piece. -/
theorem triple_cancelling :
    Triple (fun s => s = s₁) (cancelling R t) (fun _ s => Trimmed s₁ s) fun _ s => Trimmed s₁ s := by
  refine triple_get_bind (f := id) fun s hs => ?_
  obtain rfl : s = s₁ := hs
  have hspeed : ∀ speed : ℤ, Keeps (modify fun s => { s with speed := speed } : Prog PUnit) :=
    fun _ => keeps_modify fun _ => by exact ⟨rfl, rfl⟩
  have hstart : ∀ s', s' = s → Moved State.aside (fun c => ¬ c.Reads) s s' := by
    rintro s' rfl
    exact refl_of _ s'
  refine Triple.conseq (P := fun s' => Moved State.aside (fun c => ¬ c.Reads) s s')
    ?_ hstart (fun _ _ => id) fun _ _ => id
  refine (triple_trimmed (moves_ask _)).bind fun speed => ?_
  refine (triple_trimmed (hspeed speed).aside).bind fun _ => ?_
  refine (triple_trimmed (keeps_cancelSlow _).aside).bind fun _ => ?_
  refine (triple_trimmed (moves_ask _)).bind fun first => ?_
  cases hentry : s.dlPieces.floorEntry s.incompleteIdx with
  | none =>
    refine Triple.bind (Q := fun _ _ => False) (triple_throw _ fun _ => Trimmed.of_moved) fun _ => ?_
    exact fun _ h => h.elim
  | some e =>
    refine triple_ite (fun hlt => triple_modify _ fun s' hs' => ?_)
      fun _ => triple_pure _ fun _ => Trimmed.of_moved
    have hold := Trimmed.of_moved hs'
    have hpieces : s'.dlPieces = s.dlPieces := congrArg (fun x => x.2.2.2) hs'.part
    refine ⟨hold.idx, hold.lastDLP, hold.calls, fun _ => ?_, fun hempty => ?_⟩
    · show (s'.dlPieces.remove first).HasFloor s.incompleteIdx
      rw [hpieces]
      exact TreeMap.HasFloor.remove hentry hlt
    · have hmem := (TreeMap.mem_of_floorEntry hentry).1
      rw [hempty] at hmem
      cases hmem

variable {wait : Prog Unit}

theorem triple_readTrimmed :
    Triple (fun s => s = s₁) (readAndSend R t) (fun _ s => Trimmed s₁ s) fun _ s => Trimmed s₁ s := by
  refine (triple_readEnd (P := fun _ => True) trivial trivial).conseq ?_
    (fun _ _ => Trimmed.of_moved) fun _ _ => Trimmed.of_moved
  rintro s rfl
  exact refl_of _ s

/-- From one state to the next, what is left of the deadlines is left in the end. -/
theorem Trimmed.bind {α β : Type} {m : Prog α} {k : α → Prog β}
    (hm : Triple (fun s => s = s₁) m (fun _ s => Trimmed s₁ s) fun _ s => Trimmed s₁ s)
    (hk : ∀ a s₂, Triple (fun s => s = s₂) (k a) (fun _ s => Trimmed s₂ s) fun _ s => Trimmed s₂ s) :
    Triple (fun s => s = s₁) (m >>= k) (fun _ s => Trimmed s₁ s) fun _ s => Trimmed s₁ s := by
  refine hm.bind fun a => triple_of_part id fun s₂ hs₂ => ?_
  exact (hk a s₂).conseq (fun _ => id) (fun _ _ => hs₂.trans) fun _ _ => hs₂.trans

theorem triple_afterDeadlines (hwait : Waits wait) (r : Option ℤ) :
    Triple (fun s => s = s₁) (afterDeadlines R t wait r) (fun _ s => Trimmed s₁ s)
      fun _ s => Trimmed s₁ s := by
  have hwaits : ∀ s₂, Triple (fun s => s = s₂) wait (fun _ s => Trimmed s₂ s)
      fun _ s => Trimmed s₂ s := fun s₂ =>
    (hwait s₂).conseq (fun _ => id) (fun _ _ h => Trimmed.of_moved h.2.of_track)
      fun _ _ => Trimmed.of_moved
  cases r with
  | none => exact triple_readTrimmed
  | some n =>
    exact Trimmed.bind triple_cancelling fun _ s₂ =>
      Trimmed.bind (hwaits s₂) fun _ s₃ => triple_readTrimmed

/-! ### The iterations of a run -/

section

variable {buffers : ℤ → State → Prop} [∀ n s, Decidable (buffers n s)]

/-- An iteration up to the deadlines, which are set in the block for missing pieces only. -/
theorem triple_deadlineStep :
    Triple (fun s => s = s₀) (deadlineStep R t buffers)
      (fun r s => ∃ n s₁, Opened R t s₀ n s₁ ∧
        (r = none ∧ s = s₁ ∨ r = some n ∧ ∃ numDone, DeadlinesSet R t n numDone s₁ s)) Threw := by
  refine (triple_opening.conseq (fun _ => id) (fun _ _ => id) fun _ _ h => h.1).bind fun n => ?_
  refine triple_of_part id fun s₁ hopen => ?_
  refine triple_get_bind (f := id) fun s hs => ?_
  obtain rfl : s = s₁ := hs
  refine triple_ite (fun _ => ?_) fun _ => triple_pure _ fun s' hs' => ?_
  · refine (triple_setDeadlines.conseq (fun _ h => congrArg State.window h) (fun _ _ => id)
      fun _ _ => id).bind fun _ => triple_pure _ fun s' hs' => ⟨n, s, hopen, Or.inr ⟨rfl, hs'⟩⟩
  · exact ⟨n, s, hopen, Or.inl ⟨rfl, hs'⟩⟩

/-- **Run lemma.** What the deadline step keeps and the rest of an iteration respects holds at the
beginning of every iteration. -/
theorem deadlines_run {I : State → Prop} {prologue : Prog Unit} {wait : Tick → Prog Unit}
    {ts : List Tick} (htrim : ∀ s s', Trimmed s s' → I s → I s') (hwait : ∀ t, Waits (wait t))
    (hpro : Triple (fun s => s = initState R) prologue (fun _ s => 0 < s.pending → I s)
      fun _ _ => True)
    (hstep : ∀ x ∈ runIterations R prologue (fun t => commonIteration R t buffers (wait t)) ts,
      I x.2 → Triple (fun s => s = x.2) (deadlineStep R x.1 buffers) (fun _ => I) Threw) :
    ∀ x ∈ runIterations R prologue (fun t => commonIteration R t buffers (wait t)) ts, I x.2 := by
  rintro ⟨t, s⟩ hx
  obtain ⟨k, hk⟩ := List.mem_iff_getElem?.1 hx
  have hbody : ∀ (k : ℕ) t s,
      (runIterations R prologue (fun t => commonIteration R t buffers (wait t)) ts)[k]? =
        some (t, s) → (0 < s.pending → I s) → goesOn t s = true →
      Triple (fun s' => s' = s) (commonIteration R t buffers (wait t))
        (fun _ s => 0 < s.pending → I s) (exits (fun s => 0 < s.pending → I s) fun _ => True) := by
    intro k t s hk hs hgo
    have hs := hs (of_decide_eq_true (Bool.and_eq_true_iff.1 hgo).2)
    rw [commonIteration_eq]
    refine ((hstep (t, s) (List.mem_of_getElem? hk) hs).conseq (fun _ => id) (fun _ _ => id) ?_).bind
      fun r => triple_of_part id fun s₂ hs₂ => ?_
    · rintro e s' rfl
      trivial
    · refine (triple_afterDeadlines (hwait t) r).conseq (fun _ => id)
        (fun _ s' h _ => htrim s₂ s' h hs₂) fun e s' h => ?_
      cases e with
      | again => exact fun _ => htrim s₂ s' h hs₂
      | leave => trivial
      | threw => trivial
  obtain ⟨hs, hgo⟩ := runIterations_keeps (I := fun _ s => 0 < s.pending → I s) hpro hbody hk
  exact hs (of_decide_eq_true (Bool.and_eq_true_iff.1 hgo).2)

end

/-! ### The start of the loop -/

/-- The position of the stream before the loop, and the deadlines that are remembered. -/
def State.start (s : State) : ℤ × ℤ × TreeMap ℤ ℤ := (s.pending, s.streamPiece, s.dlPieces)

/-- Nothing of the request is sent. -/
abbrev Stays {α : Type} (m : Prog α) : Prop := Moves (Moved State.start fun _ => True) m

theorem stays_call (c : Call) : Stays (call t c) := moves_call (fun _ _ => rfl) trivial

theorem stays_clearDeadlines : Stays (clearDeadlines t) := by
  refine moves_get.bind fun _ => moves_ite (stays_call _) (moves_ite ?_ (moves_pure _))
  exact (moves_ask _).bind fun _ => moves_onlyIf (stays_call _)

/-- The stream is where it was, or one piece further. -/
structure Ahead (s s' : State) : Prop where
  dlPieces : s'.dlPieces = s.dlPieces
  pending : s'.pending ≤ s.pending
  streamPiece : s'.streamPiece = s.streamPiece ∨ s'.streamPiece = toInt (s.streamPiece + 1)

theorem Ahead.of_moved {P : Call → Prop} {s s' : State} (h : Moved State.start P s s') :
    Ahead s s' where
  dlPieces := congrArg (fun x => x.2.2) h.part
  pending := (congrArg Prod.fst h.part).le
  streamPiece := Or.inl (congrArg (fun x => x.2.1) h.part)

/-- What is written has a length that is not negative. -/
theorem triple_writeLength {offset len : ℤ} :
    Triple (fun s => s = s₁) (writeData t offset len)
      (fun _ s => 0 ≤ len ∧ Moved State.start (fun _ => True) s₁ s) fun _ _ => True := by
  refine triple_get_bind (f := id) fun s hs => triple_ite (fun hcond => ?_) fun _ => ?_
  · obtain rfl : s = s₁ := hs
    unfold writeBytes
    cases t.sent with
    | none =>
      refine triple_modify _ ?_
      rintro s' rfl
      exact ⟨hcond.2.1, rfl, [], (List.append_nil _).symm, fun _ h => by cases h⟩
    | some k =>
      refine Triple.bind (Q := fun _ _ => True) (triple_modify _ fun _ _ => trivial) fun _ => ?_
      exact triple_throw _ fun _ _ => trivial
  · exact triple_throw _ fun _ _ => trivial

theorem triple_sendAhead {offset len : ℤ} :
    Triple (fun s => s = s₁) (send t offset len) (fun _ s => Ahead s₁ s) fun _ _ => True := by
  refine triple_get_bind (f := id) fun s hs => triple_writeLength.bind fun _ => triple_modify _ ?_
  obtain rfl : s = s₁ := hs
  rintro s' ⟨hlen, hs'⟩
  have hpending : s'.pending = s.pending := congrArg Prod.fst hs'.part
  have hpiece : s'.streamPiece = s.streamPiece := congrArg (fun x => x.2.1) hs'.part
  refine ⟨congrArg (fun x => x.2.2) hs'.part, ?_, Or.inr (by rw [← hpiece])⟩
  show s'.pending - _ ≤ s.pending
  omega

namespace HyperStreamer

variable {H : Helper}

theorem stays_helped (bits : ℤ → Bool) (n : ℤ) : Stays (helped R bits n) :=
  moves_ite (moves_pure _) (moves_throw _)

theorem stays_addPiece (bits : ℤ → Bool) (pieceIdx : ℤ) : Stays (addPiece R t bits pieceIdx) :=
  (stays_helped _ _).bind fun _ => moves_onlyIf (stays_call _)

theorem stays_fill (offset : ℤ) (data : List UInt8) : Stays (fill offset data) :=
  moves_get.bind fun _ => moves_ite (moved_modify fun _ => by exact ⟨rfl, rfl⟩) (moves_throw _)

theorem stays_retrievePiece (pieceIdx : ℤ) : Stays (H.retrievePiece t pieceIdx) := by
  have hcount : Stays countError := moved_modify fun _ => by exact ⟨rfl, rfl⟩
  refine (moved_modify fun _ => by exact ⟨rfl, rfl⟩).bind fun _ => moves_get.bind fun _ => ?_
  refine moves_ite (moves_pure _) ?_
  dsimp only
  generalize t.getData _ _ _ = answer
  cases answer with
  | done data => exact (stays_fill _ _).bind fun _ => moves_pure _
  | refused => exact hcount.bind fun _ => moves_pure _
  | failed data => exact (stays_fill _ _).bind fun _ => hcount.bind fun _ => moves_pure _

theorem triple_aheadOfStays {α : Type} {m : Prog α} (h : Stays m) :
    Triple (fun s => Moved State.start (fun _ => True) s₁ s) m
      (fun _ s => Moved State.start (fun _ => True) s₁ s) fun _ _ => True :=
  (triple_of_moves h).conseq (fun _ => id) (fun _ _ => id) fun _ _ _ => trivial

theorem triple_retrieveAhead :
    Triple (fun s => Moved State.start (fun _ => True) s₁ s) (retrieveAndSendPice R H t)
      (fun _ s => Ahead s₁ s) fun _ _ => True := by
  refine (triple_aheadOfStays moves_get).bind fun s => ?_
  refine (triple_aheadOfStays (stays_retrievePiece _)).bind fun result => ?_
  refine triple_ite (fun _ => triple_pure _ fun _ => Ahead.of_moved) fun _ => ?_
  refine (triple_aheadOfStays moves_get).bind fun s => ?_
  refine (triple_aheadOfStays (moves_onlyIf (stays_call _))).bind fun _ => ?_
  refine Triple.bind ?_ fun _ => triple_pure _ fun _ => id
  refine triple_of_part id fun s₂ hs₂ => triple_sendAhead.conseq (fun _ => id) (fun _ s' h => ?_)
    fun _ _ => id
  have hold := Ahead.of_moved hs₂
  have hpiece : s₂.streamPiece = s₁.streamPiece := congrArg (fun x => x.2.1) hs₂.part
  exact ⟨h.dlPieces.trans hold.dlPieces, h.pending.trans hold.pending, hpiece ▸ h.streamPiece⟩

/-- Before the loop at most one piece is sent. -/
theorem triple_helpAhead :
    Triple (fun s => s = s₁) (helpFirst R H t) (fun _ s => Ahead s₁ s) fun _ _ => True := by
  refine Triple.conseq (P := fun s => Moved State.start (fun _ => True) s₁ s) ?_ ?_ (fun _ _ => id)
    fun _ _ => id
  swap
  · rintro s rfl
    exact refl_of _ s
  refine (triple_aheadOfStays moves_get).bind fun s => ?_
  refine (triple_aheadOfStays (moves_ask _)).bind fun speed => ?_
  refine (triple_aheadOfStays (moved_modify fun _ => by exact ⟨rfl, rfl⟩)).bind fun _ => ?_
  refine triple_onlyIf (fun _ => ?_) fun _ => Ahead.of_moved
  refine (triple_aheadOfStays (moves_ask _)).bind fun incomplete => ?_
  refine triple_onlyIf (fun _ => ?_) fun _ => Ahead.of_moved
  refine Triple.bind ?_ fun _ => triple_pure _ fun _ => id
  refine (triple_aheadOfStays moves_get).bind fun s => ?_
  refine (triple_aheadOfStays (stays_helped _ _)).bind fun b => ?_
  refine triple_ite (fun _ => triple_pure _ fun _ => Ahead.of_moved) fun _ => triple_ite (fun _ => ?_)
    fun _ => ?_
  · exact (triple_aheadOfStays (stays_addPiece _ _)).bind fun _ =>
      triple_pure _ fun _ => Ahead.of_moved
  · exact (triple_aheadOfStays (stays_call _)).bind fun _ => triple_retrieveAhead

end HyperStreamer

/-- A loop with something to send begins at a piece index, without deadlines. -/
structure Started (s : State) : Prop where
  idx_nonneg : 0 ≤ s.incompleteIdx
  lastDLP_eq : s.lastDLP = s.incompleteIdx
  lastDLP_le : s.lastDLP ≤ maxInt
  dlPieces_eq : s.dlPieces.entries = []

theorem started_of_ahead {s s' : State} (h : Ahead (initState R) s)
    (hs' : s' = { s with lastDLP := s.streamPiece, incompleteIdx := s.streamPiece }) :
    0 < s'.pending → Started s' := by
  subst hs'
  intro hpos
  have hpos : 0 < s.pending := hpos
  have hle : s.pending ≤ R.dataLength := h.pending
  have hend := R.end_le
  have hsize := R.torrent.pieceSize_pos
  have hnum := R.torrent.pieces_lt
  have hlt : R.torrentOffset / R.torrent.pieceSize < R.torrent.pieceNum := by
    rw [Torrent.pieceNum, Nat.lt_iff_add_one_le, Nat.le_div_iff_mul_le hsize, Nat.succ_mul]
    have := Nat.div_mul_le_self R.torrentOffset R.torrent.pieceSize
    omega
  unfold Torrent.pieceNum at hlt
  have hpiece : s.streamPiece = R.startPiece ∨ s.streamPiece = toInt (R.startPiece + 1) :=
    h.streamPiece
  rw [R.startPiece_eq] at hpiece
  generalize R.torrentOffset / R.torrent.pieceSize = p at hpiece hlt
  rw [toInt_of_isInt ⟨by omega, by omega⟩] at hpiece
  have hstart : 0 ≤ s.streamPiece ∧ s.streamPiece ≤ maxInt := by
    unfold maxInt
    omega
  exact ⟨hstart.1, rfl, hstart.2, congrArg TreeMap.entries h.dlPieces⟩

theorem triple_started {m : Prog Unit}
    (h : Triple (fun s => s = initState R) m (fun _ s => Ahead (initState R) s) fun _ _ => True) :
    Triple (fun s => s = initState R) (m >>= fun _ => startWindow)
      (fun _ s => 0 < s.pending → Started s) fun _ _ => True :=
  h.bind fun _ => triple_modify _ fun _ hs => started_of_ahead hs rfl

theorem TorrentStreamerImpl.triple_prologue :
    Triple (fun s => s = initState R) (prologue t) (fun _ s => 0 < s.pending → Started s)
      fun _ _ => True := by
  refine triple_started ((triple_of_moves stays_clearDeadlines).conseq ?_
    (fun _ _ => Ahead.of_moved) fun _ _ _ => trivial)
  rintro _ rfl
  exact refl_of _ _

theorem HyperStreamer.triple_prologue {H : Helper} {t₁ : Tick} :
    Triple (fun s => s = initState R) (prologue R H t t₁) (fun _ s => 0 < s.pending → Started s)
      fun _ _ => True := by
  have hclear : Triple (fun s => s = initState R)
      (helpFirst R H t >>= fun _ => clearDeadlines t₁)
      (fun _ s => Ahead (initState R) s) fun _ _ => True := by
    refine triple_helpAhead.bind fun _ => triple_of_part id fun s₂ hs₂ => ?_
    refine Triple.conseq (P := fun s => Moved State.start (fun _ => True) s₂ s)
      (triple_of_moves stays_clearDeadlines) ?_ (fun _ s h => ?_) fun _ _ _ => trivial
    · rintro s rfl
      exact refl_of _ s
    · have hpiece : s.streamPiece = s₂.streamPiece := congrArg (fun x => x.2.1) h.part
      have h := Ahead.of_moved h
      refine ⟨h.dlPieces.trans hs₂.dlPieces, h.pending.trans hs₂.pending, ?_⟩
      rw [hpiece]
      exact hs₂.streamPiece
  have heq : prologue R H t t₁ =
      (helpFirst R H t >>= fun _ => clearDeadlines t₁) >>= fun _ => startWindow := by
    simp only [prologue, bind_assoc]
  rw [heq]
  exact triple_started hclear

/-! ### No gap between the deadlines -/

/-- The piece has been passed to `setPieceDeadline`. -/
def Passed (s : State) (p : ℤ) : Prop := ∃ deadline, Call.setPieceDeadline p deadline ∈ s.calls

/-- The pieces from the first missing one up to `lastDLP` have been passed. -/
structure NoGap (endPiece : ℤ) (s : State) : Prop where
  idx_nonneg : 0 ≤ s.incompleteIdx
  lastDLP_le : s.lastDLP ≤ maxInt
  passed : ∀ p, s.incompleteIdx ≤ p → p < s.lastDLP → p < endPiece → Passed s p

variable {E : ℤ}

theorem NoGap.of_started {s : State} (h : Started s) : NoGap E s where
  idx_nonneg := h.idx_nonneg
  lastDLP_le := h.lastDLP_le
  passed p hp hlt := by
    rw [h.lastDLP_eq] at hlt
    omega

theorem NoGap.trimmed {s s' : State} (htrim : Trimmed s s') (h : NoGap E s) : NoGap E s' where
  idx_nonneg := htrim.idx ▸ h.idx_nonneg
  lastDLP_le := htrim.lastDLP ▸ h.lastDLP_le
  passed p hp hlt hend := by
    rw [htrim.idx] at hp
    rw [htrim.lastDLP] at hlt
    obtain ⟨deadline, hmem⟩ := h.passed p hp hlt hend
    exact ⟨deadline, htrim.calls _ hmem⟩

theorem NoGap.opened (h : NoGap E s₀) (hopen : Opened R t s₀ n s₁)
    (hgrow : s₀.incompleteIdx ≤ s₁.incompleteIdx) : NoGap E s₁ where
  idx_nonneg := h.idx_nonneg.trans hgrow
  lastDLP_le := by rw [hopen.rest]; exact h.lastDLP_le
  passed p hp hlt hend := by
    have hlast : s₁.lastDLP = s₀.lastDLP := by rw [hopen.rest]
    rw [hlast] at hlt
    obtain ⟨deadline, hmem⟩ := h.passed p (hgrow.trans hp) hlt hend
    exact ⟨deadline, by rw [hopen.calls_eq]; exact hmem⟩

theorem mem_newDeadlines {L m p : ℤ} (hp : L ≤ p) (hlt : p < m) :
    ∃ deadline, Call.setPieceDeadline p deadline ∈ newDeadlines L m := by
  obtain ⟨i, rfl⟩ : ∃ i : ℕ, p = L + i := ⟨(p - L).toNat, by omega⟩
  exact ⟨_, List.mem_map.2 ⟨i, List.mem_range.2 (by omega), rfl⟩⟩

/-- Every piece of the window has been passed. -/
def Covers (endPiece PIECE_BUFFER_SIZE : ℤ) (s : State) : Prop :=
  ∀ p, s.incompleteIdx ≤ p → p < min (s.incompleteIdx + PIECE_BUFFER_SIZE) endPiece → Passed s p

/-- **Step lemma.** The pieces that the window has gained are passed, and those before them had been. -/
theorem NoGap.deadlinesSet {numDone : ℤ} (hE : R.endPiece = E) (h : NoGap E s₁) (hn : 0 ≤ n)
    (hdone : 0 ≤ numDone) (hmax : s₁.incompleteIdx + n + numDone ≤ maxInt) {s : State}
    (hset : DeadlinesSet R t n numDone s₁ s) : NoGap E s ∧ Covers E n s := by
  obtain ⟨-, hidx, L, numSet, hL, hnum, hstep⟩ := hset
  rw [hE] at hstep
  clear hE
  have hnonneg := h.idx_nonneg
  have hlast := h.lastDLP_le
  -- what has been passed up to `lastDLP` before the step
  have hold : ∀ p, s₁.incompleteIdx ≤ p → p < L → p < E → Passed s₁ p := by
    intro p hp hlt hend
    exact h.passed p hp (by omega) hend
  unfold maxInt at hmax hlast
  rw [toInt_of_isInt ⟨by omega, by omega⟩] at hnum
  rcases hstep with ⟨hneg, hlast', -, hcalls⟩ | ⟨m, hm, hpos, hlast', -, hcalls⟩
  · have hpassed : ∀ p, s₁.incompleteIdx ≤ p → p < L → p < E → Passed s p := by
      intro p hp hlt hend
      obtain ⟨deadline, hmem⟩ := hold p hp hlt hend
      rw [← hcalls] at hmem
      exact ⟨deadline, hmem⟩
    rw [← hidx] at hnonneg hpassed hL hnum hmax
    refine ⟨⟨hnonneg, ?_, fun p hp hlt hend => ?_⟩, fun p hp hlt => ?_⟩
    · unfold maxInt
      omega
    · rw [hlast'] at hlt
      exact hpassed p hp hlt hend
    · obtain ⟨hwin, hend⟩ := lt_min_iff.1 hlt
      have hL' : p < L := by omega
      exact hpassed p hp hL' hend
  · rw [toInt_of_isInt (x := L + numSet) ⟨by omega, by omega⟩] at hm
    rw [toInt_of_isInt ⟨by omega, by omega⟩] at hlast'
    have hpassed : ∀ p, s₁.incompleteIdx ≤ p → p < max L m → p < E → Passed s p := by
      intro p hp hlt hend
      by_cases hpL : p < L
      · obtain ⟨deadline, hmem⟩ := hold p hp hpL hend
        rw [Passed, hcalls]
        exact ⟨deadline, List.mem_append_left _ hmem⟩
      · obtain ⟨deadline, hmem⟩ := mem_newDeadlines (not_lt.1 hpL) (show p < m by omega)
        rw [Passed, hcalls]
        exact ⟨deadline, List.mem_append_right _ hmem⟩
    rw [← hidx] at hnonneg hpassed hL hnum hmax
    refine ⟨⟨hnonneg, ?_, fun p hp hlt hend => ?_⟩, fun p hp hlt => ?_⟩
    · unfold maxInt
      omega
    · have hm' : p < max L m := by omega
      exact hpassed p hp hm' hend
    · obtain ⟨hwin, hend⟩ := lt_min_iff.1 hlt
      have hm' : p < max L m := by omega
      exact hpassed p hp hm' hend

/-! ### An entry for the first missing piece -/

/-- `dlPieces` has an entry for the first missing piece, or none has been put yet. -/
structure Tracked (s : State) : Prop where
  idx_nonneg : 0 ≤ s.incompleteIdx
  entry : s.dlPieces.HasFloor s.incompleteIdx ∨
    s.dlPieces.entries = [] ∧ s.lastDLP ≤ s.incompleteIdx

theorem Tracked.of_started {s : State} (h : Started s) : Tracked s :=
  ⟨h.idx_nonneg, Or.inr ⟨h.dlPieces_eq, h.lastDLP_eq.le⟩⟩

theorem Tracked.trimmed {s s' : State} (htrim : Trimmed s s') (h : Tracked s) : Tracked s' := by
  refine ⟨htrim.idx ▸ h.idx_nonneg, h.entry.imp (fun hfloor => ?_) fun hnone => ?_⟩
  · rw [htrim.idx]
    exact htrim.floor hfloor
  · rw [htrim.lastDLP, htrim.idx]
    exact ⟨htrim.empty hnone.1, hnone.2⟩

theorem Tracked.opened (h : Tracked s₀) (hopen : Opened R t s₀ n s₁)
    (hgrow : s₀.incompleteIdx ≤ s₁.incompleteIdx) : Tracked s₁ := by
  have hlast : s₁.lastDLP = s₀.lastDLP := by rw [hopen.rest]
  have hpieces : s₁.dlPieces = s₀.dlPieces := by rw [hopen.rest]
  refine ⟨h.idx_nonneg.trans hgrow, h.entry.imp (fun hfloor => ?_) fun hnone => ?_⟩
  · rw [hpieces]
    exact hfloor.mono hgrow
  · rw [hpieces, hlast]
    exact ⟨hnone.1, hnone.2.trans hgrow⟩

/-- **Step lemma.** The first entry is put for the first missing piece. -/
theorem Tracked.deadlinesSet {numDone : ℤ} (h : Tracked s₁) (hn : 0 < n) (hdone : 0 ≤ numDone)
    (hmax : s₁.dlPieces.entries = [] → n + numDone ≤ maxInt) {s : State} (hset : DeadlinesSet R t n numDone s₁ s) :
    Tracked s ∧ s.dlPieces.HasFloor s.incompleteIdx := by
  obtain ⟨-, hidx, L, numSet, hL, hnum, hstep⟩ := hset
  have hfloor : s.dlPieces.HasFloor s.incompleteIdx := by
    rw [hidx]
    rcases h.entry with hfloor | ⟨hempty, hle⟩
    · rcases hstep with ⟨-, -, hpieces, -⟩ | ⟨m, -, -, -, hpieces, -⟩
      · rw [hpieces]
        exact hfloor
      · rw [hpieces]
        exact hfloor.put _ _
    · -- `lastDLP` is the first missing piece, so the window has gained pieces
      obtain rfl : L = s₁.incompleteIdx := hL.trans (max_eq_right hle)
      have hpos : 0 < numSet := by
        have hsum : s₁.incompleteIdx + n - s₁.incompleteIdx + numDone = n + numDone := by omega
        have hmax := hmax hempty
        unfold maxInt at hmax
        rw [hnum, hsum, toInt_of_isInt ⟨by omega, hmax⟩]
        omega
      rcases hstep with ⟨hneg, -⟩ | ⟨m, -, -, -, hpieces, -⟩
      · exact absurd hpos hneg
      · rw [hpieces]
        exact TreeMap.hasFloor_put _ _ le_rfl
  exact ⟨⟨hidx ▸ h.idx_nonneg, Or.inl hfloor⟩, hfloor⟩

/-! ### Both streamers -/

/-- The values of `incompleteIdx` are `int`s and do not decrease. -/
def Grows (iterations : List (Tick × State)) : Prop :=
  ∀ x ∈ iterations, ∀ i, x.1.getFirstPieceIncomplete x.2.streamPiece = some i →
    x.2.incompleteIdx ≤ i ∧ i ≤ maxInt

/-- `PIECE_BUFFER_SIZE + numDone` does not overflow while `dlPieces` is empty. -/
def CountsFit (R : Request) (iterations : List (Tick × State)) : Prop :=
  ∀ x ∈ iterations, x.2.dlPieces.entries = [] → ∀ n i numDone, bufferSize R x.1 = some n →
    x.1.getFirstPieceIncomplete x.2.streamPiece = some i →
    countDone x.1 x.2.pState i n = some numDone → n + numDone ≤ maxInt

/-- `incompleteIdx + PIECE_BUFFER_SIZE + numDone` does not overflow. -/
def WindowsFit (R : Request) (iterations : List (Tick × State)) : Prop :=
  ∀ x ∈ iterations, ∀ n i numDone, bufferSize R x.1 = some n →
    x.1.getFirstPieceIncomplete x.2.streamPiece = some i →
    countDone x.1 x.2.pState i n = some numDone → i + n + numDone ≤ maxInt

/-- `C` holds when the deadline step of an iteration in the block for missing pieces is done. -/
def AfterDeadlines (R : Request) (buffers : ℤ → State → Prop) [∀ n s, Decidable (buffers n s)]
    (iterations : List (Tick × State)) (C : ℤ → State → Prop) : Prop :=
  ∀ x ∈ iterations, ∀ n s, deadlineStep R x.1 buffers x.2 = .ok (some n) s → C n s

theorem countDone_nonneg {ps : PiecesState} {i numDone : ℤ} (hi : 0 ≤ i) (hmax : i ≤ maxInt)
    (hn : 0 < n) (h : countDone t ps i n = some numDone) : 0 ≤ numDone := by
  obtain ⟨before, hset, h⟩ := Option.bind_eq_some_iff.1 h
  obtain ⟨xs, -, h⟩ := Option.bind_eq_some_iff.1 h
  obtain ⟨ys, -, h⟩ := Option.bind_eq_some_iff.1 h
  obtain ⟨⟨numDone', ps'⟩, hnum, rfl⟩ := Option.map_eq_some_iff.1 h
  obtain ⟨-, hlen, -⟩ := setLength_spec hi hn hset
  refine PiecesState.getNumDone_nonneg ?_ hnum
  have hend : IsInt (toInt (i + n + 7)) := by
    unfold IsInt toInt
    omega
  unfold IsInt at hend
  unfold maxInt at hmax
  show before.stateLen ≤ 268435455
  rw [hlen, toInt_of_isInt ⟨by omega, by omega⟩]
  omega

section

variable {buffers : ℤ → State → Prop} [∀ n s, Decidable (buffers n s)] {prologue : Prog Unit}
  {wait : Tick → Prog Unit} {ts : List Tick} {its : List (Tick × State)} {x : Tick × State}

theorem NoGap.triple {E : ℤ} (hE : R.endPiece = E) (hgrow : Grows its) (hfit : WindowsFit R its)
    (hx : x ∈ its) (h : NoGap E x.2) :
    Triple (fun s => s = x.2) (deadlineStep R x.1 buffers)
      (fun r s => NoGap E s ∧ ∀ n, r = some n → Covers E n s) Threw := by
  refine triple_deadlineStep.conseq (fun _ => id) ?_ fun _ _ => id
  rintro r s ⟨n, s₁, hopen, hcase⟩
  have hn := bufferSize_ge hopen.size
  obtain ⟨hle, hmax⟩ := hgrow x hx _ hopen.idx
  have hopened := h.opened hopen hle
  rcases hcase with ⟨rfl, rfl⟩ | ⟨rfl, numDone, hset⟩
  · exact ⟨hopened, fun _ hr => by cases hr⟩
  · have hpState : s₁.pState = x.2.pState := by rw [hopen.rest]
    have hcount := hset.count
    have hdone := countDone_nonneg hopened.idx_nonneg hmax (by omega) hcount
    rw [hpState] at hcount
    obtain ⟨hkeep, hcovers⟩ := hopened.deadlinesSet hE (by omega) hdone
      (hfit x hx _ _ _ hopen.size hopen.idx hcount) hset
    exact ⟨hkeep, fun _ hr => by cases hr; exact hcovers⟩

theorem Tracked.triple (hgrow : Grows its) (hfit : CountsFit R its) (hx : x ∈ its)
    (h : Tracked x.2) :
    Triple (fun s => s = x.2) (deadlineStep R x.1 buffers)
      (fun r s => Tracked s ∧ ∀ n, r = some n → s.dlPieces.HasFloor s.incompleteIdx) Threw := by
  refine triple_deadlineStep.conseq (fun _ => id) ?_ fun _ _ => id
  rintro r s ⟨n, s₁, hopen, hcase⟩
  have hn := bufferSize_ge hopen.size
  obtain ⟨hle, hmax⟩ := hgrow x hx _ hopen.idx
  have hopened := h.opened hopen hle
  rcases hcase with ⟨rfl, rfl⟩ | ⟨rfl, numDone, hset⟩
  · exact ⟨hopened, fun _ hr => by cases hr⟩
  · have hpState : s₁.pState = x.2.pState := by rw [hopen.rest]
    have hcount := hset.count
    have hdone := countDone_nonneg hopened.idx_nonneg hmax (by omega) hcount
    rw [hpState] at hcount
    have hpieces : s₁.dlPieces = x.2.dlPieces := by rw [hopen.rest]
    obtain ⟨hkeep, hfloor⟩ := hopened.deadlinesSet (by omega) hdone
      (fun hempty => hfit x hx (hpieces ▸ hempty) _ _ _ hopen.size hopen.idx hcount) hset
    exact ⟨hkeep, fun _ _ => hfloor⟩

/-- What every deadline step gives holds after each deadline step of a run. -/
theorem afterDeadlines_run {I : State → Prop} {C : ℤ → State → Prop}
    (htrim : ∀ s s', Trimmed s s' → I s → I s') (hwait : ∀ t, Waits (wait t))
    (hpro : Triple (fun s => s = initState R) prologue (fun _ s => 0 < s.pending → Started s)
      fun _ _ => True) (hstart : ∀ s, Started s → I s)
    (hstep : ∀ x ∈ runIterations R prologue (fun t => commonIteration R t buffers (wait t)) ts,
      I x.2 → Triple (fun s => s = x.2) (deadlineStep R x.1 buffers)
        (fun r s => I s ∧ ∀ n, r = some n → C n s) Threw) :
    AfterDeadlines R buffers
      (runIterations R prologue (fun t => commonIteration R t buffers (wait t)) ts) C := by
  intro x hx n s hrun
  have hinv := deadlines_run htrim hwait
    (hpro.conseq (fun _ => id) (fun _ s h hpos => hstart s (h hpos)) fun _ _ => id)
    (fun x hx hI => (hstep x hx hI).conseq (fun _ => id) (fun _ _ h => h.1) fun _ _ => id) x hx
  have hdone := hstep x hx hinv x.2 rfl
  rw [hrun] at hdone
  exact hdone.2 n rfl

end

/-- **No deadline gap.** After the deadline step of each iteration in which pieces are missing, every
piece of the window has been passed to `setPieceDeadline`, as long as the first missing piece does
not go back and the end of the window does not overflow. -/
theorem no_deadline_gap (R : Request) (H : Helper) (t₀ t₁ : Tick) (ts : List Tick) :
    (Grows (TorrentStreamerImpl.iterations R t₁ ts) →
      WindowsFit R (TorrentStreamerImpl.iterations R t₁ ts) →
        AfterDeadlines R TorrentStreamerImpl.buffers (TorrentStreamerImpl.iterations R t₁ ts)
          (Covers R.endPiece)) ∧
    (Grows (HyperStreamer.iterations R H t₀ t₁ ts) →
      WindowsFit R (HyperStreamer.iterations R H t₀ t₁ ts) →
        AfterDeadlines R (HyperStreamer.buffers R) (HyperStreamer.iterations R H t₀ t₁ ts)
          (Covers R.endPiece)) := by
  constructor
  · unfold TorrentStreamerImpl.iterations
    rw [funext (TorrentStreamerImpl.iteration_eq R)]
    intro hgrow hfit
    exact afterDeadlines_run (fun _ _ => NoGap.trimmed) (fun _ => TorrentStreamerImpl.waits)
      TorrentStreamerImpl.triple_prologue (fun _ => NoGap.of_started)
      fun x hx h => NoGap.triple rfl hgrow hfit hx h
  · unfold HyperStreamer.iterations
    rw [funext (HyperStreamer.iteration_eq R H)]
    intro hgrow hfit
    exact afterDeadlines_run (fun _ _ => NoGap.trimmed) (fun _ => HyperStreamer.waits)
      HyperStreamer.triple_prologue (fun _ => NoGap.of_started)
      fun x hx h => NoGap.triple rfl hgrow hfit hx h

section

variable (hthrows : ∀ c, t.throws c = false)
include hthrows

theorem calls_ok {α : Type} (l : List α) (c : α → Call) (s : State) :
    ∃ s', (l.forM fun a => call t (c a)) s = .ok ⟨⟩ s' := by
  induction l generalizing s with
  | nil => exact ⟨s, rfl⟩
  | cons a l ih =>
    obtain ⟨s', hs'⟩ := ih { s with calls := s.calls ++ [c a] }
    have hcall : call t (c a) s = .ok () { s with calls := s.calls ++ [c a] } := by
      rw [call, hthrows]
      rfl
    refine ⟨s', ?_⟩
    show (call t (c a) >>= fun _ => l.forM fun a => call t (c a)) s = _
    rw [run_bind, hcall]
    exact hs'

theorem setDeadline_ok (fromIndex count endIndex : ℤ) (s : State) :
    ∃ lastDLP s', setDeadline t fromIndex count endIndex s = .ok lastDLP s' := by
  unfold setDeadline
  split_ifs
  · exact ⟨_, _, rfl⟩
  · obtain ⟨s', hs'⟩ := calls_ok hthrows
      (List.range (min (toInt (fromIndex + count)) endIndex - fromIndex).toNat)
      (fun i : ℕ => .setPieceDeadline (fromIndex + i) (toInt (i * 150 + 1500))) s
    exact ⟨_, s', by rw [run_bind, hs']; rfl⟩

/-- The deadline step returns when the count does. -/
theorem setDeadlines_ok {numDone : ℤ} {before ps : PiecesState} {xs ys : List UInt8}
    (hset : (s₁.pState.setFromIdx s₁.incompleteIdx).setLength n false = some before)
    (hxs : before.states = some xs) (hys : t.getPieceState xs = some ys)
    (hnum : ({ before with states := some ys } : PiecesState).getNumDone = some (numDone, ps)) :
    ∃ s, setDeadlines R t n s₁ = .ok () s := by
  by_cases hpos : 0 < toInt (s₁.incompleteIdx + n - max s₁.lastDLP s₁.incompleteIdx + numDone)
  · obtain ⟨lastDLP, s, hs⟩ := setDeadline_ok hthrows (max s₁.lastDLP s₁.incompleteIdx)
      (toInt (s₁.incompleteIdx + n - max s₁.lastDLP s₁.incompleteIdx + numDone)) R.endPiece
      { s₁ with
        lastDLP := max s₁.lastDLP s₁.incompleteIdx
        numSet := toInt (s₁.incompleteIdx + n - max s₁.lastDLP s₁.incompleteIdx + numDone)
        pState := ps
        dlPieces := s₁.dlPieces.put (max s₁.lastDLP s₁.incompleteIdx) t.currentTime }
    exact ⟨{ s with lastDLP := lastDLP }, by
      simp [setDeadlines, getPieceState, getNumDone, ask, onlyIf, hset, hxs, hys, hnum, hpos, hs,
        -bind_pure_comp, run_bind, run_modify, run_get, run_pure]⟩
  · simp [setDeadlines, getPieceState, getNumDone, ask, onlyIf, hset, hxs, hys, hnum, hpos,
      -bind_pure_comp, run_bind, run_modify, run_get, run_pure]

end

theorem opening_ok {i state : ℤ} (s₀ : State) (hsize : bufferSize R t = some n)
    (hidx : t.getFirstPieceIncomplete s₀.streamPiece = some i)
    (hstate : t.getTorrentState = some state) : ∃ s, opening R t s₀ = .ok n s := by
  obtain ⟨rate, hrate, rfl⟩ := Option.map_eq_some_iff.1 hsize
  by_cases h : s₀.state ≠ 4 ∧ s₀.state ≠ 5 ∧ s₀.state ≠ 3
  · simp [opening, updateState, computePieceBufferSize, updateIncompleteIdx, ask, onlyIf, h, hidx,
      hstate, hrate, -bind_pure_comp, run_bind, run_modify, run_get, run_pure]
  · simp [opening, updateState, computePieceBufferSize, updateIncompleteIdx, ask, onlyIf, h, hidx,
      hrate, -bind_pure_comp, run_bind, run_modify, run_get, run_pure]

theorem deadlineStep_ok {buffers : ℤ → State → Prop} [∀ n s, Decidable (buffers n s)] {s : State}
    (hopening : opening R t s₀ = .ok n s₁) (hbuffers : buffers n s₁)
    (hset : setDeadlines R t n s₁ = .ok () s) : deadlineStep R t buffers s₀ = .ok (some n) s := by
  simp [deadlineStep, hopening, hbuffers, hset, -bind_pure_comp, run_bind, run_get, run_pure]

section

variable {w : Refresh}

/-- A clear window is counted right. -/
theorem counted_of_clear {ps : PiecesState} (hclear : w.Clear ps)
    (hget : ∀ xs, t.getPieceState xs = memcpy xs w.bitfield.bytes (w.f / 8 : ℕ) w.copied) :
    ∃ before xs ys ps', (ps.setFromIdx w.f).setLength w.l false = some before ∧
      before.states = some xs ∧ t.getPieceState xs = some ys ∧
      ({ before with states := some ys } : PiecesState).getNumDone =
        some ((w.numComplete : ℤ), ps') := by
  obtain ⟨after, counted, hrun, hcount, -⟩ := (w.countsRight_iff ps).2 hclear
  obtain ⟨before, hset, hw⟩ := w.window_setLength ps hclear.fits
  have hlt := w.f_div_lt
  have hcopied : min before.stateLen (w.bitfield.bytes.length - before.stateIdx) = (w.copied : ℤ) := by
    rw [hw.stateLen_eq, hw.stateIdx_eq]
    unfold Refresh.copied Refresh.stateLen
    omega
  rw [Refresh.run, hset, Option.bind_some] at hrun
  obtain ⟨xs, hxs, hcopy⟩ := Option.bind_eq_some_iff.1 hrun
  obtain ⟨ys, hys, rfl⟩ := Option.map_eq_some_iff.1 hcopy
  rw [hcopied, hw.stateIdx_eq, ← hget] at hys
  exact ⟨before, xs, ys, counted, hset, hxs, hys, hcount⟩

/-- The deadline step for a clear window in a downloading torrent. -/
theorem deadlineStep_of_clear (hthrows : ∀ c, t.throws c = false) (hclear : w.Clear s₀.pState)
    (hget : ∀ xs, t.getPieceState xs = memcpy xs w.bitfield.bytes (w.f / 8 : ℕ) w.copied)
    (hsize : bufferSize R t = some (w.l : ℤ))
    (hidx : t.getFirstPieceIncomplete s₀.streamPiece = some (w.f : ℤ))
    (hdownloading : s₀.state = 0 ∨ s₀.state = 3) (hstate : t.getTorrentState = some 3)
    (hwindow : (w.f : ℤ) < toInt (s₀.streamPiece + w.l)) :
    ∃ s₁ s, Opened R t s₀ w.l s₁ ∧ s₁.incompleteIdx = w.f ∧
      deadlineStep R t TorrentStreamerImpl.buffers s₀ = .ok (some (w.l : ℤ)) s ∧
      DeadlinesSet R t w.l w.numComplete s₁ s := by
  obtain ⟨s₁, hopening⟩ := opening_ok s₀ hsize hidx hstate
  have hopen := triple_opening (R := R) (t := t) s₀ rfl
  rw [hopening] at hopen
  have hidx₁ : s₁.incompleteIdx = w.f := (Option.some.inj (hidx.symm.trans hopen.idx)).symm
  have hbuffers : TorrentStreamerImpl.buffers w.l s₁ := by
    have hs₁ : s₁.state = 0 ∨ s₁.state = 3 := by
      rcases hopen.state with h | h
      · rw [h]
        exact hdownloading
      · exact Or.inr (Option.some.inj (h.symm.trans hstate))
    refine ⟨by omega, by omega, ?_⟩
    rw [hidx₁, hopen.streamPiece_eq]
    exact hwindow
  have hpState : s₁.pState = s₀.pState := by rw [hopen.rest]
  obtain ⟨before, xs, ys, ps, hset, hxs, hys, hnum⟩ := counted_of_clear hclear hget
  rw [← hpState, ← hidx₁] at hset
  obtain ⟨s, hs⟩ := setDeadlines_ok (R := R) hthrows hset hxs hys hnum
  refine ⟨s₁, s, hopen, hidx₁, deadlineStep_ok hopening hbuffers hs, ?_⟩
  have hstep := triple_setDeadlines (R := R) (t := t) (n := w.l) s₁ rfl
  rw [hs] at hstep
  obtain ⟨numDone, hstep⟩ := hstep
  have hcount := hstep.count
  rw [countDone, hset, Option.bind_some, hxs, Option.bind_some, hys, Option.bind_some, hnum] at hcount
  obtain rfl : (w.numComplete : ℤ) = numDone := Option.some.inj hcount
  exact hstep

end

end

/-- The state in which an iteration ends, however it does. -/
def stateAfter (m : Prog Unit) (s : State) : State :=
  match m s with
  | .ok _ s' => s'
  | .error _ s' => s'

/-- Whether the loop goes on after an iteration. -/
def loopsOn (m : Prog Unit) (s : State) : Bool :=
  match m s with
  | .ok _ _ => true
  | .error .again _ => true
  | .error _ _ => false

/-- A run of two iterations. -/
theorem two_iterations {R : Request} {t₀ t t' : Tick} {s : State}
    (hpro : TorrentStreamerImpl.prologue t₀ (initState R) = .ok () s) (hgo : goesOn t s = true)
    (hloops : loopsOn (TorrentStreamerImpl.iteration R t) s = true)
    (hgo' : goesOn t' (stateAfter (TorrentStreamerImpl.iteration R t) s) = true) :
    TorrentStreamerImpl.iterations R t₀ [t, t'] =
      [(t, s), (t', stateAfter (TorrentStreamerImpl.iteration R t) s)] := by
  have hnext : TorrentStreamerImpl.iteration R t s =
        .ok () (stateAfter (TorrentStreamerImpl.iteration R t) s) ∨
      TorrentStreamerImpl.iteration R t s =
        .error .again (stateAfter (TorrentStreamerImpl.iteration R t) s) := by
    unfold loopsOn at hloops
    unfold stateAfter
    rcases hrun : TorrentStreamerImpl.iteration R t s with ⟨⟨⟩, s'⟩ | ⟨e, s'⟩
    · exact Or.inl rfl
    · cases e with
      | again => exact Or.inr rfl
      | leave => rw [hrun] at hloops; cases hloops
      | threw => rw [hrun] at hloops; cases hloops
  unfold TorrentStreamerImpl.iterations runIterations
  rw [hpro]
  dsimp only
  rw [entered_cons hgo hnext, entered_singleton hgo']

/-- Ten pieces of one byte, and the whole item. -/
def tenRequest : Request := ⟨tenSmallPieces, 0, 10, by decide⟩

/-- The window that is computed from a rate of 35791394 bytes a second.  The first and the last piece
are missing. -/
def hugeRefresh : Refresh where
  bitfield :=
    { bytes := [0x7f, 0x80]
      size := 10
      length_bytes := rfl
      size_lt := by norm_num
      trailing := fun p b hp hb => by
        have hlt : p / 8 < 2 := (List.getElem?_eq_some_iff.1 hb).1
        obtain rfl : b = 0x80 := by
          rw [show p / 8 = 1 by omega] at hb
          exact (Option.some.inj hb).symm
        have hbits : ∀ i < 8, 2 ≤ i → bitOf 0x80 i = false := by decide
        rw [← bitOf_mod]
        exact hbits _ (Nat.mod_lt _ (by decide)) (by omega) }
  f := 0
  l := 2147483640
  f_lt := by decide
  l_pos := by decide
  l_le := by decide

/-- The torrent downloads so fast that almost `Integer.MAX_VALUE` pieces are buffered. -/
def hugeTick : Tick :=
  { goodTick false with
    rate := some 35791394
    getTorrentDownloadRate := some 29826162
    getPieceState := fun xs => memcpy xs [0x7f, 0x80] 0 2 }

/-- The state at the beginning of the loop, and the one in which the first piece has been waited for. -/
def tenState : State := { initState tenRequest with lastDLP := 0, incompleteIdx := 0 }

def waitingState : State := stateAfter (TorrentStreamerImpl.iteration tenRequest (goodTick false)) tenState

theorem ten_prologue {t : Tick} (hseek : t.isSeek = false) :
    TorrentStreamerImpl.prologue t (initState tenRequest) = .ok () tenState := by
  have hmeta : isRequestMetadata 10 = false := by decide
  have hstart : tenRequest.startPiece = 0 := by decide
  simp [TorrentStreamerImpl.prologue, clearDeadlines, startWindow, hseek, tenState,
    initState, tenRequest, hmeta, run_bind, run_modify, run_get, run_pure]
  exact hstart

theorem huge_iterations :
    TorrentStreamerImpl.iterations tenRequest (goodTick false) [goodTick false, hugeTick] =
      [(goodTick false, tenState), (hugeTick, waitingState)] :=
  two_iterations (ten_prologue rfl) (by decide +kernel) (by decide +kernel) (by decide +kernel)

/-- The first missing piece is the first piece throughout. -/
theorem huge_grows :
    Grows (TorrentStreamerImpl.iterations tenRequest (goodTick false) [goodTick false, hugeTick]) := by
  rw [huge_iterations]
  have hall : ∀ x ∈ [(goodTick false, tenState), (hugeTick, waitingState)],
      x.1.getFirstPieceIncomplete x.2.streamPiece = some 0 ∧ x.2.incompleteIdx = 0 := by
    decide +kernel
  intro x hx i hi
  obtain ⟨hfirst, hidx⟩ := hall x hx
  obtain rfl : 0 = i := Option.some.inj (hfirst.symm.trans hi)
  exact ⟨hidx.le, by decide⟩

/-- The first iteration has set the deadlines of five pieces.  In the second one, after a wait,
`lastDLP + numSet` wraps, and no other piece gets a deadline. -/
theorem huge_deadlineStep : ∃ s,
    deadlineStep tenRequest hugeTick TorrentStreamerImpl.buffers waitingState =
      .ok (some 2147483640) s ∧ s.incompleteIdx = 0 ∧ s.calls = waitingState.calls := by
  have hstates : waitingState.pState.states = some [0] := by decide +kernel
  have hlast : waitingState.lastDLP = 4 := by decide +kernel
  have hclear : hugeRefresh.Clear waitingState.pState := by
    refine ⟨by decide, fun p hp _ => ?_, fun xs hxs hlong => ?_⟩
    · exact hugeRefresh.bitfield.getBit_of_size_le (le_trans (by decide) hp)
    · obtain rfl : [0] = xs := Option.some.inj (hstates.symm.trans hxs)
      exact absurd hlong (by decide +kernel)
  obtain ⟨s₁, s, hopen, hidx, hrun, hset⟩ := deadlineStep_of_clear (R := tenRequest) (t := hugeTick)
    (fun _ => rfl) hclear (fun xs => by
      rw [show hugeRefresh.copied = 2 by decide +kernel]
      rfl) (by decide +kernel) (by decide +kernel)
    (by decide +kernel) rfl (by decide +kernel)
  have hidx : s₁.incompleteIdx = 0 := hidx
  have hlast₁ : s₁.lastDLP = 4 := by
    rw [hopen.rest]
    exact hlast
  refine ⟨s, hrun, hset.idx.trans hidx, ?_⟩
  obtain ⟨L, numSet, hL, hnum, hstep⟩ := hset.step
  rw [hidx, hlast₁] at hL
  have hcomplete : hugeRefresh.numComplete = 8 := by decide +kernel
  have hnum : numSet = 2147483644 := by
    rw [hnum, hidx, hL, hcomplete]
    decide +kernel
  rw [← hopen.calls_eq]
  rcases hstep with ⟨-, -, -, hcalls⟩ | ⟨m, hm, -, -, -, hcalls⟩
  · exact hcalls
  · -- the end of the window is `Integer.MIN_VALUE`
    have hm : m = -2147483648 := by
      rw [hm, hL, hnum]
      decide +kernel
    rw [hcalls, newDeadlines, hm, hL]
    exact List.append_nil _

/-- The wrapped end of the window leaves the missing last piece without a deadline. -/
theorem deadline_gap_huge :
    Grows (TorrentStreamerImpl.iterations tenRequest (goodTick false) [goodTick false, hugeTick]) ∧
      ¬ AfterDeadlines tenRequest TorrentStreamerImpl.buffers
        (TorrentStreamerImpl.iterations tenRequest (goodTick false) [goodTick false, hugeTick])
        (Covers tenRequest.endPiece) := by
  refine ⟨huge_grows, fun h => ?_⟩
  obtain ⟨s, hs, hidx, hcalls⟩ := huge_deadlineStep
  have hin : (hugeTick, waitingState) ∈
      TorrentStreamerImpl.iterations tenRequest (goodTick false) [goodTick false, hugeTick] := by
    rw [huge_iterations]
    exact List.mem_cons_of_mem _ (List.mem_singleton_self _)
  obtain ⟨deadline, hmem⟩ := h _ hin _ s hs 9 (by omega) (by rw [hidx]; decide +kernel)
  have hcalls : s.calls = [.setPieceDeadline 0 1500, .setPieceDeadline 1 1650,
      .setPieceDeadline 2 1800, .setPieceDeadline 3 1950, .setPieceDeadline 4 2100] := by
    rw [hcalls]
    decide +kernel
  rw [hcalls] at hmem
  simp at hmem

/-! ### A first entry that is not put -/

/-- A run of one iteration, at the first piece. -/
theorem ten_iterations {t : Tick} (hstreaming : t.streaming = true) (hseek : t.isSeek = false) :
    TorrentStreamerImpl.iterations tenRequest t [t] = [(t, tenState)] := by
  unfold TorrentStreamerImpl.iterations runIterations
  rw [ten_prologue hseek]
  refine entered_singleton ?_
  rw [goesOn, hstreaming]
  rfl

/-- In this run the first missing piece is the first piece. -/
theorem ten_grows {t : Tick} (hstreaming : t.streaming = true) (hseek : t.isSeek = false)
    (hidx : t.getFirstPieceIncomplete 0 = some 0) :
    Grows (TorrentStreamerImpl.iterations tenRequest t [t]) := by
  rw [ten_iterations hstreaming hseek]
  intro x hx i hi
  obtain rfl := List.mem_singleton.1 hx
  have hpiece : tenState.streamPiece = 0 := by decide
  rw [hpiece, hidx] at hi
  obtain rfl := Option.some.inj hi
  exact ⟨le_rfl, by decide⟩

/-- With the least window the counts are far from an overflow. -/
theorem ten_countDone {n i numDone : ℤ} (hn : bufferSize tenRequest (goodTick false) = some n)
    (hi : (goodTick false).getFirstPieceIncomplete tenState.streamPiece = some i)
    (hdone : countDone (goodTick false) tenState.pState i n = some numDone) :
    n = 5 ∧ i = 0 ∧ numDone = 0 := by
  have hn5 : bufferSize tenRequest (goodTick false) = some 5 := by decide
  have hi0 : (goodTick false).getFirstPieceIncomplete tenState.streamPiece = some 0 := by decide
  have hcount : countDone (goodTick false) tenState.pState 0 5 = some 0 := by decide +kernel
  obtain rfl : 5 = n := Option.some.inj (hn5.symm.trans hn)
  obtain rfl : 0 = i := Option.some.inj (hi0.symm.trans hi)
  exact ⟨rfl, rfl, Option.some.inj (hdone.symm.trans hcount)⟩

theorem ten_deadlineStep : ∃ s,
    deadlineStep tenRequest (goodTick false) TorrentStreamerImpl.buffers tenState =
      .ok (some 5) s := by
  have h : (match deadlineStep tenRequest (goodTick false) TorrentStreamerImpl.buffers tenState with
      | .ok r _ => r
      | .error _ _ => none) = some 5 := by decide +kernel
  cases hrun : deadlineStep tenRequest (goodTick false) TorrentStreamerImpl.buffers tenState with
  | ok r s =>
    rw [hrun] at h
    obtain rfl : r = some 5 := h
    exact ⟨s, rfl⟩
  | error e s =>
    rw [hrun] at h
    cases h

/-- The first five pieces get deadlines. -/
theorem no_deadline_gap_ten : ∃ s,
    deadlineStep tenRequest (goodTick false) TorrentStreamerImpl.buffers tenState =
      .ok (some 5) s ∧ Covers tenRequest.endPiece 5 s := by
  have hits : TorrentStreamerImpl.iterations tenRequest (goodTick false) [goodTick false] =
      [(goodTick false, tenState)] := ten_iterations rfl rfl
  have hin : (goodTick false, tenState) ∈
      TorrentStreamerImpl.iterations tenRequest (goodTick false) [goodTick false] := by
    rw [hits]
    exact List.mem_singleton_self _
  obtain ⟨s, hs⟩ := ten_deadlineStep
  refine ⟨s, hs, (no_deadline_gap tenRequest {} (goodTick false) (goodTick false)
    [goodTick false]).1 (ten_grows rfl rfl rfl) (fun x hx n i numDone hn hi hdone => ?_) _ hin _ s hs⟩
  rw [hits] at hx
  obtain rfl := List.mem_singleton.1 hx
  obtain ⟨rfl, rfl, rfl⟩ := ten_countDone hn hi hdone
  decide

end P2Player.Stream
