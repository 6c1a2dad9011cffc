import P2Player.Lib.Cursor
import P2Player.Lib.Transition

/-!
# The time critical pieces of a torrent

A torrent keeps the pieces that have a deadline in a list, in the order of their deadlines.  Once a second
`request_time_critical_pieces` goes through it from the front, and stops at the first piece whose
deadline is far off.

* `State`, `Action`, `step`: the list, and what changes it;
* `Deadlines`, `apply`: what the list stands for, the deadline of each piece, and what each change makes
  of it;
* `Ordered`: the list is in order, without duplicates, and has no piece that is complete;
* `deadlines_of_run`: in every run the list is so, and stands for what was asked for;
* `considered_of_run`: `request_time_critical_pieces` looks at the first piece and at all pieces whose
  deadline is near, and the first piece has the earliest deadline.

The requests themselves, `last_requested` and `peers`, which nothing reads, are left out.
-/

namespace P2Player.TimeCritical

open Transition

/-- `alert_when_available` among the flags. -/
def alertWhenAvailable (flags : ℕ) : Bool := flags &&& 1 ≠ 0

/-- A `time_duration` of so many milliseconds, in microseconds. -/
def milliseconds (t : ℤ) : ℤ := t * 1000

/-- `time_critical_piece`; `firstRequested` is `none` for `min_time`. -/
structure TimeCriticalPiece where
  firstRequested : Option ℤ
  deadline : ℤ
  flags : ℕ
  piece : ℕ

/-- `m_time_critical_pieces` and the averages, the pieces that the torrent has and the priorities of its
picker, and the pieces for which `read_piece` was called. -/
structure State where
  critical : List TimeCriticalPiece
  averagePieceTime : ℤ
  pieceTimeDeviation : ℤ
  havePiece : ℕ → Bool
  piecePriority : ℕ → ℕ
  reads : List ℕ

/-- Nothing has a deadline yet, and no piece is filtered. -/
def start : State := ⟨[], 0, 0, fun _ => false, fun _ => 1, []⟩

/-- The search of the functions below. -/
def find (piece : ℕ) (l : List TimeCriticalPiece) : Option (Cursor TimeCriticalPiece) :=
  Cursor.find (fun p => p.piece = piece) l

/-- An element whose deadline has changed is swapped to its place. -/
def resort (i : Cursor TimeCriticalPiece) : Cursor TimeCriticalPiece :=
  (i.moveRight fun p next => next.deadline < p.deadline).moveLeft fun p prior => p.deadline < prior.deadline

/-- `set_piece_deadline` at the time `now`. -/
def setPieceDeadline (piece : ℕ) (t : ℤ) (flags : ℕ) (now : ℤ) (s : State) : State :=
  let deadline := now + milliseconds t
  if s.havePiece piece then
    if alertWhenAvailable flags then { s with reads := s.reads ++ [piece] } else s
  else
    match find piece s.critical with
    | some i =>
      { s with
        critical := (resort (i.set { i.focus with deadline := deadline, flags := flags })).toList }
    | none =>
      { s with
        critical := (Cursor.upperBound TimeCriticalPiece.deadline ⟨none, deadline, flags, piece⟩
          s.critical).toList }

/-- The averages after a piece that took `dlTime`. -/
@[simps critical reads]
def updateAverages (dlTime : ℤ) (s : State) : State :=
  let diff := if dlTime > s.averagePieceTime then dlTime - s.averagePieceTime
    else s.averagePieceTime - dlTime
  { s with
    pieceTimeDeviation :=
      if s.averagePieceTime = 0 then s.pieceTimeDeviation
      else if s.pieceTimeDeviation = 0 then diff
      else (s.pieceTimeDeviation * 6 + diff * 4).tdiv 10
    averagePieceTime :=
      if s.averagePieceTime = 0 then dlTime else (s.averagePieceTime * 6 + dlTime * 4).tdiv 10 }

/-- `remove_time_critical_piece`, where `finished` has the time when the piece is finished; `min_time` is
zero. -/
def removeTimeCriticalPiece (piece : ℕ) (finished : Option ℤ) (s : State) : State :=
  match find piece s.critical with
  | none => s
  | some i =>
    let s := match finished with
      | none => s
      | some now =>
        updateAverages (now - i.focus.firstRequested.getD 0)
          (if alertWhenAvailable i.focus.flags then { s with reads := s.reads ++ [piece] } else s)
    { s with critical := i.others }

/-- `remove_time_critical_pieces`. -/
def removeTimeCriticalPieces (priority : List ℕ) (s : State) : State :=
  { s with critical := s.critical.filter fun p => priority[p.piece]? ≠ some 0 }

/-- What `piece_picker::set_piece_priority` returns: the piece is filtered now and was not, or the other
way around. -/
def filterUpdated (piecePriority : ℕ → ℕ) (index newPriority : ℕ) : Bool :=
  (newPriority = 0 ∧ piecePriority index ≠ 0) ∨ (newPriority ≠ 0 ∧ piecePriority index = 0)

/-- The priority of a piece in the picker, a field of three bits. -/
def State.setPriority (index newPriority : ℕ) (s : State) : State :=
  { s with piecePriority := Function.update s.piecePriority index (newPriority % 8) }

/-- `torrent::set_piece_priority`. -/
def setPiecePriority (index priority : ℕ) (s : State) : State :=
  if filterUpdated s.piecePriority index priority ∧ priority = 0 then
    removeTimeCriticalPiece index none (s.setPriority index priority)
  else s.setPriority index priority

/-- The loop of `prioritize_pieces`, with `filter_updated`. -/
def setPriorities : ℕ → List ℕ → State → State × Bool
  | _, [], s => (s, false)
  | index, i :: pieces, s =>
    let rest := setPriorities (index + 1) pieces (s.setPriority index i)
    (rest.1, filterUpdated s.piecePriority index i || rest.2)

/-- `prioritize_pieces`. -/
def prioritizePieces (pieces : List ℕ) (s : State) : State :=
  let after := setPriorities 0 pieces s
  if after.2 then removeTimeCriticalPieces pieces after.1 else after.1

/-- The loop of `request_time_critical_pieces`: the pieces it looks at, the first one and those up to one
whose deadline is behind the horizon. -/
def considered (horizon : ℤ) : List TimeCriticalPiece → List TimeCriticalPiece
  | [] => []
  | p :: ps => p :: ps.takeWhile fun q => q.deadline ≤ horizon

/-- The horizon at the time `now`. -/
def State.horizon (s : State) (now : ℤ) : ℤ := now + s.averagePieceTime + s.pieceTimeDeviation * 4

/-- `request_time_critical_pieces`, where `added` tells for which of the pieces that it looks at a request is
added. -/
def requestTimeCriticalPieces (added : ℕ → Bool) (now : ℤ) (s : State) : State :=
  let n := (considered (s.horizon now) s.critical).length
  { s with
    critical := (s.critical.take n).map (fun p =>
      if added p.piece ∧ p.firstRequested = none then { p with firstRequested := some now } else p) ++
        s.critical.drop n }

/-- What happens to the list. -/
inductive Action
  | setPieceDeadline (piece : ℕ) (t : ℤ) (flags : ℕ) (now : ℤ)
  | resetPieceDeadline (piece : ℕ)
  | clearPiecesDeadline
  | piecePassed (piece : ℕ) (now : ℤ)
  | pieceChecked (piece : ℕ)
  | setPiecePriority (index priority : ℕ)
  | prioritizePieces (pieces : List ℕ)
  | filterPiece (index priority : ℕ)
  | requestTimeCriticalPieces (added : ℕ → Bool) (now : ℤ)

/-- A piece that the torrent has from now on. -/
def State.have (s : State) (piece : ℕ) : State :=
  { s with havePiece := Function.update s.havePiece piece true }

/-- One action of a torrent that is no seed.  A piece that has passed is taken off the list before the
torrent has it, one that is found by the check of the files after that.  `filter_piece`, the resume data
and `update_sparse_piece_prio` set priorities and leave the list alone. -/
def step (s : State) : Action → Option State
  | .setPieceDeadline piece t flags now => some (setPieceDeadline piece t flags now s)
  | .resetPieceDeadline piece => some (removeTimeCriticalPiece piece none s)
  | .clearPiecesDeadline => some { s with critical := [] }
  | .piecePassed piece now => some ((removeTimeCriticalPiece piece (some now) s).have piece)
  | .pieceChecked piece => some (removeTimeCriticalPiece piece none (s.have piece))
  | .setPiecePriority index priority => some (setPiecePriority index priority s)
  | .prioritizePieces pieces =>
    -- the vector has a priority for each piece of the torrent
    if ∀ p ∈ s.critical, p.piece < pieces.length then some (prioritizePieces pieces s) else none
  | .filterPiece index priority => some (s.setPriority index priority)
  | .requestTimeCriticalPieces added now => some (requestTimeCriticalPieces added now s)

/-! ### What the list stands for -/

/-- The deadline and the flags of each piece, with what the state has besides. -/
@[ext]
structure Deadlines where
  deadline : ℕ → Option (ℤ × ℕ)
  havePiece : ℕ → Bool
  piecePriority : ℕ → ℕ
  reads : List ℕ

/-- Whether a piece is to be read as soon as it is there. -/
def Deadlines.wanted (x : Deadlines) (piece : ℕ) : Bool :=
  (x.deadline piece).any fun d => alertWhenAvailable d.2

/-- Some piece is filtered by the new priorities and was not, or the other way around. -/
def Deadlines.Refiltered (x : Deadlines) (pieces : List ℕ) : Prop :=
  ∃ i < pieces.length, ¬ (pieces[i]? = some 0 ↔ x.piecePriority i = 0)

instance (x : Deadlines) (pieces : List ℕ) : Decidable (x.Refiltered pieces) :=
  inferInstanceAs (Decidable (∃ i < pieces.length, ¬ (pieces[i]? = some 0 ↔ x.piecePriority i = 0)))

/-- What an action means for the deadlines.  A piece whose priority is set to zero loses its deadline
only when the filter of this piece has changed, or of some piece where many are set. -/
def apply (x : Deadlines) : Action → Deadlines
  | .setPieceDeadline piece t flags now =>
    if x.havePiece piece then
      if alertWhenAvailable flags then { x with reads := x.reads ++ [piece] } else x
    else { x with deadline := Function.update x.deadline piece (some (now + milliseconds t, flags)) }
  | .resetPieceDeadline piece => { x with deadline := Function.update x.deadline piece none }
  | .clearPiecesDeadline => { x with deadline := fun _ => none }
  | .piecePassed piece _ =>
    { x with
      deadline := Function.update x.deadline piece none
      havePiece := Function.update x.havePiece piece true
      reads := if x.wanted piece then x.reads ++ [piece] else x.reads }
  | .pieceChecked piece =>
    { x with
      deadline := Function.update x.deadline piece none
      havePiece := Function.update x.havePiece piece true }
  | .setPiecePriority index priority =>
    { x with
      deadline :=
        if priority = 0 ∧ x.piecePriority index ≠ 0 then Function.update x.deadline index none
        else x.deadline
      piecePriority := Function.update x.piecePriority index (priority % 8) }
  | .prioritizePieces pieces =>
    { x with
      deadline := fun p => if x.Refiltered pieces ∧ pieces[p]? = some 0 then none else x.deadline p
      piecePriority := fun p => (pieces[p]?.map (· % 8)).getD (x.piecePriority p) }
  | .filterPiece index priority =>
    { x with piecePriority := Function.update x.piecePriority index (priority % 8) }
  | .requestTimeCriticalPieces _ _ => x

/-- The deadline of a piece in the list. -/
def deadlineIn (l : List TimeCriticalPiece) (piece : ℕ) : Option (ℤ × ℕ) :=
  (l.find? fun p => p.piece = piece).map fun p => (p.deadline, p.flags)

/-- What the list stands for. -/
def State.deadlines (s : State) : Deadlines :=
  ⟨deadlineIn s.critical, s.havePiece, s.piecePriority, s.reads⟩

/-- The list is in the order of the deadlines, has each piece once, and no piece that the torrent has. -/
structure Ordered (s : State) : Prop where
  sorted : s.critical.Pairwise fun a b => a.deadline ≤ b.deadline
  nodup : (s.critical.map TimeCriticalPiece.piece).Nodup
  missing : ∀ p ∈ s.critical, s.havePiece p.piece = false

section Lookup

variable {l l' rest : List TimeCriticalPiece} {p : TimeCriticalPiece}

/-- The element that is in front, in any order of the list. -/
theorem deadlineIn_of_perm (hnodup : (l.map TimeCriticalPiece.piece).Nodup)
    (hperm : l.Perm (p :: rest)) :
    deadlineIn l = Function.update (deadlineIn rest) p.piece (some (p.deadline, p.flags)) := by
  funext q
  unfold deadlineIn
  rw [find?_eq_of_perm hnodup hperm]
  by_cases hq : q = p.piece
  · subst hq
    rw [Function.update_self, List.find?_cons_of_pos (by simp)]
    rfl
  · rw [Function.update_of_ne hq, List.find?_cons_of_neg (by simpa using Ne.symm hq)]

/-- A piece that is not in the list has no deadline. -/
theorem deadlineIn_of_notMem {q : ℕ} (hq : q ∉ l.map TimeCriticalPiece.piece) :
    deadlineIn l q = none := by
  unfold deadlineIn
  rw [List.find?_eq_none.2 fun p hp hpiece => hq (List.mem_map.2 ⟨p, hp, by simpa using hpiece⟩)]
  rfl

/-- An element is taken out. -/
theorem deadlineIn_others (hnodup : (l.map TimeCriticalPiece.piece).Nodup)
    (hperm : l.Perm (p :: rest)) :
    deadlineIn rest = Function.update (deadlineIn l) p.piece none := by
  have hnot := List.nodup_cons.1 ((hperm.map TimeCriticalPiece.piece).nodup_iff.1 hnodup)
  rw [deadlineIn_of_perm hnodup hperm, Function.update_idem]
  funext q
  by_cases hq : q = p.piece
  · rw [hq, Function.update_self, deadlineIn_of_notMem hnot.1]
  · rw [Function.update_of_ne hq]

end Lookup

variable {s s' : State}

theorem find_eq_none_iff {piece : ℕ} {l : List TimeCriticalPiece} :
    find piece l = none ↔ piece ∉ l.map TimeCriticalPiece.piece := by
  rw [find, Cursor.find_eq_none, List.mem_map]
  simp

theorem find_spec {piece : ℕ} {l : List TimeCriticalPiece} {i : Cursor TimeCriticalPiece}
    (hi : find piece l = some i) : l.Perm (i.focus :: i.others) ∧ i.focus.piece = piece :=
  ⟨Cursor.perm_of_find hi, by simpa using Cursor.focus_of_find hi⟩

/-- What is left of the list keeps its order. -/
theorem Ordered.others (h : Ordered s) {piece : ℕ} {i : Cursor TimeCriticalPiece}
    (hi : find piece s.critical = some i) :
    i.others.Pairwise (fun a b => a.deadline ≤ b.deadline) ∧
      (i.others.map TimeCriticalPiece.piece).Nodup ∧
        (∀ p ∈ i.others, p.piece ≠ piece ∧ s.havePiece p.piece = false) := by
  obtain ⟨hperm, hpiece⟩ := find_spec hi
  have hsorted := h.sorted
  rw [← Cursor.toList_of_find hi] at hsorted
  have hnodup := List.nodup_cons.1 ((hperm.map TimeCriticalPiece.piece).nodup_iff.1 h.nodup)
  refine ⟨(Cursor.pairwise_toList.1 hsorted).1, hnodup.2, fun p hp => ⟨fun he => ?_, ?_⟩⟩
  · exact hnodup.1 (hpiece.trans he.symm ▸ List.mem_map_of_mem hp)
  · exact h.missing p (hperm.mem_iff.2 (List.mem_cons_of_mem _ hp))

theorem resort_perm (i : Cursor TimeCriticalPiece) : (resort i).toList.Perm (i.focus :: i.others) :=
  (Cursor.moveLeft_perm _).trans ((Cursor.moveRight_perm i).trans i.toList_perm)

theorem pairwise_resort {i : Cursor TimeCriticalPiece}
    (h : i.others.Pairwise fun a b => a.deadline ≤ b.deadline) :
    (resort i).toList.Pairwise fun a b => a.deadline ≤ b.deadline :=
  Cursor.pairwise_moveLeft_moveRight (fun _ _ => Iff.rfl) (fun _ _ => Iff.rfl) h

/-- A list in order that consists of one element and a rest. -/
theorem ordered_of_perm {p : TimeCriticalPiece} {rest l : List TimeCriticalPiece}
    (hperm : l.Perm (p :: rest)) (hsorted : l.Pairwise fun a b => a.deadline ≤ b.deadline)
    (hnodup : (rest.map TimeCriticalPiece.piece).Nodup)
    (hrest : ∀ q ∈ rest, q.piece ≠ p.piece ∧ s.havePiece q.piece = false)
    (hp : s.havePiece p.piece = false) : Ordered { s with critical := l } := by
  refine ⟨hsorted, (hperm.map TimeCriticalPiece.piece).nodup_iff.2 (List.nodup_cons.2 ⟨?_, hnodup⟩),
    fun q hq => ?_⟩
  · intro hmem
    obtain ⟨q, hq, hpiece⟩ := List.mem_map.1 hmem
    exact (hrest q hq).1 hpiece
  · rcases List.mem_cons.1 (hperm.mem_iff.1 hq) with rfl | hq
    · exact hp
    · exact (hrest q hq).2

theorem ordered_setPieceDeadline (h : Ordered s) (piece : ℕ) (t : ℤ) (flags : ℕ) (now : ℤ) :
    Ordered (setPieceDeadline piece t flags now s) ∧
      (setPieceDeadline piece t flags now s).deadlines =
        apply s.deadlines (.setPieceDeadline piece t flags now) := by
  unfold setPieceDeadline apply State.deadlines
  by_cases hhave : s.havePiece piece = true
  · by_cases hflag : alertWhenAvailable flags = true
    · simp only [hhave, hflag, ↓reduceIte]
      exact ⟨⟨h.sorted, h.nodup, h.missing⟩, trivial⟩
    · simp only [hhave, hflag, Bool.false_eq_true, ↓reduceIte]
      exact ⟨h, trivial⟩
  · rw [Bool.not_eq_true] at hhave
    simp only [hhave, Bool.false_eq_true, ↓reduceIte]
    cases hi : find piece s.critical with
    | some i =>
      obtain ⟨hperm, rfl⟩ := find_spec hi
      obtain ⟨hsorted, hnodup, hrest⟩ := h.others hi
      have hperm' := resort_perm
        (i.set { i.focus with deadline := now + milliseconds t, flags := flags })
      have hordered := ordered_of_perm hperm' (pairwise_resort hsorted) hnodup hrest hhave
      refine ⟨hordered, ?_⟩
      have hnew := deadlineIn_of_perm hordered.nodup hperm'
      dsimp only at hnew ⊢
      rw [hnew, Cursor.others_set, deadlineIn_of_perm h.nodup hperm, Cursor.set_focus,
        Function.update_idem]
    | none =>
      have hnew := find_eq_none_iff.1 hi
      have hperm : (Cursor.upperBound TimeCriticalPiece.deadline
        ⟨none, now + milliseconds t, flags, piece⟩ s.critical).toList.Perm _ := Cursor.upperBound_perm ..
      have hordered := ordered_of_perm hperm (Cursor.pairwise_upperBound h.sorted) h.nodup
        (fun q hq => ⟨fun he => hnew (List.mem_map.2 ⟨q, hq, he⟩), h.missing q hq⟩) hhave
      refine ⟨hordered, ?_⟩
      have hnew := deadlineIn_of_perm hordered.nodup hperm
      dsimp only at hnew ⊢
      rw [hnew]

/-! ### Removal -/

/-- A piece is taken off the list, and read when it is finished and wanted. -/
structure Removed (s s' : State) (piece : ℕ) (finished : Bool) : Prop where
  ordered : Ordered s'
  gone : ∀ p ∈ s'.critical, p.piece ≠ piece
  deadline : deadlineIn s'.critical = Function.update (deadlineIn s.critical) piece none
  havePiece : s'.havePiece = s.havePiece
  piecePriority : s'.piecePriority = s.piecePriority
  reads : s'.reads = if finished && s.deadlines.wanted piece then s.reads ++ [piece] else s.reads

theorem removed_removeTimeCriticalPiece (h : Ordered s) (piece : ℕ) (finished : Option ℤ) :
    Removed s (removeTimeCriticalPiece piece finished s) piece finished.isSome := by
  unfold removeTimeCriticalPiece
  cases hi : find piece s.critical with
  | none =>
    have hnew := find_eq_none_iff.1 hi
    have hnone := deadlineIn_of_notMem hnew
    refine ⟨h, fun p hp he => hnew (List.mem_map.2 ⟨p, hp, he⟩), ?_, rfl, rfl, ?_⟩
    · exact (Function.update_eq_self_iff.2 hnone.symm).symm
    · simp [Deadlines.wanted, State.deadlines, hnone]
  | some i =>
    obtain ⟨hperm, hpiece⟩ := find_spec hi
    obtain ⟨hsorted, hnodup, hrest⟩ := h.others hi
    have hdeadline : deadlineIn i.others = Function.update (deadlineIn s.critical) piece none :=
      hpiece ▸ deadlineIn_others h.nodup hperm
    have hwanted : s.deadlines.wanted piece = alertWhenAvailable i.focus.flags := by
      unfold Deadlines.wanted State.deadlines
      dsimp only
      rw [deadlineIn_of_perm h.nodup hperm, hpiece, Function.update_self]
      rfl
    cases finished with
    | none =>
      exact ⟨⟨hsorted, hnodup, fun p hp => (hrest p hp).2⟩, fun p hp => (hrest p hp).1, hdeadline, rfl,
        rfl, by simp⟩
    | some now =>
      have hpicker : (updateAverages (now - i.focus.firstRequested.getD 0)
          (if alertWhenAvailable i.focus.flags then { s with reads := s.reads ++ [piece] }
            else s)).havePiece = s.havePiece ∧
          (updateAverages (now - i.focus.firstRequested.getD 0)
            (if alertWhenAvailable i.focus.flags then { s with reads := s.reads ++ [piece] }
              else s)).piecePriority = s.piecePriority := by
        unfold updateAverages
        dsimp only
        split_ifs
        · exact ⟨rfl, rfl⟩
        · exact ⟨rfl, rfl⟩
      refine ⟨⟨hsorted, hnodup, fun p hp => ?_⟩, fun p hp => (hrest p hp).1, hdeadline, hpicker.1,
        hpicker.2, ?_⟩
      · rw [hpicker.1]
        exact (hrest p hp).2
      · rw [hwanted]
        dsimp only
        rw [updateAverages_reads]
        cases alertWhenAvailable i.focus.flags with
        | true => rfl
        | false => rfl

theorem Removed.have_havePiece {piece : ℕ} {finished : Bool} (hr : Removed s s' piece finished) :
    (s'.have piece).havePiece = Function.update s.havePiece piece true := by
  rw [← hr.havePiece]
  rfl

/-- The order of the two does not matter to a piece that is only taken off the list. -/
theorem removeTimeCriticalPiece_have (s : State) (piece : ℕ) :
    removeTimeCriticalPiece piece none (s.have piece) =
      (removeTimeCriticalPiece piece none s).have piece := by
  unfold removeTimeCriticalPiece State.have
  cases find piece s.critical with
  | none => rfl
  | some i => rfl

/-- A piece that is not in the list is there from now on. -/
theorem Ordered.have (h : Ordered s) {piece : ℕ} (hgone : ∀ p ∈ s.critical, p.piece ≠ piece) :
    Ordered (s.have piece) :=
  ⟨h.sorted, h.nodup, fun p hp => (Function.update_of_ne (hgone p hp) ..).trans (h.missing p hp)⟩

/-- A list that has lost some of its elements. -/
theorem Ordered.sublist (h : Ordered s) {l : List TimeCriticalPiece} (hl : l.Sublist s.critical) :
    Ordered { s with critical := l } :=
  ⟨h.sorted.sublist hl, h.nodup.sublist (hl.map _), fun p hp => h.missing p (hl.subset hp)⟩

theorem deadlineIn_filter (l : List TimeCriticalPiece) (priority : List ℕ) (piece : ℕ) :
    deadlineIn (l.filter fun p => priority[p.piece]? ≠ some 0) piece =
      if priority[piece]? = some 0 then none else deadlineIn l piece := by
  unfold deadlineIn
  rw [List.find?_filter]
  split_ifs with hpriority
  · rw [List.find?_eq_none.2, Option.map_none]
    intro p _ hp
    simp only [decide_eq_true_eq] at hp
    exact hp.1 (hp.2 ▸ hpriority)
  · refine congrArg (Option.map _) (congrArg (l.find? ·) (funext fun p => ?_))
    by_cases hp : p.piece = piece
    · simp [hp, hpriority]
    · simp [hp]

theorem filterUpdated_iff {piecePriority : ℕ → ℕ} {index priority : ℕ} :
    filterUpdated piecePriority index priority = true ↔ ¬ (priority = 0 ↔ piecePriority index = 0) := by
  rw [filterUpdated, decide_eq_true_eq]
  tauto

theorem State.setPriority_of_ne {index q : ℕ} (priority : ℕ) (s : State) (hq : q ≠ index) :
    (s.setPriority index priority).piecePriority q = s.piecePriority q :=
  Function.update_of_ne hq ..

/-- The loop sets the priority of each piece, and tells whether some filter has changed. -/
theorem setPriorities_eq (pieces : List ℕ) (index : ℕ) (s : State) :
    (setPriorities index pieces s).1 =
        { s with
          piecePriority := fun p =>
            if p < index then s.piecePriority p
            else (pieces[p - index]?.map (· % 8)).getD (s.piecePriority p) } ∧
      ((setPriorities index pieces s).2 = true ↔
        ∃ i < pieces.length, ¬ (pieces[i]? = some 0 ↔ s.piecePriority (index + i) = 0)) := by
  induction pieces generalizing index s with
  | nil => simp [setPriorities]
  | cons priority pieces ih =>
    obtain ⟨hstate, hupdated⟩ := ih (index + 1) (s.setPriority index priority)
    constructor
    · rw [setPriorities, hstate]
      refine congrArg (fun f => { s with piecePriority := f }) (funext fun p => ?_)
      unfold State.setPriority
      dsimp only
      rcases lt_trichotomy p index with hlt | rfl | hgt
      · rw [if_pos (by omega), if_pos hlt, Function.update_of_ne hlt.ne]
      · rw [if_pos (by omega), if_neg (lt_irrefl _), Function.update_self, Nat.sub_self]
        rfl
      · obtain ⟨k, rfl⟩ : ∃ k, p = index + 1 + k := ⟨p - (index + 1), by omega⟩
        rw [if_neg (by omega), if_neg (by omega), Function.update_of_ne (by omega), Nat.add_sub_cancel_left,
          show index + 1 + k - index = k + 1 by omega, List.getElem?_cons_succ]
    · rw [setPriorities, Bool.or_eq_true, hupdated, filterUpdated_iff]
      constructor
      · rintro (hfirst | ⟨i, hi, hchange⟩)
        · exact ⟨0, by simp, by simpa using hfirst⟩
        · refine ⟨i + 1, by simpa using hi, ?_⟩
          rw [State.setPriority_of_ne _ _ (by omega)] at hchange
          rw [List.getElem?_cons_succ, show index + (i + 1) = index + 1 + i by omega]
          exact hchange
      · rintro ⟨i, hi, hchange⟩
        cases i with
        | zero => exact Or.inl (by simpa using hchange)
        | succ i =>
          refine Or.inr ⟨i, by simpa using hi, ?_⟩
          rw [State.setPriority_of_ne _ _ (by omega)]
          rw [List.getElem?_cons_succ, show index + (i + 1) = index + 1 + i by omega] at hchange
          exact hchange

/-- The priorities have no part in the order of the list. -/
theorem Ordered.setPriority (h : Ordered s) (index priority : ℕ) :
    Ordered (s.setPriority index priority) :=
  ⟨h.sorted, h.nodup, h.missing⟩

theorem ordered_setPiecePriority (h : Ordered s) (index priority : ℕ) :
    Ordered (TimeCritical.setPiecePriority index priority s) ∧
      (TimeCritical.setPiecePriority index priority s).deadlines =
        apply s.deadlines (.setPiecePriority index priority) := by
  have hiff : (filterUpdated s.piecePriority index priority = true ∧ priority = 0) ↔
      (priority = 0 ∧ s.piecePriority index ≠ 0) := by
    rw [filterUpdated_iff]
    tauto
  unfold TimeCritical.setPiecePriority apply
  by_cases hfilter : priority = 0 ∧ s.piecePriority index ≠ 0
  · rw [if_pos (hiff.2 hfilter)]
    have hr := removed_removeTimeCriticalPiece (h.setPriority index priority) index none
    exact ⟨hr.ordered, Deadlines.ext (hr.deadline.trans (if_pos hfilter).symm) hr.havePiece
      hr.piecePriority hr.reads⟩
  · rw [if_neg fun hf => hfilter (hiff.1 hf)]
    exact ⟨h.setPriority index priority, Deadlines.ext (if_neg hfilter).symm rfl rfl rfl⟩

theorem ordered_prioritizePieces (h : Ordered s) (pieces : List ℕ) :
    Ordered (prioritizePieces pieces s) ∧
      (prioritizePieces pieces s).deadlines = apply s.deadlines (.prioritizePieces pieces) := by
  obtain ⟨hstate, hupdated⟩ := setPriorities_eq pieces 0 s
  simp only [Nat.not_lt_zero, ↓reduceIte, Nat.sub_zero, Nat.zero_add] at hstate hupdated
  unfold prioritizePieces
  dsimp only
  rw [hstate]
  split_ifs with hfilter
  · refine ⟨?_, Deadlines.ext (funext fun p => ?_) rfl rfl rfl⟩
    · have hsub := h.sublist
        (List.filter_sublist (p := fun p => decide (pieces[p.piece]? ≠ some 0)) (l := s.critical))
      exact ⟨hsub.sorted, hsub.nodup, hsub.missing⟩
    · have hrefiltered : s.deadlines.Refiltered pieces := hupdated.1 hfilter
      dsimp only [apply]
      rw [if_congr (and_iff_right hrefiltered) rfl rfl]
      exact deadlineIn_filter ..
  · refine ⟨⟨h.sorted, h.nodup, h.missing⟩, Deadlines.ext (funext fun p => ?_) rfl rfl rfl⟩
    dsimp only [apply]
    rw [if_neg fun hp => hfilter (hupdated.2 hp.1)]
    rfl

/-- The pieces that are requested keep their deadlines. -/
theorem map_requested {β : Type*} (f : TimeCriticalPiece → β) (added : ℕ → Bool) (now : ℤ) (n : ℕ)
    (hf : ∀ (p : TimeCriticalPiece) firstRequested, f { p with firstRequested := firstRequested } = f p)
    (l : List TimeCriticalPiece) :
    ((l.take n).map (fun p => if added p.piece ∧ p.firstRequested = none then
      { p with firstRequested := some now } else p) ++ l.drop n).map f = l.map f := by
  rw [List.map_append, List.map_map]
  have hmap : (l.take n).map (f ∘ fun p => if added p.piece ∧ p.firstRequested = none then
      { p with firstRequested := some now } else p) = (l.take n).map f := by
    refine List.map_congr_left fun p _ => ?_
    dsimp only [Function.comp]
    split_ifs
    · exact hf p _
    · rfl
  rw [hmap, ← List.map_append, List.take_append_drop]

/-- A request changes no deadline. -/
theorem deadlineIn_congr {l l' : List TimeCriticalPiece}
    (h : l'.map (fun p => (p.piece, p.deadline, p.flags)) =
      l.map fun p => (p.piece, p.deadline, p.flags)) : deadlineIn l' = deadlineIn l := by
  have hkey : ∀ (l : List TimeCriticalPiece) (q : ℕ), deadlineIn l q =
      ((l.map fun p => (p.piece, p.deadline, p.flags)).find? fun x => x.1 = q).map Prod.snd := by
    intro l q
    rw [List.find?_map, Option.map_map]
    rfl
  funext q
  rw [hkey, hkey, h]

theorem ordered_requestTimeCriticalPieces (h : Ordered s) (added : ℕ → Bool) (now : ℤ) :
    Ordered (requestTimeCriticalPieces added now s) ∧
      (requestTimeCriticalPieces added now s).deadlines = s.deadlines := by
  have hmap : ∀ {β : Type} (f : TimeCriticalPiece → β),
      (∀ (p : TimeCriticalPiece) r, f { p with firstRequested := r } = f p) →
        (requestTimeCriticalPieces added now s).critical.map f = s.critical.map f :=
    fun f hf => map_requested f added now _ hf s.critical
  refine ⟨⟨?_, ?_, fun p hp => ?_⟩, ?_⟩
  · have hsorted := h.sorted
    rw [← List.pairwise_map (f := TimeCriticalPiece.deadline) (R := (· ≤ ·))] at hsorted ⊢
    rwa [hmap _ fun _ _ => rfl]
  · rw [hmap _ fun _ _ => rfl]
    exact h.nodup
  · have hmem : p.piece ∈ (requestTimeCriticalPieces added now s).critical.map TimeCriticalPiece.piece :=
      List.mem_map_of_mem hp
    rw [hmap _ fun _ _ => rfl] at hmem
    obtain ⟨q, hq, hpiece⟩ := List.mem_map.1 hmem
    rw [← hpiece]
    exact h.missing q hq
  · exact congrArg (Deadlines.mk · s.havePiece s.piecePriority s.reads) (deadlineIn_congr (hmap _ fun _ _ => rfl))

/-! ### Every run -/

/-- One action keeps the list in order, and does to the deadlines what it means. -/
theorem ordered_step {a : Action} (h : Ordered s) (hs : step s a = some s') :
    Ordered s' ∧ s'.deadlines = apply s.deadlines a := by
  cases a with
  | setPieceDeadline piece t flags now =>
    cases hs
    exact ordered_setPieceDeadline h piece t flags now
  | resetPieceDeadline piece =>
    cases hs
    have hr := removed_removeTimeCriticalPiece h piece none
    exact ⟨hr.ordered, Deadlines.ext hr.deadline hr.havePiece hr.piecePriority hr.reads⟩
  | clearPiecesDeadline =>
    cases hs
    exact ⟨h.sublist (List.nil_sublist _), rfl⟩
  | piecePassed piece now =>
    cases hs
    have hr := removed_removeTimeCriticalPiece h piece (some now)
    exact ⟨hr.ordered.have hr.gone, Deadlines.ext hr.deadline hr.have_havePiece hr.piecePriority hr.reads⟩
  | pieceChecked piece =>
    cases hs
    rw [removeTimeCriticalPiece_have]
    have hr := removed_removeTimeCriticalPiece h piece none
    exact ⟨hr.ordered.have hr.gone, Deadlines.ext hr.deadline hr.have_havePiece hr.piecePriority hr.reads⟩
  | setPiecePriority index priority =>
    cases hs
    exact ordered_setPiecePriority h index priority
  | prioritizePieces pieces =>
    dsimp only [step] at hs
    split_ifs at hs
    cases hs
    exact ordered_prioritizePieces h pieces
  | filterPiece index priority =>
    cases hs
    exact ⟨h.setPriority index priority, rfl⟩
  | requestTimeCriticalPieces added now =>
    cases hs
    exact ordered_requestTimeCriticalPieces h added now

theorem ordered_start : Ordered start := ⟨List.Pairwise.nil, List.nodup_nil, fun _ hp => nomatch hp⟩

/-- **The list of the deadlines.**  In every run the list is in order, has each piece at most once and none
that the torrent has, and what it stands for is what was asked for. -/
theorem deadlines_of_run {as : List Action} (hr : run step start as = some s) :
    Ordered s ∧ s.deadlines = as.foldl apply start.deadlines :=
  run_refines (fun _ _ _ h hs => ordered_step h hs) ordered_start hr

/-- A piece that is filtered is asked for and keeps its deadline when nothing changes in the filter; a
second one is then brought forward, and the first one is checked. -/
theorem deadlines_of_run_forward :
    ∃ s, run step start
      [.prioritizePieces (.replicate 8 0), .setPieceDeadline 4 30 0 0, .prioritizePieces (.replicate 8 0),
        .setPieceDeadline 7 50 1 0, .setPieceDeadline 7 10 1 0, .piecePassed 4 20] = some s ∧
      Ordered s ∧ s.deadlines =
        [Action.prioritizePieces (.replicate 8 0), .setPieceDeadline 4 30 0 0,
          .prioritizePieces (.replicate 8 0), .setPieceDeadline 7 50 1 0, .setPieceDeadline 7 10 1 0,
          .piecePassed 4 20].foldl apply start.deadlines := by
  have hr : run step start
      [.prioritizePieces (.replicate 8 0), .setPieceDeadline 4 30 0 0, .prioritizePieces (.replicate 8 0),
        .setPieceDeadline 7 50 1 0, .setPieceDeadline 7 10 1 0, .piecePassed 4 20] = some _ := rfl
  exact ⟨_, hr, deadlines_of_run hr⟩

/-- The second call of `prioritize_pieces` updates no filter, and leaves the deadline alone. -/
example : (([Action.prioritizePieces [0, 0], .setPieceDeadline 1 30 0 0,
    .prioritizePieces [0, 0]].foldl apply start.deadlines).deadline 1) = some (30000, 0) := by decide

/-! ### The pieces that are requested -/

theorem mem_deadlineIn_iff {l : List TimeCriticalPiece}
    (hnodup : (l.map TimeCriticalPiece.piece).Nodup) {piece : ℕ} {d : ℤ × ℕ} :
    deadlineIn l piece = some d ↔ ∃ p ∈ l, p.piece = piece ∧ (p.deadline, p.flags) = d := by
  unfold deadlineIn
  rw [Option.map_eq_some_iff]
  refine exists_congr fun p => ?_
  rw [find?_eq_some_iff_of_nodup hnodup, and_assoc]

/-- In an ordered list everything in front of the horizon is looked at. -/
theorem mem_considered_iff {l : List TimeCriticalPiece} {horizon : ℤ}
    (hsorted : l.Pairwise fun a b => a.deadline ≤ b.deadline) {p : TimeCriticalPiece} :
    p ∈ considered horizon l ↔ p ∈ l ∧ (p.deadline ≤ horizon ∨ l.head? = some p) := by
  cases l with
  | nil => simp [considered]
  | cons first ps =>
    have hrest := (List.pairwise_cons.1 hsorted).2
    rw [considered, Cursor.takeWhile_eq_filter horizon hrest, List.mem_cons, List.mem_cons,
      List.mem_filter, decide_eq_true_eq, List.head?_cons, Option.some_inj]
    constructor
    · rintro (rfl | ⟨hp, hnear⟩)
      · exact ⟨.inl rfl, .inr rfl⟩
      · exact ⟨.inr hp, .inl hnear⟩
    · rintro ⟨rfl | hp, hnear⟩
      · exact .inl rfl
      · exact hnear.elim (fun hnear => .inr ⟨hp, hnear⟩) fun he => .inl he.symm

/-- **What `request_time_critical_pieces` looks at.**  In every run these are the first piece of the list, which
has the earliest deadline, and all pieces for which the deadline that was asked for is in front of the
horizon. -/
theorem considered_of_run {as : List Action} (hr : run step start as = some s) (now : ℤ) :
    (∀ piece, piece ∈ (considered (s.horizon now) s.critical).map TimeCriticalPiece.piece ↔
      ∃ d, (as.foldl apply start.deadlines).deadline piece = some d ∧
        (d.1 ≤ s.horizon now ∨ s.critical.head?.map TimeCriticalPiece.piece = some piece)) ∧
    ∀ first ∈ s.critical.head?, ∀ piece d,
      (as.foldl apply start.deadlines).deadline piece = some d → first.deadline ≤ d.1 := by
  obtain ⟨hordered, hdeadlines⟩ := run_refines (fun _ _ _ h hs => ordered_step h hs) ordered_start hr
  rw [← hdeadlines]
  refine ⟨fun piece => ?_, fun first hfirst piece d hd => ?_⟩
  · rw [List.mem_map]
    constructor
    · rintro ⟨p, hp, rfl⟩
      obtain ⟨hmem, hnear⟩ := (mem_considered_iff hordered.sorted).1 hp
      refine ⟨(p.deadline, p.flags), (mem_deadlineIn_iff hordered.nodup).2 ⟨p, hmem, rfl, rfl⟩, ?_⟩
      exact hnear.imp_right fun hhead => by rw [hhead]; rfl
    · rintro ⟨d, hd, hnear⟩
      obtain ⟨p, hmem, rfl, rfl⟩ := (mem_deadlineIn_iff hordered.nodup).1 hd
      refine ⟨p, (mem_considered_iff hordered.sorted).2 ⟨hmem, hnear.imp_right fun hhead => ?_⟩, rfl⟩
      obtain ⟨first, hfirst, hpiece⟩ := Option.map_eq_some_iff.1 hhead
      rw [hfirst, List.inj_on_of_nodup_map hordered.nodup (List.mem_of_head? hfirst) hmem hpiece]
  · obtain ⟨p, hmem, -, rfl⟩ := (mem_deadlineIn_iff hordered.nodup).1 hd
    have hsorted := hordered.sorted
    generalize s.critical = l at hfirst hmem hsorted
    cases l with
    | nil => cases hmem
    | cons first' ps =>
      cases hfirst
      rcases List.mem_cons.1 hmem with rfl | hmem
      · exact le_rfl
      · exact (List.pairwise_cons.1 hsorted).1 p hmem

/-- The first piece is looked at although its deadline is behind the horizon, the second one is not. -/
theorem considered_of_run_first :
    ∃ s, run step start [.setPieceDeadline 4 90 0 0, .setPieceDeadline 7 30 0 0] = some s ∧
      (∀ piece, piece ∈ (considered (s.horizon 5) s.critical).map TimeCriticalPiece.piece ↔
        ∃ d, ([Action.setPieceDeadline 4 90 0 0, .setPieceDeadline 7 30 0 0].foldl apply
            start.deadlines).deadline piece = some d ∧
          (d.1 ≤ s.horizon 5 ∨ s.critical.head?.map TimeCriticalPiece.piece = some piece)) ∧
      ∀ first ∈ s.critical.head?, ∀ piece d,
        ([Action.setPieceDeadline 4 90 0 0, .setPieceDeadline 7 30 0 0].foldl apply
          start.deadlines).deadline piece = some d → first.deadline ≤ d.1 := by
  have hr : run step start [.setPieceDeadline 4 90 0 0, .setPieceDeadline 7 30 0 0] = some _ := rfl
  exact ⟨_, hr, considered_of_run hr 5⟩

end P2Player.TimeCritical
