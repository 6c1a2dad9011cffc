import P2Player.Lib.Transition
import P2Player.Stream.PieceRemain

/-!
# The entry of a piece in the download queue

`piece_picker` of libtorrent keeps an entry for every piece that is being downloaded: the state of
each block, the peer that the block was last requested from, and how many peers have requested it,
with counters of the blocks in each state.

* `DownloadingPiece`, `Action`, `step`: the entry, and the calls that change it;
* `Counted`, `counted_of_run`: the counters count the blocks, in every run in which no requested
  block is marked as finished;
* `Recorded`, `always_recorded_iff`: every requested block has a peer, exactly as long as no block is
  requested from a null peer and `clear_peer` finds no block that is still requested.

The order of the download queue and the priorities of the pieces are left out.
-/

namespace P2Player.PiecePicker

open P2Player.Stream (BlockState)
open Transition

variable {P : Type*} {n : ℕ}

/-- `piece_state_t`. -/
inductive PieceState
  | none
  | slow
  | medium
  | fast
  deriving DecidableEq

/-- `block_info`, where a pointer to a peer may be null, and `num_peers` has 14 bits. -/
structure BlockInfo (P : Type*) where
  peer : Option P
  numPeers : ℕ
  state : BlockState

/-- `downloading_piece` of a piece with `n` blocks; the counters have 16 bits. -/
structure DownloadingPiece (P : Type*) (n : ℕ) where
  state : PieceState
  info : Fin n → BlockInfo P
  finished : ℤ
  writing : ℤ
  requested : ℤ

/-- A value as an `int16_t`. -/
def int16 (x : ℤ) : ℤ := x.bmod (2 ^ 16)

/-- `add_download_piece`. -/
def addDownloadPiece : DownloadingPiece P n :=
  ⟨.none, fun _ => ⟨none, 0, .none⟩, 0, 0, 0⟩

/-- The block `i` in a new state. -/
@[simps state finished writing requested]
def DownloadingPiece.set (dp : DownloadingPiece P n) (i : Fin n) (info : BlockInfo P) :
    DownloadingPiece P n :=
  { dp with info := Function.update dp.info i info }

@[simp] theorem DownloadingPiece.set_info (dp : DownloadingPiece P n) (i : Fin n)
    (info : BlockInfo P) : (dp.set i info).info = Function.update dp.info i info := rfl

/-- `mark_as_downloading`. -/
def markAsDownloading (i : Fin n) (peer : Option P) (state : PieceState) :
    Option (DownloadingPiece P n) → Option (DownloadingPiece P n) × Bool
  | none =>
    (some { addDownloadPiece.set i ⟨peer, 1, .requested⟩ with state := state, requested := 1 }, true)
  | some dp =>
    let info := dp.info i
    if info.state = .writing ∨ info.state = .finished then (some dp, false)
    else
      (some { dp.set i ⟨peer, (info.numPeers + 1) % 2 ^ 14, .requested⟩ with
        state := if dp.state = .none then state else dp.state
        requested :=
          if info.state = .requested then dp.requested else int16 (dp.requested + 1) }, true)

/-- `mark_as_writing`, where `havePiece` tells whether the piece is complete already. -/
def markAsWriting (havePiece : Bool) (i : Fin n) (peer : Option P) :
    Option (DownloadingPiece P n) → Option (DownloadingPiece P n) × Bool
  | none =>
    if havePiece then (none, false)
    else (some { addDownloadPiece.set i ⟨peer, 0, .writing⟩ with writing := 1 }, true)
  | some dp =>
    let info := dp.info i
    if info.state = .writing ∨ info.state = .finished then
      (some (dp.set i { info with peer := peer }), false)
    else
      let requested :=
        if info.state = .requested then int16 (dp.requested - 1) else dp.requested
      -- all other requests for this block are taken as cancelled
      (some { dp.set i ⟨peer, 0, .writing⟩ with
        state := if requested = 0 then .none else dp.state
        writing := int16 (dp.writing + 1)
        requested := requested }, true)

/-- `mark_as_finished`.  A block that is still requested is not taken off `requested`. -/
def markAsFinished (havePiece : Bool) (i : Fin n) (peer : Option P) :
    Option (DownloadingPiece P n) → Option (DownloadingPiece P n)
  | none =>
    if havePiece then none
    else some { addDownloadPiece.set i ⟨peer, 0, .finished⟩ with finished := 1 }
  | some dp =>
    let info := dp.info i
    if info.state = .finished then some dp
    else
      some { dp.set i ⟨peer, info.numPeers, .finished⟩ with
        finished := int16 (dp.finished + 1)
        writing := if info.state = .writing then int16 (dp.writing - 1) else dp.writing }

/-- `abort_download`: one peer less, and the block is free when that was the last one. -/
def abortDownload (i : Fin n) : Option (DownloadingPiece P n) → Option (DownloadingPiece P n)
  | none => none
  | some dp =>
    let info := dp.info i
    if info.state = .requested then
      if 0 < info.numPeers - 1 then some (dp.set i { info with numPeers := info.numPeers - 1 })
      else
        let requested := int16 (dp.requested - 1)
        if requested + dp.finished + dp.writing = 0 then none
        else
          some { dp.set i ⟨none, 0, .none⟩ with
            state := if requested = 0 then .none else dp.state
            requested := requested }
    else some dp

/-- `clear_peer` at one block, whatever its state. -/
def BlockInfo.clearPeer [DecidableEq P] (peer : P) (info : BlockInfo P) : BlockInfo P :=
  { info with peer := if info.peer = some peer then none else info.peer }

/-- `clear_peer`: the peer is recorded nowhere any more. -/
def clearPeer [DecidableEq P] (peer : P) (s : Option (DownloadingPiece P n)) :
    Option (DownloadingPiece P n) :=
  s.map fun dp => { dp with info := fun i => (dp.info i).clearPeer peer }

/-- The calls. -/
inductive Action (P : Type*) (n : ℕ)
  | markAsDownloading (i : Fin n) (peer : Option P) (state : PieceState)
  | markAsWriting (i : Fin n) (peer : Option P)
  | markAsFinished (i : Fin n) (peer : Option P)
  | abortDownload (i : Fin n)
  | clearPeer (peer : P)

/-- One call; every call is possible at any time. -/
def step [DecidableEq P] (havePiece : Bool) (s : Option (DownloadingPiece P n)) :
    Action P n → Option (Option (DownloadingPiece P n))
  | .markAsDownloading i peer state => some (markAsDownloading i peer state s).1
  | .markAsWriting i peer => some (markAsWriting havePiece i peer s).1
  | .markAsFinished i peer => some (markAsFinished havePiece i peer s)
  | .abortDownload i => some (abortDownload i s)
  | .clearPeer peer => some (clearPeer peer s)

/-! ### The counters -/

/-- The number of the blocks among `is` that are in a state. -/
def count (info : Fin n → BlockInfo P) (state : BlockState) (is : List (Fin n)) : ℕ :=
  is.countP fun i => (info i).state = state

/-- A block outside the list does not count. -/
theorem count_update_of_notMem (info : Fin n → BlockInfo P) (state : BlockState) {is : List (Fin n)}
    {i : Fin n} (hi : i ∉ is) (b : BlockInfo P) :
    count (Function.update info i b) state is = count info state is := by
  refine List.countP_congr fun j hj => ?_
  rw [Function.update_of_ne (ne_of_mem_of_not_mem hj hi)]

/-- A block that changes moves from one count to another. -/
theorem count_update (info : Fin n → BlockInfo P) {is : List (Fin n)} (hnodup : is.Nodup) {i : Fin n}
    (hi : i ∈ is) (b : BlockInfo P) (state : BlockState) :
    count (Function.update info i b) state is + (if (info i).state = state then 1 else 0) =
      count info state is + if b.state = state then 1 else 0 := by
  induction is with
  | nil => cases hi
  | cons j is ih =>
    obtain ⟨hj, hnodup⟩ := List.nodup_cons.1 hnodup
    unfold count at ih ⊢
    rw [List.countP_cons, List.countP_cons]
    rcases List.mem_cons.1 hi with rfl | hmem
    · have hrest := count_update_of_notMem info state hj b
      unfold count at hrest
      rw [hrest, Function.update_self]
      simp only [decide_eq_true_eq]
      omega
    · have hne : j ≠ i := fun he => hj (he ▸ hmem)
      rw [Function.update_of_ne hne]
      have hrest := ih hnodup hmem
      omega

theorem count_le (info : Fin n → BlockInfo P) (state : BlockState) :
    count info state (List.finRange n) ≤ n :=
  List.countP_le_length.trans_eq List.length_finRange

theorem count_pos {info : Fin n → BlockInfo P} {state : BlockState} {i : Fin n}
    (hi : (info i).state = state) : 0 < count info state (List.finRange n) :=
  List.countP_pos_iff.2 ⟨i, List.mem_finRange i, decide_eq_true hi⟩

theorem count_lt {info : Fin n → BlockInfo P} {state : BlockState} {i : Fin n}
    (hi : (info i).state ≠ state) : count info state (List.finRange n) < n := by
  have hcount := count_update info (List.nodup_finRange n) (List.mem_finRange i)
    ⟨none, 0, state⟩ state
  rw [if_neg hi, if_pos rfl] at hcount
  have hle := count_le (Function.update info i ⟨none, 0, state⟩) state
  omega

/-- The counters count the blocks of the piece. -/
structure Counted (dp : DownloadingPiece P n) : Prop where
  requested : dp.requested = count dp.info .requested (List.finRange n)
  writing : dp.writing = count dp.info .writing (List.finRange n)
  finished : dp.finished = count dp.info .finished (List.finRange n)

theorem int16_of_lt {x : ℤ} (h0 : 0 ≤ x) (h : x < 2 ^ 15) : int16 x = x :=
  Int.bmod_eq_of_le (by omega) (by omega)

theorem counted_addDownloadPiece : Counted (addDownloadPiece : DownloadingPiece P n) := by
  have hzero : ∀ state : BlockState, state ≠ .none →
      count (addDownloadPiece : DownloadingPiece P n).info state (List.finRange n) = 0 := by
    intro state hstate
    refine List.countP_eq_zero.2 fun i _ => ?_
    simp [addDownloadPiece, hstate.symm]
  constructor
  all_goals
    rw [hzero _ (by decide)]
    rfl

/-- The counters follow a block that changes. -/
theorem Counted.set {dp : DownloadingPiece P n} (h : Counted dp) (i : Fin n) (b : BlockInfo P)
    (state : PieceState) {finished writing requested : ℤ}
    (hrequested : requested + (if (dp.info i).state = .requested then 1 else 0) =
      dp.requested + if b.state = .requested then 1 else 0)
    (hwriting : writing + (if (dp.info i).state = .writing then 1 else 0) =
      dp.writing + if b.state = .writing then 1 else 0)
    (hfinished : finished + (if (dp.info i).state = .finished then 1 else 0) =
      dp.finished + if b.state = .finished then 1 else 0) :
    Counted ⟨state, Function.update dp.info i b, finished, writing, requested⟩ := by
  have hcount := count_update dp.info (List.nodup_finRange n) (List.mem_finRange i) b
  have hr := hcount .requested
  have hw := hcount .writing
  have hf := hcount .finished
  obtain ⟨h₁, h₂, h₃⟩ := h
  constructor
  · dsimp only
    split_ifs at hrequested hr <;> omega
  · dsimp only
    split_ifs at hwriting hw <;> omega
  · dsimp only
    split_ifs at hfinished hf <;> omega

/-- The assertions of `mark_as_finished`: the block is not requested. -/
def Asserted (s : Option (DownloadingPiece P n)) : Action P n → Prop
  | .markAsFinished i _ => ∀ dp ∈ s, (dp.info i).state ≠ .requested
  | _ => True

section Counters

variable {dp : DownloadingPiece P n} (hn : n < 2 ^ 15) (h : Counted dp)

include hn h

theorem Counted.requested_succ {i : Fin n} (hi : (dp.info i).state ≠ .requested) :
    int16 (dp.requested + 1) = dp.requested + 1 := by
  have hlt := count_lt hi
  rw [h.requested]
  exact int16_of_lt (by omega) (by omega)

theorem Counted.requested_pred {i : Fin n} (hi : (dp.info i).state = .requested) :
    int16 (dp.requested - 1) = dp.requested - 1 := by
  have hpos := count_pos hi
  have hle := count_le dp.info .requested
  rw [h.requested]
  exact int16_of_lt (by omega) (by omega)

theorem Counted.writing_succ {i : Fin n} (hi : (dp.info i).state ≠ .writing) :
    int16 (dp.writing + 1) = dp.writing + 1 := by
  have hlt := count_lt hi
  rw [h.writing]
  exact int16_of_lt (by omega) (by omega)

theorem Counted.writing_pred {i : Fin n} (hi : (dp.info i).state = .writing) :
    int16 (dp.writing - 1) = dp.writing - 1 := by
  have hpos := count_pos hi
  have hle := count_le dp.info .writing
  rw [h.writing]
  exact int16_of_lt (by omega) (by omega)

theorem Counted.finished_succ {i : Fin n} (hi : (dp.info i).state ≠ .finished) :
    int16 (dp.finished + 1) = dp.finished + 1 := by
  have hlt := count_lt hi
  rw [h.finished]
  exact int16_of_lt (by omega) (by omega)

theorem Counted.markAsDownloading (i : Fin n) (peer : Option P) (state : PieceState) :
    ∀ dp' ∈ (markAsDownloading i peer state (some dp)).1, Counted dp' := by
  unfold PiecePicker.markAsDownloading
  dsimp only
  by_cases htaken : (dp.info i).state = .writing ∨ (dp.info i).state = .finished
  · rw [if_pos htaken]
    rintro _ ⟨⟩
    exact h
  · rw [if_neg htaken]
    obtain ⟨hwriting, hfinished⟩ := not_or.1 htaken
    rintro _ ⟨⟩
    refine h.set i _ _ ?_ (by simp [hwriting]) (by simp [hfinished])
    by_cases hr : (dp.info i).state = .requested
    · simp [hr]
    · simp [hr, h.requested_succ hn hr]

theorem Counted.markAsWriting (havePiece : Bool) (i : Fin n) (peer : Option P) :
    ∀ dp' ∈ (markAsWriting havePiece i peer (some dp)).1, Counted dp' := by
  unfold PiecePicker.markAsWriting
  dsimp only
  by_cases htaken : (dp.info i).state = .writing ∨ (dp.info i).state = .finished
  · rw [if_pos htaken]
    rintro _ ⟨⟩
    exact h.set i _ _ rfl rfl rfl
  · rw [if_neg htaken]
    obtain ⟨hwriting, hfinished⟩ := not_or.1 htaken
    rintro _ ⟨⟩
    refine h.set i _ _ ?_ (by simp [hwriting, h.writing_succ hn hwriting]) (by simp [hfinished])
    by_cases hr : (dp.info i).state = .requested
    · simp [hr, h.requested_pred hn hr]
    · simp [hr]

theorem Counted.markAsFinished (havePiece : Bool) (i : Fin n) (peer : Option P)
    (hi : (dp.info i).state ≠ .requested) :
    ∀ dp' ∈ markAsFinished havePiece i peer (some dp), Counted dp' := by
  unfold PiecePicker.markAsFinished
  dsimp only
  by_cases hfinished : (dp.info i).state = .finished
  · rw [if_pos hfinished]
    rintro _ ⟨⟩
    exact h
  · rw [if_neg hfinished]
    rintro _ ⟨⟩
    refine h.set i _ _ (by simp [hi]) ?_ (by simp [hfinished, h.finished_succ hn hfinished])
    by_cases hw : (dp.info i).state = .writing
    · simp [hw, h.writing_pred hn hw]
    · simp [hw]

theorem Counted.abortDownload (i : Fin n) :
    ∀ dp' ∈ abortDownload i (some dp), Counted dp' := by
  unfold PiecePicker.abortDownload
  dsimp only
  by_cases hr : (dp.info i).state = .requested
  · rw [if_pos hr]
    by_cases hpeers : 0 < (dp.info i).numPeers - 1
    · rw [if_pos hpeers]
      rintro _ ⟨⟩
      exact h.set i _ _ rfl rfl rfl
    · rw [if_neg hpeers, h.requested_pred hn hr]
      by_cases herased : dp.requested - 1 + dp.finished + dp.writing = 0
      · rw [if_pos herased]
        nofun
      · rw [if_neg herased]
        rintro _ ⟨⟩
        exact h.set i _ _ (by simp [hr]) (by simp [hr]) (by simp [hr])
  · rw [if_neg hr]
    rintro _ ⟨⟩
    exact h

end Counters

/-- One call keeps the counters right. -/
theorem counted_step [DecidableEq P] (hn : n < 2 ^ 15) {havePiece : Bool}
    {s s' : Option (DownloadingPiece P n)} {a : Action P n} (h : ∀ dp ∈ s, Counted dp)
    (ha : Asserted s a) (hs : step havePiece s a = some s') : ∀ dp ∈ s', Counted dp := by
  have hnew : Counted (addDownloadPiece : DownloadingPiece P n) := counted_addDownloadPiece
  cases a with
  | markAsDownloading i peer state =>
    cases hs
    cases s with
    | none =>
      rintro _ ⟨⟩
      exact hnew.set i _ _ rfl rfl rfl
    | some dp => exact (h dp rfl).markAsDownloading hn i peer state
  | markAsWriting i peer =>
    cases hs
    cases s with
    | none =>
      cases havePiece with
      | true => nofun
      | false =>
        rintro _ ⟨⟩
        exact hnew.set i _ _ rfl rfl rfl
    | some dp => exact (h dp rfl).markAsWriting hn havePiece i peer
  | markAsFinished i peer =>
    cases hs
    cases s with
    | none =>
      cases havePiece with
      | true => nofun
      | false =>
        rintro _ ⟨⟩
        exact hnew.set i _ _ rfl rfl rfl
    | some dp => exact (h dp rfl).markAsFinished hn havePiece i peer (ha dp rfl)
  | abortDownload i =>
    cases hs
    cases s with
    | none => nofun
    | some dp => exact (h dp rfl).abortDownload hn i
  | clearPeer peer =>
    cases hs
    intro dp' hdp'
    obtain ⟨dp, hdp, rfl⟩ := Option.mem_map.1 hdp'
    have hcount : ∀ state is,
        count (fun j => (dp.info j).clearPeer peer) state is = count dp.info state is :=
      fun _ _ => rfl
    obtain ⟨hrequested, hwriting, hfinished⟩ := h dp hdp
    exact ⟨by rw [hcount, ← hrequested], by rw [hcount, ← hwriting], by rw [hcount, ← hfinished]⟩

/-- In every run that keeps to the assertions, the counters count the blocks. -/
theorem counted_of_run [DecidableEq P] (hn : n < 2 ^ 15) {havePiece : Bool} {as : List (Action P n)}
    {s : Option (DownloadingPiece P n)} (has : Along (step havePiece) Asserted none as)
    (hr : run (step havePiece) none as = some s) : ∀ dp ∈ s, Counted dp :=
  Along.keeps (I := fun s => ∀ dp ∈ s, Counted dp) (fun _ _ _ h ha hs => counted_step hn h ha hs)
    (by rintro _ ⟨⟩) has hr

/-- An aborted download changes no other block. -/
theorem abortDownload_info {i j : Fin n} {dp dp' : DownloadingPiece P n}
    (h : abortDownload i (some dp) = some dp') (hj : j ≠ i) : dp'.info j = dp.info j := by
  unfold abortDownload at h
  dsimp only at h
  split_ifs at h
  all_goals cases h
  · exact Function.update_of_ne hj ..
  · exact Function.update_of_ne hj ..
  · exact Function.update_of_ne hj ..
  · rfl

/-- A piece with a block that is written or finished stays in the queue. -/
theorem Counted.exists_abortDownload {dp : DownloadingPiece P n} (hn : n < 2 ^ 15) (h : Counted dp)
    (hpos : dp.writing + dp.finished ≠ 0) (i : Fin n) :
    ∃ dp', PiecePicker.abortDownload i (some dp) = some dp' ∧ Counted dp' ∧
      dp'.writing = dp.writing ∧ dp'.finished = dp.finished := by
  have hcounted := h.abortDownload hn i
  unfold PiecePicker.abortDownload at hcounted ⊢
  dsimp only at hcounted ⊢
  split_ifs at hcounted ⊢ with hr hpeers herased
  · exact ⟨_, rfl, hcounted _ rfl, rfl, rfl⟩
  · have hrequested := h.requested
    have hpos' := count_pos hr
    rw [h.requested_pred hn hr] at herased
    rw [h.writing, h.finished] at hpos herased
    omega
  · exact ⟨_, rfl, hcounted _ rfl, rfl, rfl⟩
  · exact ⟨_, rfl, hcounted _ rfl, rfl, rfl⟩
  · exact ⟨_, rfl, hcounted _ rfl, rfl, rfl⟩

/-! ### The peers of the requested blocks -/

/-- Every requested block has a peer. -/
def Recorded (info : Fin n → BlockInfo P) : Prop :=
  ∀ i, (info i).state = .requested → (info i).peer ≠ none

/-- No block is requested from a null peer, unless it is downloaded already, and `clear_peer` finds no
block that is requested. -/
def KeepsPeers (s : Option (DownloadingPiece P n)) : Action P n → Prop
  | .markAsDownloading i peer _ =>
    peer = none → ∃ dp ∈ s, (dp.info i).state = .writing ∨ (dp.info i).state = .finished
  | .clearPeer peer =>
    ∀ dp ∈ s, ∀ i, (dp.info i).state = .requested → (dp.info i).peer ≠ some peer
  | _ => True

theorem recorded_addDownloadPiece : Recorded (addDownloadPiece : DownloadingPiece P n).info := nofun

/-- The other blocks keep their peers. -/
theorem Recorded.update_iff {info : Fin n → BlockInfo P} (h : Recorded info) (i : Fin n)
    (b : BlockInfo P) :
    Recorded (Function.update info i b) ↔ (b.state = .requested → b.peer ≠ none) := by
  constructor
  · intro hb
    have hi := hb i
    rwa [Function.update_self] at hi
  · intro hb j
    rcases eq_or_ne j i with rfl | hj
    · rwa [Function.update_self]
    · rw [Function.update_of_ne hj]
      exact h j

theorem recorded_markAsDownloading_iff {i : Fin n} {peer : Option P} {state : PieceState}
    {s : Option (DownloadingPiece P n)} (h : ∀ dp ∈ s, Recorded dp.info) :
    (∀ dp ∈ (markAsDownloading i peer state s).1, Recorded dp.info) ↔
      (peer = none → ∃ dp ∈ s, (dp.info i).state = .writing ∨ (dp.info i).state = .finished) := by
  have hnew : Recorded (addDownloadPiece : DownloadingPiece P n).info := recorded_addDownloadPiece
  cases s with
  | none => simp [markAsDownloading, hnew.update_iff]
  | some dp =>
    have hdp := h dp rfl
    unfold markAsDownloading
    dsimp only
    by_cases htaken : (dp.info i).state = .writing ∨ (dp.info i).state = .finished
    · rw [if_pos htaken]
      exact iff_of_true h fun _ => ⟨dp, rfl, htaken⟩
    · rw [if_neg htaken]
      simp [hdp.update_iff, htaken]

theorem recorded_markAsWriting {havePiece : Bool} {i : Fin n} {peer : Option P}
    {s : Option (DownloadingPiece P n)} (h : ∀ dp ∈ s, Recorded dp.info) :
    ∀ dp ∈ (markAsWriting havePiece i peer s).1, Recorded dp.info := by
  cases s with
  | none =>
    cases havePiece with
    | true => nofun
    | false =>
      rintro _ ⟨⟩
      exact (recorded_addDownloadPiece.update_iff _ _).2 nofun
  | some dp =>
    have hdp := h dp rfl
    unfold markAsWriting
    dsimp only
    by_cases htaken : (dp.info i).state = .writing ∨ (dp.info i).state = .finished
    · rw [if_pos htaken]
      rintro _ ⟨⟩
      refine (hdp.update_iff _ _).2 fun hi => ?_
      rcases htaken with hw | hf
      · cases hw.symm.trans hi
      · cases hf.symm.trans hi
    · rw [if_neg htaken]
      rintro _ ⟨⟩
      exact (hdp.update_iff _ _).2 nofun

theorem recorded_markAsFinished {havePiece : Bool} {i : Fin n} {peer : Option P}
    {s : Option (DownloadingPiece P n)} (h : ∀ dp ∈ s, Recorded dp.info) :
    ∀ dp ∈ markAsFinished havePiece i peer s, Recorded dp.info := by
  cases s with
  | none =>
    cases havePiece with
    | true => nofun
    | false =>
      rintro _ ⟨⟩
      exact (recorded_addDownloadPiece.update_iff _ _).2 nofun
  | some dp =>
    have hdp := h dp rfl
    unfold markAsFinished
    dsimp only
    by_cases hfinished : (dp.info i).state = .finished
    · rw [if_pos hfinished]
      exact h
    · rw [if_neg hfinished]
      rintro _ ⟨⟩
      exact (hdp.update_iff _ _).2 nofun

/-- A block that stays requested after `abort_download` keeps its peer, which may be the one that has
given the block up. -/
theorem recorded_abortDownload {i : Fin n} {s : Option (DownloadingPiece P n)}
    (h : ∀ dp ∈ s, Recorded dp.info) : ∀ dp ∈ abortDownload i s, Recorded dp.info := by
  cases s with
  | none => nofun
  | some dp =>
    have hdp := h dp rfl
    unfold abortDownload
    dsimp only
    split_ifs
    · rintro _ ⟨⟩
      exact (hdp.update_iff _ _).2 (hdp i)
    · nofun
    · rintro _ ⟨⟩
      exact (hdp.update_iff _ _).2 nofun
    · rintro _ ⟨⟩
      exact (hdp.update_iff _ _).2 nofun
    · exact h

theorem recorded_clearPeer_iff [DecidableEq P] {peer : P} {s : Option (DownloadingPiece P n)}
    (h : ∀ dp ∈ s, Recorded dp.info) :
    (∀ dp ∈ clearPeer peer s, Recorded dp.info) ↔
      ∀ dp ∈ s, ∀ i, (dp.info i).state = .requested → (dp.info i).peer ≠ some peer := by
  cases s with
  | none => exact iff_of_true (by rintro _ ⟨⟩) (by rintro _ ⟨⟩)
  | some dp =>
    have hdp := h dp rfl
    simp only [clearPeer, Recorded, BlockInfo.clearPeer, Option.map_some, Option.mem_some_iff,
      forall_eq']
    refine forall₂_congr fun i hi => ?_
    split_ifs with hpeer
    · exact iff_of_false (not_not.2 rfl) (not_not.2 hpeer)
    · exact iff_of_true (hdp i hi) hpeer

/-- One call keeps the peers of the requested blocks exactly when it meets the condition. -/
theorem recorded_step_iff [DecidableEq P] {havePiece : Bool} {s s' : Option (DownloadingPiece P n)}
    {a : Action P n} (h : ∀ dp ∈ s, Recorded dp.info) (hs : step havePiece s a = some s') :
    (∀ dp ∈ s', Recorded dp.info) ↔ KeepsPeers s a := by
  cases a with
  | markAsDownloading i peer state =>
    cases hs
    exact recorded_markAsDownloading_iff h
  | markAsWriting i peer =>
    cases hs
    exact iff_of_true (recorded_markAsWriting h) trivial
  | markAsFinished i peer =>
    cases hs
    exact iff_of_true (recorded_markAsFinished h) trivial
  | abortDownload i =>
    cases hs
    exact iff_of_true (recorded_abortDownload h) trivial
  | clearPeer peer =>
    cases hs
    exact recorded_clearPeer_iff h

/-- **Null peers.** In every state of a run every requested block has a peer, exactly when no block is
requested from a null peer and `clear_peer` is called only for peers of no requested block. -/
theorem always_recorded_iff [DecidableEq P] {havePiece : Bool} {as : List (Action P n)}
    {s : Option (DownloadingPiece P n)} (hr : run (step havePiece) none as = some s) :
    Always (step havePiece) (fun s => ∀ dp ∈ s, Recorded dp.info) none as ↔
      Along (step havePiece) KeepsPeers none as :=
  always_iff_along (J := fun _ => True) (fun _ _ _ _ _ => trivial)
    (fun _ _ _ _ h hs => recorded_step_iff h hs) trivial (by rintro _ ⟨⟩) hr

end P2Player.PiecePicker
