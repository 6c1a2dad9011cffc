import P2Player.Native.PiecePicker

/-!
# Cancelling the requests of a piece

`stream_plugin.cancel_request` goes through the blocks of a piece in the download queue, and cancels
those that are requested, on the connections of the peers that the picker has recorded for them.  It
stops when it has seen as many requested blocks as the entry counts.

* `Peers`: the peers and connections, as far as the plugin asks them;
* `scan`, `cancelRequest`: the loop and the function;
* `cancelRequest_ending_iff`: it reads a null peer exactly when one is recorded for a requested block of a
  piece with a block that is written or finished;
* `cancelRequest_forced`: when it goes through the piece, every requested block with a connection is
  cancelled.
-/

namespace P2Player.StreamPlugin

open P2Player.Stream (BlockState)
open PiecePicker Transition

variable {P C : Type*} {n : ℕ}

/-- What `is_downloading` reads of a `piece_block_progress`. -/
structure PieceBlockProgress where
  pieceIndex : ℤ
  blockIndex : ℤ
  bytesDownloaded : ℤ

/-- The peers that are not null, and their connections: `aborts` tells whether `cancel_request` on a
connection aborts the download of the block, which it does when the request has not been sent. -/
structure Peers (P C : Type*) (n : ℕ) where
  connection : P → Option C
  downloadingPieceProgress : C → Option PieceBlockProgress
  aborts : C → Fin n → Bool

/-- How `cancel_request` ends: it returns, or reads `connection` of a null peer, or goes on with an
entry that is not in the queue any more. -/
inductive Ending
  | returned
  | nullPeer
  | dangling
  deriving DecidableEq

/-- The cancels that are issued, in their order, how the call ends, and the entry after it. -/
structure Outcome (P C : Type*) (n : ℕ) where
  cancels : List (C × Fin n)
  ending : Ending
  entry : Option (DownloadingPiece P n)

variable (peers : Peers P C n) (pieceIdx : ℤ) (force : Bool)

/-- `is_downloading`. -/
def isDownloading (blockIdx : Fin n) (connection : C) : Bool :=
  match peers.downloadingPieceProgress connection with
  | some pbp => pbp.pieceIndex = pieceIdx && pbp.blockIndex = blockIdx && pbp.bytesDownloaded > 0
  | none => false

/-- The connection on which the block `i`, requested from `p`, is cancelled. -/
def target (p : P) (i : Fin n) : Option C :=
  (peers.connection p).filter fun connection => force || !isDownloading peers pieceIdx i connection

/-- What a cancel on the connection does to the entry. -/
def Peers.cancelRequest (connection : C) (i : Fin n) (s : Option (DownloadingPiece P n)) :
    Option (DownloadingPiece P n) :=
  if peers.aborts connection i then abortDownload i s else s

/-- The loop over the blocks that are left, with `counter`. -/
def scan : List (Fin n) → ℤ → Option (DownloadingPiece P n) → Outcome P C n
  | [], _, s => ⟨[], .returned, s⟩
  | _ :: _, _, none => ⟨[], .dangling, none⟩
  | i :: is, counter, some dp =>
    if (dp.info i).state = .requested then
      match (dp.info i).peer with
      | none => ⟨[], .nullPeer, some dp⟩
      | some p =>
        match target peers pieceIdx force p i with
        | some connection =>
          let s := peers.cancelRequest connection i (some dp)
          let rest := if counter - 1 = 0 then ⟨[], .returned, s⟩ else scan is (counter - 1) s
          { rest with cancels := (connection, i) :: rest.cancels }
        | none =>
          if counter - 1 = 0 then ⟨[], .returned, some dp⟩ else scan is (counter - 1) (some dp)
    else scan is counter (some dp)

/-- `stream_plugin.cancel_request`. -/
def cancelRequest : Option (DownloadingPiece P n) → Outcome P C n
  | none => ⟨[], .returned, none⟩
  | some dp =>
    if dp.writing + dp.finished = 0 then ⟨[], .returned, some dp⟩
    else scan peers pieceIdx force (List.finRange n) dp.requested (some dp)

/-! ### The loop -/

section Loop

variable {peers pieceIdx force}

/-- A cancel changes no other block. -/
theorem cancelRequest_info {connection : C} {i j : Fin n} {dp dp' : DownloadingPiece P n}
    (h : peers.cancelRequest connection i (some dp) = some dp') (hj : j ≠ i) :
    dp'.info j = dp.info j := by
  unfold Peers.cancelRequest at h
  split_ifs at h
  · exact abortDownload_info h hj
  · cases h
    rfl

/-- The requested blocks before the first one with a null peer. -/
def reached (info : Fin n → BlockInfo P) (is : List (Fin n)) : List (Fin n) :=
  (is.filter fun i => (info i).state = .requested).takeWhile fun i => (info i).peer.isSome

theorem reached_of_not_requested {info : Fin n → BlockInfo P} {i : Fin n} {is : List (Fin n)}
    (hr : (info i).state ≠ .requested) : reached info (i :: is) = reached info is := by
  rw [reached, List.filter_cons_of_neg (by simpa using hr), reached]

theorem reached_of_null {info : Fin n → BlockInfo P} {i : Fin n} {is : List (Fin n)}
    (hr : (info i).state = .requested) (hp : (info i).peer = none) : reached info (i :: is) = [] := by
  rw [reached, List.filter_cons_of_pos (by simpa using hr), List.takeWhile_cons_of_neg (by simp [hp])]

theorem reached_of_peer {info : Fin n → BlockInfo P} {i : Fin n} {is : List (Fin n)}
    (hr : (info i).state = .requested) {p : P} (hp : (info i).peer = some p) :
    reached info (i :: is) = i :: reached info is := by
  rw [reached, List.filter_cons_of_pos (by simpa using hr), List.takeWhile_cons_of_pos (by simp [hp]),
    reached]

variable (peers pieceIdx force) in
/-- The cancel of a requested block, if there is one. -/
def cancelOf (info : Fin n → BlockInfo P) (i : Fin n) : Option (C × Fin n) :=
  ((info i).peer.bind fun p => target peers pieceIdx force p i).map fun connection => (connection, i)

variable (peers pieceIdx force) in
/-- What is behind a requested block: nothing, when it was the last one that the entry counts. -/
def behind (is : List (Fin n)) (counter : ℤ) (s : Option (DownloadingPiece P n)) : Outcome P C n :=
  if counter - 1 = 0 then ⟨[], .returned, s⟩ else scan peers pieceIdx force is (counter - 1) s

theorem scan_of_target {i : Fin n} {is : List (Fin n)} {counter : ℤ} {dp : DownloadingPiece P n}
    (hr : (dp.info i).state = .requested) {p : P} (hp : (dp.info i).peer = some p) {connection : C}
    (ht : target peers pieceIdx force p i = some connection) :
    scan peers pieceIdx force (i :: is) counter (some dp) =
      let rest := behind peers pieceIdx force is counter (peers.cancelRequest connection i (some dp))
      { rest with cancels := (connection, i) :: rest.cancels } := by
  rw [scan, if_pos hr]
  simp only [hp, ht, behind]

theorem scan_of_no_target {i : Fin n} {is : List (Fin n)} {counter : ℤ} {dp : DownloadingPiece P n}
    (hr : (dp.info i).state = .requested) {p : P} (hp : (dp.info i).peer = some p)
    (ht : target peers pieceIdx force p i = none) :
    scan peers pieceIdx force (i :: is) counter (some dp) =
      behind peers pieceIdx force is counter (some dp) := by
  rw [scan, if_pos hr]
  simp only [hp, ht, behind]

theorem scan_of_null {i : Fin n} {is : List (Fin n)} {counter : ℤ} {dp : DownloadingPiece P n}
    (hr : (dp.info i).state = .requested) (hp : (dp.info i).peer = none) :
    scan peers pieceIdx force (i :: is) counter (some dp) = ⟨[], .nullPeer, some dp⟩ := by
  rw [scan, if_pos hr]
  simp only [hp]

variable (peers pieceIdx force) in
/-- The cancels are those of the requested blocks up to the first null peer, and the loop ends there if
there is one. -/
structure Cancels (info : Fin n → BlockInfo P) (is : List (Fin n)) (o : Outcome P C n) : Prop where
  cancels : o.cancels = (reached info is).filterMap (cancelOf peers pieceIdx force info)
  ending : o.ending = .nullPeer ↔ ∃ i ∈ is, (info i).state = .requested ∧ (info i).peer = none

/-- The counter stops the loop only where no requested block is left. -/
theorem cancels_behind {info : Fin n → BlockInfo P} {is : List (Fin n)} {counter : ℤ}
    (hcount : counter - 1 = count info .requested is)
    (hscan : ∀ dp : DownloadingPiece P n, (∀ j ∈ is, dp.info j = info j) →
      (scan peers pieceIdx force is (counter - 1) (some dp)).ending ≠ .dangling →
        Cancels peers pieceIdx force info is (scan peers pieceIdx force is (counter - 1) (some dp)))
    {s : Option (DownloadingPiece P n)} (hs : ∀ dp ∈ s, ∀ j ∈ is, dp.info j = info j)
    (hsteady : (behind peers pieceIdx force is counter s).ending ≠ .dangling) :
    Cancels peers pieceIdx force info is (behind peers pieceIdx force is counter s) := by
  unfold behind at hsteady ⊢
  by_cases hzero : counter - 1 = 0
  · rw [if_pos hzero]
    have hnone : ∀ j ∈ is, ¬ (info j).state = .requested := by
      have hcountP := List.countP_eq_zero.1 (by exact_mod_cast hcount.symm.trans hzero)
      exact fun j hj => by simpa using hcountP j hj
    refine ⟨?_, iff_of_false Ending.noConfusion fun ⟨j, hj, hr, _⟩ => hnone j hj hr⟩
    rw [reached, List.filter_eq_nil_iff.2 fun j hj => by simpa using hnone j hj]
    rfl
  · rw [if_neg hzero] at hsteady ⊢
    cases s with
    | some dp => exact hscan dp (hs dp rfl) hsteady
    | none =>
      cases is with
      | nil => exact absurd hcount hzero
      | cons j is => exact absurd rfl hsteady

/-- As long as the entry stays in the queue, the loop cancels the blocks up to the first null peer. -/
theorem cancels_scan {info : Fin n → BlockInfo P} {is : List (Fin n)} (hnodup : is.Nodup) {counter : ℤ}
    (hcounter : counter = count info .requested is) {dp : DownloadingPiece P n}
    (hinfo : ∀ j ∈ is, dp.info j = info j)
    (hsteady : (scan peers pieceIdx force is counter (some dp)).ending ≠ .dangling) :
    Cancels peers pieceIdx force info is (scan peers pieceIdx force is counter (some dp)) := by
  induction is generalizing counter dp with
  | nil => exact ⟨rfl, by simp [scan]⟩
  | cons i is ih =>
    obtain ⟨hi, hnodup⟩ := List.nodup_cons.1 hnodup
    have hrest : ∀ j ∈ is, dp.info j = info j := fun j hj => hinfo j (List.mem_cons_of_mem i hj)
    have hhead : dp.info i = info i := hinfo i List.mem_cons_self
    by_cases hr : (info i).state = .requested
    · have hcount : counter - 1 = count info .requested is := by
        rw [hcounter, count, List.countP_cons_of_pos (by simpa using hr)]
        push_cast
        exact add_sub_cancel_right _ _
      have hscan := fun (dp : DownloadingPiece P n) (hdp : ∀ j ∈ is, dp.info j = info j) =>
        ih hnodup hcount hdp
      have hr' : (dp.info i).state = .requested := hhead ▸ hr
      cases hp : (info i).peer with
      | none =>
        rw [scan_of_null hr' (hhead ▸ hp)]
        refine ⟨?_, iff_of_true rfl ⟨i, List.mem_cons_self, hr, hp⟩⟩
        rw [reached_of_null hr hp]
        rfl
      | some p =>
        have hending : (∃ j ∈ i :: is, (info j).state = .requested ∧ (info j).peer = none) ↔
            ∃ j ∈ is, (info j).state = .requested ∧ (info j).peer = none := by
          simp [hp]
        cases ht : target peers pieceIdx force p i with
        | none =>
          rw [scan_of_no_target hr' (hhead ▸ hp) ht] at hsteady ⊢
          have hbehind := cancels_behind hcount hscan (by rintro _ ⟨⟩; exact hrest) hsteady
          refine ⟨?_, hbehind.ending.trans hending.symm⟩
          have hcancel : cancelOf peers pieceIdx force info i = none := by
            simp [cancelOf, hp, ht]
          rw [hbehind.cancels, reached_of_peer hr hp, List.filterMap_cons_none hcancel]
        | some connection =>
          rw [scan_of_target hr' (hhead ▸ hp) ht] at hsteady ⊢
          have hs : ∀ dp' ∈ peers.cancelRequest connection i (some dp),
              ∀ j ∈ is, dp'.info j = info j := fun dp' hdp' j hj =>
            (cancelRequest_info hdp' (ne_of_mem_of_not_mem hj hi)).trans (hrest j hj)
          have hbehind := cancels_behind hcount hscan hs hsteady
          refine ⟨?_, hbehind.ending.trans hending.symm⟩
          have hcancel : cancelOf peers pieceIdx force info i = some (connection, i) := by
            simp [cancelOf, hp, ht]
          rw [reached_of_peer hr hp, List.filterMap_cons_some hcancel]
          exact congrArg _ hbehind.cancels
    · have hcount : counter = count info .requested is := by
        rw [hcounter]
        exact congrArg _ (List.countP_cons_of_neg (by simpa using hr))
      have hscan : scan peers pieceIdx force (i :: is) counter (some dp) =
          scan peers pieceIdx force is counter (some dp) := by
        rw [scan, if_neg (by rwa [hhead])]
      rw [hscan] at hsteady ⊢
      have hcancels := ih hnodup hcount hrest hsteady
      refine ⟨?_, ?_⟩
      · rw [hcancels.cancels, reached_of_not_requested hr]
      · rw [hcancels.ending]
        simp [hr]

/-- A requested block is reached when no requested block up to it has a null peer. -/
theorem mem_reached {info : Fin n → BlockInfo P} {i : Fin n} (hr : (info i).state = .requested)
    (hp : (info i).peer ≠ none)
    (hbefore : ∀ j < i, (info j).state = .requested → (info j).peer ≠ none) :
    i ∈ reached info (List.finRange n) := by
  have hmem : i ∈ (List.finRange n).filter fun j => (info j).state = .requested :=
    List.mem_filter.2 ⟨List.mem_finRange i, decide_eq_true hr⟩
  have hsorted := (List.pairwise_lt_finRange n).filter fun j => (info j).state = .requested
  have hall : ∀ j ∈ (List.finRange n).filter fun j => (info j).state = .requested,
      (info j).state = .requested := fun j hj => by simpa using hj
  unfold reached
  obtain ⟨before, after, hsplit⟩ := List.append_of_mem hmem
  rw [hsplit] at hsorted hall ⊢
  have hlt := (List.pairwise_append.1 hsorted).2.2
  rw [List.takeWhile_append_of_pos, List.takeWhile_cons_of_pos (by simpa [Option.isSome_iff_ne_none])]
  · exact List.mem_append_right _ List.mem_cons_self
  · intro j hj
    rw [Option.isSome_iff_ne_none]
    exact hbefore j (hlt j hj i List.mem_cons_self) (hall j (List.mem_append_left _ hj))

/-- The entry stays in the queue while a block of it is written or finished. -/
theorem ending_scan_ne_dangling (hn : n < 2 ^ 15) {is : List (Fin n)} {counter : ℤ}
    {dp : DownloadingPiece P n} (h : Counted dp) (hpos : dp.writing + dp.finished ≠ 0) :
    (scan peers pieceIdx force is counter (some dp)).ending ≠ .dangling := by
  induction is generalizing counter dp with
  | nil => exact Ending.noConfusion
  | cons i is ih =>
    have hbehind : ∀ {dp : DownloadingPiece P n}, Counted dp → dp.writing + dp.finished ≠ 0 →
        (behind peers pieceIdx force is counter (some dp)).ending ≠ .dangling := by
      intro dp h hpos
      unfold behind
      split_ifs
      · exact Ending.noConfusion
      · exact ih h hpos
    by_cases hr : (dp.info i).state = .requested
    · cases hp : (dp.info i).peer with
      | none =>
        rw [scan_of_null hr hp]
        exact Ending.noConfusion
      | some p =>
        cases ht : target peers pieceIdx force p i with
        | none =>
          rw [scan_of_no_target hr hp ht]
          exact hbehind h hpos
        | some connection =>
          rw [scan_of_target hr hp ht]
          dsimp only [Peers.cancelRequest]
          split_ifs
          · obtain ⟨dp', hdp', hcounted, hwriting, hfinished⟩ := h.exists_abortDownload hn hpos i
            rw [hdp']
            exact hbehind hcounted (by rwa [hwriting, hfinished])
          · exact hbehind h hpos
    · rw [scan, if_neg hr]
      exact ih h hpos

end Loop

/-! ### The function -/

/-- No block of the piece is written or finished, as the function tests first. -/
def Untouched (s : Option (DownloadingPiece P n)) : Prop := ∀ dp ∈ s, dp.writing + dp.finished = 0

/-- The entry counts its requested blocks. -/
def CountsRequests (s : Option (DownloadingPiece P n)) : Prop :=
  ∀ dp ∈ s, dp.requested = count dp.info .requested (List.finRange n)

variable {s : Option (DownloadingPiece P n)}

/-- Without a block that is written or finished it returns at once. -/
theorem cancelRequest_of_untouched (h : Untouched s) :
    cancelRequest peers pieceIdx force s = ⟨[], .returned, s⟩ := by
  cases s with
  | none => rfl
  | some dp => exact if_pos (h dp rfl)

theorem cancels_cancelRequest {dp : DownloadingPiece P n} (hpos : dp.writing + dp.finished ≠ 0)
    (hcounts : CountsRequests (some dp))
    (hsteady : (cancelRequest peers pieceIdx force (some dp)).ending ≠ .dangling) :
    Cancels peers pieceIdx force dp.info (List.finRange n)
      (cancelRequest peers pieceIdx force (some dp)) := by
  rw [cancelRequest, if_neg hpos] at hsteady ⊢
  exact cancels_scan (List.nodup_finRange n) (hcounts dp rfl) (fun _ _ => rfl) hsteady

/-- **Null peers.** As long as the entry stays in the queue, a null peer is read exactly when one is
recorded for a requested block of a piece with a block that is written or finished. -/
theorem cancelRequest_ending_iff (hcounts : CountsRequests s)
    (hsteady : (cancelRequest peers pieceIdx force s).ending ≠ .dangling) :
    (cancelRequest peers pieceIdx force s).ending = .nullPeer ↔
      ∃ dp ∈ s, dp.writing + dp.finished ≠ 0 ∧ ¬ Recorded dp.info := by
  by_cases h : Untouched s
  · rw [cancelRequest_of_untouched peers pieceIdx force h]
    exact iff_of_false Ending.noConfusion fun ⟨dp, hdp, hpos, _⟩ => hpos (h dp hdp)
  · simp only [Untouched, not_forall] at h
    obtain ⟨dp, rfl, hpos⟩ := h
    rw [(cancels_cancelRequest peers pieceIdx force hpos hcounts hsteady).ending]
    simp [hpos, Recorded]

theorem ending_of_recorded (hcounts : CountsRequests s)
    (hsteady : (cancelRequest peers pieceIdx force s).ending ≠ .dangling)
    (hrecorded : ∀ dp ∈ s, Recorded dp.info) :
    (cancelRequest peers pieceIdx force s).ending = .returned := by
  have hnull := mt (cancelRequest_ending_iff peers pieceIdx force hcounts hsteady).1
    fun ⟨dp, hdp, _, hnot⟩ => hnot (hrecorded dp hdp)
  cases hending : (cancelRequest peers pieceIdx force s).ending with
  | returned => rfl
  | nullPeer => exact absurd hending hnull
  | dangling => exact absurd hending hsteady

/-- After every run within the assertions the entry stays in the queue, and no null peer is read when
the run has kept the peers of the requested blocks. -/
theorem cancelRequest_of_run [DecidableEq P] (hn : n < 2 ^ 15) {havePiece : Bool}
    {as : List (Action P n)} (has : Along (step havePiece) Asserted none as)
    (hr : run (step havePiece) none as = some s) :
    (cancelRequest peers pieceIdx force s).ending ≠ .dangling ∧
      (Along (step havePiece) KeepsPeers none as →
        (cancelRequest peers pieceIdx force s).ending = .returned) := by
  have hcounted := counted_of_run hn has hr
  have hsteady : (cancelRequest peers pieceIdx force s).ending ≠ .dangling := by
    cases s with
    | none => exact Ending.noConfusion
    | some dp =>
      rw [cancelRequest]
      split_ifs with hpos
      · exact Ending.noConfusion
      · exact ending_scan_ne_dangling hn (hcounted dp rfl) hpos
  refine ⟨hsteady, fun hkeeps => ?_⟩
  have hrecorded := ((always_recorded_iff hr).2 hkeeps).last hr
  have hcounts : CountsRequests s := fun dp hdp => (hcounted dp hdp).requested
  exact ending_of_recorded peers pieceIdx force hcounts hsteady hrecorded

/-- **Cancelling a piece.** A piece without a block that is written or finished is left alone.  Else, as
long as the entry stays in the queue, no null peer is read when every requested block has a peer, and
`force` cancels every requested block whose peer has a connection, and which no requested block with a
null peer precedes. -/
theorem cancelRequest_forced (hcounts : CountsRequests s)
    (hsteady : (cancelRequest peers pieceIdx force s).ending ≠ .dangling) :
    (Untouched s → cancelRequest peers pieceIdx force s = ⟨[], .returned, s⟩) ∧
      ((∀ dp ∈ s, Recorded dp.info) → (cancelRequest peers pieceIdx force s).ending = .returned) ∧
      (¬ Untouched s → force = true → ∀ dp ∈ s, ∀ (i : Fin n) (p : P) (connection : C),
        (dp.info i).state = .requested → (dp.info i).peer = some p →
        peers.connection p = some connection →
        (∀ j < i, (dp.info j).state = .requested → (dp.info j).peer ≠ none) →
        (connection, i) ∈ (cancelRequest peers pieceIdx force s).cancels) := by
  refine ⟨cancelRequest_of_untouched peers pieceIdx force,
    ending_of_recorded peers pieceIdx force hcounts hsteady, ?_⟩
  rintro hpos rfl dp rfl i p connection hr hp hconnection hbefore
  have hdp : dp.writing + dp.finished ≠ 0 := fun h => hpos (by rintro _ ⟨⟩; exact h)
  have hne : (dp.info i).peer ≠ none := by rw [hp]; exact Option.some_ne_none p
  rw [(cancels_cancelRequest peers pieceIdx true hdp hcounts hsteady).cancels]
  refine List.mem_filterMap.2 ⟨i, mem_reached hr hne hbefore, ?_⟩
  simp [cancelOf, hp, target, hconnection]

/-- Two peers are connected, and the requests have been sent. -/
def connected : Peers ℕ ℕ 2 := ⟨some, fun _ => none, fun _ _ => false⟩

/-- One block is requested, the other one is written. -/
theorem cancelRequest_forced_connected :
    ∃ s, run (step false) none [.markAsDownloading 0 (some 1) .fast, .markAsWriting 1 (some 1)] =
        some s ∧
      (1, 0) ∈ (cancelRequest connected 0 true s).cancels := by
  have hr : run (step false) none [.markAsDownloading 0 (some 1) .fast,
    .markAsWriting 1 (some 1)] = some (some (_ : DownloadingPiece ℕ 2)) := rfl
  refine ⟨_, hr, ?_⟩
  refine (cancelRequest_forced connected 0 true ?_ (by decide)).2.2 ?_ rfl _ rfl 0 1 1 (by decide)
    (by decide) rfl (fun j hj => absurd hj (by omega))
  · rintro _ ⟨⟩
    decide
  · exact fun h => absurd (h _ rfl) (by decide)

/-- A piece with one request, which is left alone; and a block that two peers have requested, the second
of which gives it up and is forgotten, while the first one goes on with it. -/
theorem not_cancelled_not_safe :
    (∃ dp, run (step false) none [.markAsDownloading 0 (some 1) .fast] = some (some dp) ∧
      CountsRequests (some dp) ∧ (dp.info 0).state = .requested ∧ (dp.info 0).peer = some 1 ∧
      connected.connection 1 = some 1 ∧ (cancelRequest connected 0 true (some dp)).cancels = []) ∧
    (∃ dp, run (step false) none [.markAsDownloading 0 (some 1) .fast,
        .markAsDownloading 0 (some 2) .fast, .markAsWriting 1 (some 1), .abortDownload 0,
        .clearPeer 2] = some (some dp) ∧
      CountsRequests (some dp) ∧ (cancelRequest connected 0 true (some dp)).ending = .nullPeer) := by
  refine ⟨⟨_, rfl, ?_, by decide, by decide, rfl, by decide⟩, ⟨_, rfl, ?_, by decide⟩⟩
  · rintro _ ⟨⟩
    decide
  · rintro _ ⟨⟩
    decide

end P2Player.StreamPlugin
