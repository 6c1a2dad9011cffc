import P2Player.Native.DownloadQueue

/-!
# The invariant of the download queue

The assertions that `piece_picker::check_invariant` makes about the pieces that are being downloaded, and
about their order in the queue.  The order is kept with `sort_piece`, which the calls leave out where a
piece is as complete as before.

* `Checked`: what is asserted of an entry;
* `Asserted`: what a call asserts before it goes on;
* `checked_pieceCall`: a call that keeps to its assertions keeps the entry right;
* `Sorted`, `Valid.sorted_call`: the order, and that every call keeps it;
* `always_valid`: in every run that keeps to the assertions of the calls, `check_invariant` holds always.

What it asserts of the cursors and of the order in which pieces are picked is left out.
-/

namespace P2Player.DownloadQueue

open P2Player.Stream (BlockState)
open PiecePicker Transition

variable {P : Type*} {L : Layout} {s s' : Picker P} {d d' : Download} {index : ℕ}

/-! ### The entries -/

/-- What `check_invariant` asks of an entry: the counters count its blocks, a block is requested from some
peers exactly when it is in the requested state, and the piece has a speed exactly when it has such a
block.  An entry is erased with its last block, so that one is not open. -/
structure Checked {n : ℕ} (dp : DownloadingPiece P n) : Prop extends Counted dp where
  numPeers : ∀ i, (dp.info i).state = .requested ↔ 0 < (dp.info i).numPeers
  active : dp.state = .none ↔ dp.requested = 0
  started : ∃ i, (dp.info i).state ≠ .none

/-- What it asks of the queue: the most complete pieces come first. -/
def Sorted (s : Picker P) : Prop := s.downloads.Pairwise fun a b => b.complete ≤ a.complete

/-- What the calls assert about their piece: a piece is requested at some speed, a block from less than
`2 ^ 14` peers, and no block that is requested is finished, or has failed to be written. -/
def Asserted {n : ℕ} (x : Piece P n) : PieceCall P n → Prop
  | .markAsDownloading i _ state =>
    state ≠ .none ∧ ∀ dp ∈ x.entry, (dp.info i).numPeers + 1 < 2 ^ 14
  | .markAsFinished i _ => ∀ dp ∈ x.entry, (dp.info i).state ≠ .requested
  | .writeFailed i => ∀ dp ∈ x.entry, (dp.info i).state ≠ .requested
  | _ => True

section Entry

variable {n : ℕ} {dp : DownloadingPiece P n}

/-- The peers of a block that changes. -/
theorem numPeers_update {info : Fin n → BlockInfo P}
    (h : ∀ j, (info j).state = .requested ↔ 0 < (info j).numPeers) {i : Fin n} {b : BlockInfo P}
    (hb : b.state = .requested ↔ 0 < b.numPeers) (j : Fin n) :
    (Function.update info i b j).state = .requested ↔ 0 < (Function.update info i b j).numPeers := by
  rcases eq_or_ne j i with rfl | hj
  · rwa [Function.update_self]
  · rw [Function.update_of_ne hj]
    exact h j

theorem requested_pos (h : Counted dp) {i : Fin n} (hi : (dp.info i).state = .requested) :
    0 < dp.requested := by
  have hpos := count_pos hi
  rw [h.requested]
  omega

theorem requested_nonneg (h : Counted dp) : 0 ≤ dp.requested := by
  rw [h.requested]
  omega

theorem complete_nonneg (h : Counted dp) : 0 ≤ dp.finished + dp.writing := by
  rw [h.finished, h.writing]
  omega

/-- A block that changes is not open, when it is in its new state. -/
theorem started_update {info : Fin n → BlockInfo P} {i : Fin n} {b : BlockInfo P}
    (hb : b.state ≠ .none) : ∃ j, (Function.update info i b j).state ≠ .none :=
  ⟨i, by rwa [Function.update_self]⟩

/-- A piece that counts a block has one that is not open. -/
theorem started_of_counted (h : Counted dp) (hpos : dp.finished + dp.writing + dp.requested ≠ 0) :
    ∃ i, (dp.info i).state ≠ .none := by
  by_contra hcon
  push Not at hcon
  have hzero : ∀ state : BlockState, state ≠ .none → count dp.info state (List.finRange n) = 0 := by
    intro state hstate
    refine List.countP_eq_zero.2 fun i _ => ?_
    simp [hcon i, hstate.symm]
  have hf := h.finished
  have hw := h.writing
  have hr := h.requested
  rw [hzero _ (by decide)] at hf hw hr
  omega

/-- A write that has failed is counted no more. -/
theorem counted_writeFailedEntry (hn : n < 2 ^ 15) (h : Counted dp) (i : Fin n)
    (hi : (dp.info i).state ≠ .requested) :
    ∀ dp' ∈ writeFailedEntry i (some dp), Counted dp' := by
  unfold writeFailedEntry
  dsimp only
  by_cases hfinished : (dp.info i).state = .finished
  · rw [if_pos hfinished]
    rintro _ ⟨⟩
    exact h
  · rw [if_neg hfinished]
    generalize hwriting : (if (dp.info i).state = .writing then int16 (dp.writing - 1)
      else dp.writing) = writing
    by_cases herased : dp.finished + writing + dp.requested = 0
    · rw [if_pos herased]
      nofun
    · rw [if_neg herased]
      rintro _ ⟨⟩
      refine h.set i _ _ (by simp [hi]) ?_ (by simp [hfinished])
      rw [← hwriting]
      by_cases hw : (dp.info i).state = .writing
      · simp [hw, h.writing_pred hn hw]
      · simp [hw]

/-- One call keeps the counters right, whatever the peers, when it neither finishes nor gives up a block that
is requested. -/
theorem counted_pieceCall (hn : n < 2 ^ 15) {x : Piece P n} {c : PieceCall P n}
    (h : ∀ dp ∈ x.entry, Counted dp)
    (hc : ∀ i peer, c = .markAsFinished i peer ∨ c = .writeFailed i →
      ∀ dp ∈ x.entry, (dp.info i).state ≠ .requested) :
    ∀ dp ∈ (pieceCall x c).entry, Counted dp := by
  classical
  cases c with
  | markAsDownloading i peer state =>
    exact counted_step (a := .markAsDownloading i peer state) hn h trivial
      (rfl : PiecePicker.step x.havePiece _ _ = _)
  | markAsWriting i peer =>
    exact counted_step (a := .markAsWriting i peer) hn h trivial rfl
  | markAsFinished i peer =>
    exact counted_step (a := .markAsFinished i peer) hn h (hc i peer (.inl rfl)) rfl
  | abortDownload i =>
    exact counted_step (a := .abortDownload i) hn h trivial (rfl : PiecePicker.step x.havePiece _ _ = _)
  | writeFailed i =>
    obtain ⟨entry, havePiece⟩ := x
    cases entry with
    | none => nofun
    | some dp =>
      exact counted_writeFailedEntry hn (h dp rfl) i (hc i none (.inr rfl) dp rfl)
  | restorePiece => nofun
  | weHave => nofun
  | weDontHave => exact h

/-- The first block of a piece. -/
theorem checked_new (i : Fin n) {info : BlockInfo P} {state : PieceState}
    {finished writing requested : ℤ}
    (hcounted : Counted ⟨state, ((addDownloadPiece : DownloadingPiece P n).set i info).info, finished,
      writing, requested⟩)
    (hinfo : info.state = .requested ↔ 0 < info.numPeers) (hactive : state = .none ↔ requested = 0)
    (hstarted : info.state ≠ .none) :
    Checked ⟨state, ((addDownloadPiece : DownloadingPiece P n).set i info).info, finished, writing,
      requested⟩ :=
  ⟨hcounted, numPeers_update (by simp [addDownloadPiece]) hinfo, hactive, started_update hstarted⟩

/-- A speed that is given up when no block is requested any more. -/
theorem active_of_le {state : PieceState} {before after : ℤ} (h : state = .none ↔ before = 0)
    (hafter : 0 ≤ after) (hle : after ≤ before) :
    (if after = 0 then .none else state) = PieceState.none ↔ after = 0 := by
  split_ifs with hzero
  · exact iff_of_true rfl hzero
  · rw [h]
    omega

section Entries

variable (hn : n < 2 ^ 15) (h : Checked dp)

include hn h

theorem Checked.markAsDownloading (i : Fin n) (peer : Option P) {state : PieceState}
    (hstate : state ≠ .none) (hpeers : (dp.info i).numPeers + 1 < 2 ^ 14) :
    ∀ dp' ∈ (PiecePicker.markAsDownloading i peer state (some dp)).1, Checked dp' := by
  have hcounted := h.toCounted.markAsDownloading hn i peer state
  unfold PiecePicker.markAsDownloading at hcounted ⊢
  dsimp only at hcounted ⊢
  by_cases htaken : (dp.info i).state = .writing ∨ (dp.info i).state = .finished
  · rw [if_pos htaken]
    rintro _ ⟨⟩
    exact h
  · rw [if_neg htaken] at hcounted ⊢
    rintro _ ⟨⟩
    refine ⟨hcounted _ rfl, numPeers_update h.numPeers ?_, ?_, started_update (by simp)⟩
    · rw [Nat.mod_eq_of_lt hpeers]
      simp
    · refine iff_of_false ?_ ?_
      · dsimp only
        split_ifs with hnone
        · exact hstate
        · exact hnone
      · dsimp only
        split_ifs with hr
        · exact (requested_pos h.toCounted hr).ne'
        · rw [h.toCounted.requested_succ hn hr]
          have hnonneg := requested_nonneg h.toCounted
          omega

theorem Checked.markAsWriting (havePiece : Bool) (i : Fin n) (peer : Option P) :
    ∀ dp' ∈ (PiecePicker.markAsWriting havePiece i peer (some dp)).1, Checked dp' := by
  have hcounted := h.toCounted.markAsWriting hn havePiece i peer
  unfold PiecePicker.markAsWriting at hcounted ⊢
  dsimp only at hcounted ⊢
  by_cases htaken : (dp.info i).state = .writing ∨ (dp.info i).state = .finished
  · rw [if_pos htaken] at hcounted ⊢
    rintro _ ⟨⟩
    refine ⟨hcounted _ rfl, numPeers_update h.numPeers (h.numPeers i), h.active, started_update ?_⟩
    rcases htaken with hw | hf
    · simp [hw]
    · simp [hf]
  · rw [if_neg htaken] at hcounted ⊢
    rintro _ ⟨⟩
    refine ⟨hcounted _ rfl, numPeers_update h.numPeers (by simp), active_of_le h.active ?_ ?_,
      started_update (by simp)⟩
    · exact requested_nonneg (hcounted _ rfl)
    · split_ifs with hr
      · rw [h.toCounted.requested_pred hn hr]
        omega
      · exact le_rfl

theorem Checked.markAsFinished (havePiece : Bool) (i : Fin n) (peer : Option P)
    (hi : (dp.info i).state ≠ .requested) :
    ∀ dp' ∈ PiecePicker.markAsFinished havePiece i peer (some dp), Checked dp' := by
  have hcounted := h.toCounted.markAsFinished hn havePiece i peer hi
  have hpeers := (h.numPeers i).not.1 hi
  unfold PiecePicker.markAsFinished at hcounted ⊢
  dsimp only at hcounted ⊢
  by_cases hfinished : (dp.info i).state = .finished
  · rw [if_pos hfinished]
    rintro _ ⟨⟩
    exact h
  · rw [if_neg hfinished] at hcounted ⊢
    rintro _ ⟨⟩
    exact ⟨hcounted _ rfl, numPeers_update h.numPeers (iff_of_false (by simp) hpeers), h.active,
      started_update (by simp)⟩

theorem Checked.abortDownload (i : Fin n) :
    ∀ dp' ∈ PiecePicker.abortDownload i (some dp), Checked dp' := by
  have hcounted := h.toCounted.abortDownload hn i
  unfold PiecePicker.abortDownload at hcounted ⊢
  dsimp only at hcounted ⊢
  by_cases hr : (dp.info i).state = .requested
  · rw [if_pos hr] at hcounted ⊢
    by_cases hpeers : 0 < (dp.info i).numPeers - 1
    · rw [if_pos hpeers] at hcounted ⊢
      rintro _ ⟨⟩
      exact ⟨hcounted _ rfl, numPeers_update h.numPeers (iff_of_true hr hpeers), h.active,
        started_update (by simp [hr])⟩
    · rw [if_neg hpeers] at hcounted ⊢
      by_cases herased : int16 (dp.requested - 1) + dp.finished + dp.writing = 0
      · rw [if_pos herased]
        nofun
      · rw [if_neg herased] at hcounted ⊢
        rintro _ ⟨⟩
        refine ⟨hcounted _ rfl, numPeers_update h.numPeers (by simp), active_of_le h.active ?_ ?_,
          started_of_counted (hcounted _ rfl) fun hsum => herased ?_⟩
        · exact requested_nonneg (hcounted _ rfl)
        · rw [h.toCounted.requested_pred hn hr]
          omega
        · simp only [DownloadingPiece.set_finished, DownloadingPiece.set_writing] at hsum
          omega
  · rw [if_neg hr]
    rintro _ ⟨⟩
    exact h

/-- A write that has failed leaves the block free. -/
theorem Checked.writeFailedEntry (i : Fin n) (hi : (dp.info i).state ≠ .requested) :
    ∀ dp' ∈ DownloadQueue.writeFailedEntry i (some dp), Checked dp' := by
  have hcounted := counted_writeFailedEntry hn h.toCounted i hi
  unfold DownloadQueue.writeFailedEntry at hcounted ⊢
  dsimp only at hcounted ⊢
  by_cases hfinished : (dp.info i).state = .finished
  · rw [if_pos hfinished]
    rintro _ ⟨⟩
    exact h
  · rw [if_neg hfinished] at hcounted ⊢
    generalize (if (dp.info i).state = .writing then int16 (dp.writing - 1) else dp.writing) = writing
      at hcounted ⊢
    by_cases herased : dp.finished + writing + dp.requested = 0
    · rw [if_pos herased]
      nofun
    · rw [if_neg herased] at hcounted ⊢
      rintro _ ⟨⟩
      exact ⟨hcounted _ rfl,
        numPeers_update h.numPeers (iff_of_false (by simp) ((h.numPeers i).not.1 hi)), h.active,
        started_of_counted (hcounted _ rfl) herased⟩

end Entries

/-- One call keeps what is checked of its piece. -/
theorem checked_pieceCall (hn : n < 2 ^ 15) {x : Piece P n} {c : PieceCall P n}
    (h : ∀ dp ∈ x.entry, Checked dp) (hc : Asserted x c) :
    ∀ dp ∈ (pieceCall x c).entry, Checked dp := by
  have hzero : Counted (addDownloadPiece : DownloadingPiece P n) := counted_addDownloadPiece
  obtain ⟨entry, havePiece⟩ := x
  cases c with
  | markAsDownloading i peer state =>
    cases entry with
    | none =>
      rintro _ ⟨⟩
      exact checked_new i (hzero.set i _ _ rfl rfl rfl) (by simp) (iff_of_false hc.1 (by simp))
        (by simp)
    | some dp => exact (h dp rfl).markAsDownloading hn i peer hc.1 (hc.2 dp rfl)
  | markAsWriting i peer =>
    cases entry with
    | none =>
      cases havePiece with
      | true => rintro _ ⟨⟩
      | false =>
        rintro _ ⟨⟩
        exact checked_new i (hzero.set i _ _ rfl rfl rfl) (by simp) (by simp [addDownloadPiece])
          (by simp)
    | some dp => exact (h dp rfl).markAsWriting hn havePiece i peer
  | markAsFinished i peer =>
    cases entry with
    | none =>
      cases havePiece with
      | true => rintro _ ⟨⟩
      | false =>
        rintro _ ⟨⟩
        exact checked_new i (hzero.set i _ _ rfl rfl rfl) (by simp) (by simp [addDownloadPiece])
          (by simp)
    | some dp => exact (h dp rfl).markAsFinished hn havePiece i peer (hc dp rfl)
  | abortDownload i =>
    cases entry with
    | none => rintro _ ⟨⟩
    | some dp => exact (h dp rfl).abortDownload hn i
  | writeFailed i =>
    cases entry with
    | none => rintro _ ⟨⟩
    | some dp => exact (h dp rfl).writeFailedEntry hn i (hc dp rfl)
  | restorePiece => rintro _ ⟨⟩
  | weHave => rintro _ ⟨⟩
  | weDontHave => exact h

/-- A peer that is forgotten changes no number. -/
theorem checked_clearPeer [DecidableEq P] (peer : P) {e : Option (DownloadingPiece P n)}
    (h : ∀ dp ∈ e, Checked dp) : ∀ dp ∈ PiecePicker.clearPeer peer e, Checked dp := by
  intro dp' hdp'
  obtain ⟨dp, hdp, rfl⟩ := Option.mem_map.1 hdp'
  have hchecked := h dp hdp
  exact ⟨⟨hchecked.requested, hchecked.writing, hchecked.finished⟩, hchecked.numPeers, hchecked.active,
    hchecked.started⟩

end Entry

/-! ### The order of the queue -/

theorem pairwise_sortPiece {c : Cursor Download}
    (h : c.others.Pairwise fun a b => b.complete ≤ a.complete) :
    (sortPiece c).toList.Pairwise fun a b => b.complete ≤ a.complete := by
  -- the larger number comes first
  let key : Download → ℤᵒᵈ := fun d => OrderDual.toDual d.complete
  unfold sortPiece
  dsimp only
  split_ifs with hfront
  · refine Cursor.pairwise_moveLeft (κ := ℤᵒᵈ) (fun _ _ => Iff.rfl) h fun hmoved => hfront.2 ?_
    rw [← hmoved, hfront.1]
  · exact Cursor.pairwise_moveRight_moveLeft (κ := ℤᵒᵈ) (fun _ _ => Iff.rfl) (fun _ _ => Iff.rfl) h

namespace Sorted

variable {c : Cursor Download}

theorem others (h : Sorted s) (hc : s.findPiece index = some c) :
    c.others.Pairwise fun a b => b.complete ≤ a.complete := by
  unfold Sorted at h
  rw [← Cursor.toList_of_find hc] at h
  exact (Cursor.pairwise_toList.1 h).1

/-- A piece that is as complete as before stays where it is. -/
theorem set (h : Sorted s) (hc : s.findPiece index = some c) (hd : d'.complete = c.focus.complete) :
    Sorted (s'.setDownloads (c.set d').toList) := by
  unfold Sorted at h ⊢
  rw [← Cursor.toList_of_find hc, ← List.pairwise_map (f := Download.complete) (R := (· ≥ ·))] at h
  rw [Picker.setDownloads_downloads,
    ← List.pairwise_map (f := Download.complete) (R := (· ≥ ·)), c.map_toList_set hd]
  exact h

/-- A piece that has changed is sorted in. -/
theorem sort (h : Sorted s) (hc : s.findPiece index = some c) :
    Sorted (s'.setDownloads (sortPiece (c.set d')).toList) := by
  have hothers := h.others hc
  rw [← c.others_set d'] at hothers
  exact pairwise_sortPiece hothers

/-- A piece that is erased leaves the others in their order. -/
theorem erase (h : Placed L s) (hc : s.findPiece index = some c)
    (hothers : c.others.Pairwise fun a b => b.complete ≤ a.complete) :
    Sorted (s.eraseDownloadPiece L c) := by
  have hlist : c.toList = s.downloads := Cursor.toList_of_find hc
  have hlength : s.downloads.length = c.others.length + 1 := by rw [← hlist, c.length_toList]
  obtain ⟨other, hother⟩ := h.exists_last (by omega)
  unfold Picker.eraseDownloadPiece
  rw [hother]
  dsimp only
  split_ifs
  · exact hothers
  · unfold Sorted
    rw [← List.pairwise_map (f := Download.complete) (R := (· ≥ ·))]
    dsimp only
    rw [Cursor.map_eraseIdx_set c (hlist.trans (Cursor.toList_of_find hother).symm),
      List.pairwise_map]
    · exact hothers
    · rfl

theorem erase_set (h : Sorted s) (hc : s.findPiece index = some c)
    (hplaced : Placed L (s'.setDownloads (c.set d').toList)) (hindex : d'.index = c.focus.index) :
    Sorted ((s'.setDownloads (c.set d').toList).eraseDownloadPiece L (c.set d')) := by
  have hothers := h.others hc
  rw [← c.others_set d'] at hothers
  exact erase hplaced (findPiece_set hc hindex) hothers

end Sorted

/-- What the calls keep, in the words of `check_invariant`. -/
structure Valid (L : Layout) (s : Picker P) : Prop extends Placed L s where
  checked : ∀ index, ∀ dp ∈ s.entry L index, Checked dp
  sorted : Sorted s

/-- No entry counts less than no block. -/
theorem Valid.complete_nonneg (h : Valid L s) (hd : d ∈ s.downloads) : 0 ≤ d.complete := by
  have hfind := (find?_eq_some_iff_of_nodup h.nodup).2 ⟨hd, rfl⟩
  exact DownloadQueue.complete_nonneg
    (h.checked d.index (d.view s.blockInfo _) (by rw [Picker.entry, hfind]; rfl)).toCounted

/-- A new piece with its first block requested comes last. -/
theorem Valid.sorted_start (h : Valid L s) (hd : d.complete = 0) (i : ℕ) (info : BlockInfo P) :
    Sorted (s.start L i d info) := by
  refine List.pairwise_append.2 ⟨h.sorted, List.pairwise_singleton .., fun e he d' hd' => ?_⟩
  obtain rfl := List.mem_singleton.1 hd'
  exact hd.trans_le (h.complete_nonneg he)

/-- A new piece that is sorted in. -/
theorem Sorted.sortLast_start (h : Sorted s) (d : Download) (i : ℕ) (info : BlockInfo P) :
    Sorted (s.start L i d info).sortLast := by
  unfold Picker.sortLast
  have hreverse : (s.start L i d info).downloads.reverse =
      { d with info := s.nextPlace L } :: s.downloads.reverse := List.reverse_concat ..
  rw [hreverse]
  refine pairwise_sortPiece ?_
  rw [Cursor.others, List.reverse_reverse, List.append_nil]
  exact h

section Calls

variable (h : Valid L s)

include h

theorem Valid.sorted_markAsDownloading (i : ℕ) (peer : Option P) (state : PieceState) :
    Sorted (markAsDownloading L index i peer state s).1 := by
  unfold markAsDownloading
  split_ifs
  · exact h.sorted_start rfl i _
  · cases hc : s.findPiece index with
    | none => exact h.sorted
    | some c =>
      dsimp only
      by_cases htaken : (s.blockInfo (c.focus.info + i)).state = .writing ∨
          (s.blockInfo (c.focus.info + i)).state = .finished
      · rw [if_pos htaken]
        exact h.sorted
      · rw [if_neg htaken]
        exact h.sorted.set hc rfl

theorem Valid.sorted_markAsWriting (i : ℕ) (peer : Option P) :
    Sorted (markAsWriting L index i peer s).1 := by
  unfold markAsWriting
  by_cases hdownloading : s.downloading index = false
  · rw [if_pos hdownloading]
    split_ifs
    · exact h.sorted
    · exact h.sorted.sortLast_start _ i _
  · rw [if_neg hdownloading]
    cases hc : s.findPiece index with
    | none => exact h.sorted
    | some c =>
      dsimp only
      by_cases htaken : (s.blockInfo (c.focus.info + i)).state = .writing ∨
          (s.blockInfo (c.focus.info + i)).state = .finished
      · rw [if_pos htaken]
        exact h.sorted.set hc rfl
      · rw [if_neg htaken]
        exact h.sorted.sort hc

/-- A block that was being written moves from one counter to the other. -/
theorem Valid.sorted_markAsFinished (hn : L.blocksPerPiece < 2 ^ 15)
    (i : Fin (L.blocksInPiece index)) (peer : Option P) :
    Sorted (markAsFinished L index i peer s) := by
  unfold markAsFinished
  by_cases hdownloading : s.downloading index = false
  · rw [if_pos hdownloading]
    split_ifs
    · exact h.sorted
    · exact h.sorted.sortLast_start _ i _
  · rw [if_neg hdownloading]
    cases hc : s.findPiece index with
    | none => exact h.sorted
    | some c =>
      have hcounted : Counted (c.focus.view s.blockInfo (L.blocksInPiece index)) :=
        (h.checked index _ (h.toPlaced.entry_of_find hc)).toCounted
      have hn : L.blocksInPiece index < 2 ^ 15 := (L.blocksInPiece_le index).trans_lt hn
      dsimp only
      by_cases hfinished : (s.blockInfo (c.focus.info + i)).state = .finished
      · rw [if_pos hfinished]
        exact h.sorted
      · rw [if_neg hfinished]
        by_cases hwriting : (s.blockInfo (c.focus.info + i)).state = .writing
        · rw [if_pos hwriting]
          refine h.sorted.set hc ?_
          have hsucc := hcounted.finished_succ hn (i := i) hfinished
          have hpred := hcounted.writing_pred hn (i := i) hwriting
          simp only [Download.view_finished, Download.view_writing] at hsucc hpred
          simp only [Download.complete, hsucc, hpred]
          omega
        · rw [if_neg hwriting]
          exact h.sorted.sort hc

theorem Valid.sorted_abortDownload (i : Fin (L.blocksInPiece index)) :
    Sorted (abortDownload L index i s) := by
  unfold abortDownload
  split_ifs
  · exact h.sorted
  · cases hc : s.findPiece index with
    | none => exact h.sorted
    | some c =>
      dsimp only
      split_ifs
      · exact h.sorted
      · refine h.sorted.erase_set hc (acts_setBlock h.toPlaced hc ?_ ?_ i _).placed ?_
        all_goals rfl
      · exact h.sorted.set hc rfl
      · exact h.sorted.set hc rfl
      · exact h.sorted

theorem Valid.sorted_writeFailed (i : Fin (L.blocksInPiece index)) :
    Sorted (writeFailed L index i s) := by
  unfold writeFailed
  cases hc : s.findPiece index with
  | none => exact h.sorted
  | some c =>
    dsimp only
    by_cases hfinished : (s.blockInfo (c.focus.info + i)).state = .finished
    · rw [if_pos hfinished]
      exact h.sorted
    · rw [if_neg hfinished]
      generalize (if (s.blockInfo (c.focus.info + i)).state = .writing then
        int16 (c.focus.writing - 1) else c.focus.writing) = writing
      split_ifs
      · refine h.sorted.erase_set hc (acts_setBlock h.toPlaced hc ?_ ?_ i _).placed ?_
        all_goals rfl
      · exact h.sorted.sort hc

theorem Valid.sorted_restorePiece (index : ℕ) : Sorted (restorePiece L index s) := by
  unfold restorePiece
  cases hc : s.findPiece index with
  | none => exact h.sorted
  | some c => exact Sorted.erase h.toPlaced hc (h.sorted.others hc)

theorem Valid.sorted_call (hn : L.blocksPerPiece < 2 ^ 15)
    (c : PieceCall P (L.blocksInPiece index)) : Sorted (call L index s c) := by
  cases c with
  | markAsDownloading i peer state => exact h.sorted_markAsDownloading i peer state
  | markAsWriting i peer => exact h.sorted_markAsWriting i peer
  | markAsFinished i peer => exact h.sorted_markAsFinished hn i peer
  | abortDownload i => exact h.sorted_abortDownload i
  | writeFailed i => exact h.sorted_writeFailed i
  | restorePiece => exact h.sorted_restorePiece index
  | weHave =>
    unfold call weHave
    split_ifs
    · exact h.sorted_restorePiece index
    · exact h.sorted
  | weDontHave => exact h.sorted

end Calls

/-- The assertions of a call on the queue. -/
def Asserting (s : Picker P) : Action P L → Prop
  | .piece index c => Asserted (s.piece L index) c
  | .clearPeer _ => True

/-- One call that keeps to its assertions keeps the invariant. -/
theorem valid_step [DecidableEq P] (hn : L.blocksPerPiece < 2 ^ 15) {a : Action P L} (h : Valid L s)
    (ha : Asserting s a) (hs : step L s a = some s') : Valid L s' := by
  cases a with
  | piece q c =>
    obtain rfl := call_of_step hs
    obtain ⟨hplaced, hpiece, hother⟩ := placed_call h.toPlaced c
    refine ⟨hplaced, fun index => ?_, h.sorted_call hn c⟩
    by_cases hq : index = q
    · subst hq
      rw [show (call L index s c).entry L index = _ from congrArg Piece.entry hpiece]
      exact checked_pieceCall ((L.blocksInPiece_le index).trans_lt hn) (h.checked index) ha
    · rw [show (call L q s c).entry L index = _ from congrArg Piece.entry (hother index hq)]
      exact h.checked index
  | clearPeer peer =>
    cases hs
    obtain ⟨hplaced, hentry⟩ := placed_clearPeer h.toPlaced peer
    refine ⟨hplaced, fun index => ?_, h.sorted⟩
    rw [hentry]
    exact checked_clearPeer peer (h.checked index)

/-- **The assertions of `check_invariant`.**  They hold in every state of a run that keeps to those of the
calls. -/
theorem always_valid [DecidableEq P] (hn : L.blocksPerPiece < 2 ^ 15) {as : List (Action P L)}
    (has : Along (step L) Asserting empty as) : Always (step L) (Valid L) (empty : Picker P) as :=
  has.always (fun _ _ _ h ha hs => valid_step hn h ha hs)
    ⟨placed_empty, fun _ => by rintro _ ⟨⟩, List.Pairwise.nil⟩

/-- A block that is requested, written and finished, in a run that keeps to the assertions. -/
theorem always_valid_block :
    Always (step threePieces) (Valid threePieces) (empty : Picker ℕ)
      [.piece 0 (.markAsDownloading ⟨0, by decide⟩ (some 7) .fast),
        .piece 1 (.markAsWriting ⟨1, by decide⟩ none),
        .piece 0 (.markAsWriting ⟨0, by decide⟩ (some 7)),
        .piece 0 (.markAsFinished ⟨0, by decide⟩ none)] := by
  refine always_valid (by decide) ?_
  refine along_cons ⟨by decide, by rintro _ ⟨⟩⟩ rfl ?_
  refine along_cons trivial rfl ?_
  refine along_cons trivial rfl ?_
  refine along_cons ?_ rfl trivial
  rintro _ ⟨⟩
  decide

end P2Player.DownloadQueue
