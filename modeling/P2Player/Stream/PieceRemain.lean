import P2Player.Lib.Runs
import P2Player.Stream.HyperStreamer

/-!
# The missing blocks of a piece

`AddPieceService` has `MdDataHelper.getPieceRemain` fetch the missing blocks of a piece into its
buffer and hands the buffer to `torrent::add_piece`, which writes the blocks that the piece picker
does not report as finished.  The two read the same block states, on the two sides of the native
interface.

* `PieceState`: what the session knows of a piece, with `partialPieceInfo`, which Java gets to see;
* `Helper.getPieceRemain`: the ranges that are requested from the server;
* `PieceState.addPiece`: the blocks that are written;
* `serve`: one turn of `AddPieceService.run`;
* `fetched_iff`: the blocks that are written have been requested exactly when no block was being
  written before.
-/

namespace P2Player.Stream

open Runs

/-! ### The state of a piece -/

/-- `BlockState`, which has the same values as `block_info::state` of libtorrent. -/
inductive BlockState
  | none
  | requested
  | writing
  | finished
  deriving DecidableEq

/-- The number of a state. -/
def BlockState.value : BlockState → ℕ
  | .none => 0
  | .requested => 1
  | .writing => 2
  | .finished => 3

/-- The state and the size of a block in a `PartialPieceInfo`. -/
structure BlockInfo where
  state : BlockState
  blockSize : ℕ

/-- A piece of a torrent in the session: its size and that of the blocks, whether the torrent is a
seed, whether the picker has the piece, and the states of its blocks while it is downloading. -/
structure PieceState where
  index : ℕ
  numPieces : ℕ
  index_lt : index < numPieces
  pieceSize : ℕ
  blockSize : ℕ
  blockSize_pos : 0 < blockSize
  isSeed : Bool
  havePiece : Bool
  downloading : Option (List BlockState)
  length_downloading : ∀ states, downloading = some states →
    states.length = (pieceSize + blockSize - 1) / blockSize

namespace PieceState

variable (P : PieceState)

/-- `blocks_in_piece`. -/
def blocksInPiece : ℕ := (P.pieceSize + P.blockSize - 1) / P.blockSize

/-- The block number `j` in `get_download_queue`. -/
def blockInfo (j : ℕ) (state : BlockState) : BlockInfo :=
  ⟨state, if j < P.blocksInPiece - 1 then P.blockSize else P.pieceSize - j * P.blockSize⟩

/-- `getPartialPieceInfo`: null unless the piece is downloading. -/
def partialPieceInfo : Option (List BlockInfo) :=
  if P.isSeed then Option.none else P.downloading.map fun states => states.mapIdx P.blockInfo

end PieceState

/-! ### The helper -/

/-- The loop of `getPieceRemain` over the blocks that are left, with `start`, `end` and `isReq`: the
ranges requested, and what is returned, where `none` stands for an `IOException`. -/
def remainLoop (getData : ℕ → ℕ → GetData) :
    ℕ → ℕ → Bool → List BlockInfo → List (ℕ × ℕ) × Option Bool
  | start, stop, isReq, [] =>
    if isReq then
      ([(start, stop)], match getData start (stop - start) with
        | .done _ => some true
        | .refused => some false
        | .failed _ => Option.none)
    else ([], some true)
  | start, stop, isReq, b :: bs =>
    if b.state.value < BlockState.writing.value then
      remainLoop getData start (stop + b.blockSize) true bs
    -- a present block ends the range of missing ones before it
    else if isReq then
      match getData start (stop - start) with
      | .done _ =>
        let rest := remainLoop getData (stop + b.blockSize) (stop + b.blockSize) false bs
        ((start, stop) :: rest.1, rest.2)
      | .refused => ([(start, stop)], some false)
      | .failed _ => ([(start, stop)], Option.none)
    else remainLoop getData (start + b.blockSize) (start + b.blockSize) false bs

/-- The answers that `getPieceRemain` gets: the partial info of the piece and the first piece
incomplete from the native layer, where `none` stands for a `TorrentException`, and what the server
answers to a request. -/
structure RemainAnswers where
  info : Option (Option (List BlockInfo))
  incompletePiece : Option ℤ
  getData : ℕ → ℕ → GetData

/-- What `getPieceRemain` does: the ranges requested, the value returned, where `none` stands for a
`TorrentException`, and `errCnt`. -/
structure Remain where
  requests : List (ℕ × ℕ)
  result : Option Bool
  errCnt : ℤ

/-- `getPieceRemain(pieceIdx, data)`. -/
def Helper.getPieceRemain (H : Helper) (errCnt pieceIdx : ℤ) (a : RemainAnswers) : Remain :=
  if pieceIdx < H.startPiece ∨ H.endPiece < pieceIdx ∨ maxErrorCounter < errCnt ∨ ¬ H.connector then
    ⟨[], some false, errCnt⟩
  else
    let startBytes := pieceIdx * H.pieceSize - H.itemOffset
    let endBytes := startBytes + H.pieceSize
    if startBytes < 0 ∨ H.itemLength < endBytes then ⟨[], some false, errCnt⟩
    else
      match a.info with
      | .none => ⟨[], .none, errCnt⟩
      | some .none =>
        match a.incompletePiece with
        | .none => ⟨[], .none, errCnt⟩
        | some incompletePiece =>
          if pieceIdx < incompletePiece then ⟨[], some false, errCnt⟩
          else
            let pieceSize := H.pieceSize.toNat
            match a.getData 0 pieceSize with
            | .done _ => ⟨[(0, pieceSize)], some true, errCnt⟩
            | .refused => ⟨[(0, pieceSize)], some false, errCnt⟩
            | .failed _ => ⟨[(0, pieceSize)], some false, errCnt + 1⟩
      | some (some blocks) =>
        let (requests, result) := remainLoop a.getData 0 0 false blocks
        match result with
        | some b => ⟨requests, some b, errCnt⟩
        | .none => ⟨requests, some false, errCnt + 1⟩

/-- The piece lies within the item, the connector has been created and has not failed too often. -/
def Helper.Accepts (H : Helper) (errCnt pieceIdx : ℤ) : Prop :=
  H.hasPiece pieceIdx = true ∧ errCnt ≤ maxErrorCounter ∧ H.connector = true

instance (H : Helper) (errCnt pieceIdx : ℤ) : Decidable (H.Accepts errCnt pieceIdx) :=
  inferInstanceAs (Decidable (_ ∧ _ ∧ _))

/-! ### The native side -/

/-- The part of a piece that a block is written to. -/
structure Write where
  block : ℕ
  start : ℕ
  length : ℕ
  deriving DecidableEq

namespace PieceState

variable (P : PieceState)

/-- `is_finished`. -/
def isFinished (block : ℕ) : Bool :=
  P.havePiece || match P.downloading with
    | Option.none => false
    | some states => states[block]? = some .finished

/-- `mark_as_downloading` and `mark_as_writing` of a block that is not finished: it is being written
afterwards, and the piece is downloading. -/
def markAsWriting (block : ℕ) : PieceState where
  __ := P
  downloading :=
    some ((P.downloading.getD (List.replicate P.blocksInPiece .none)).set block .writing)
  length_downloading := by
    rintro states ⟨⟩
    rw [List.length_set]
    cases h : P.downloading with
    | none => exact List.length_replicate
    | some states => exact P.length_downloading states h

/-- The loop of `add_piece` over the `n` blocks from `i` on.  `alloc` tells for which blocks a disk
buffer can be allocated. -/
def addPieceLoop (alloc : ℕ → Bool) : ℕ → ℕ → PieceState → List Write × PieceState
  | 0, _, P => ([], P)
  | n + 1, i, P =>
    if P.isFinished i then addPieceLoop alloc n (i + 1) P
    else if alloc i then
      let rest := addPieceLoop alloc n (i + 1) (P.markAsWriting i)
      (⟨i, i * P.blockSize, min (P.pieceSize - i * P.blockSize) P.blockSize⟩ :: rest.1, rest.2)
    -- `add_piece` returns when there is no disk buffer
    else ([], P)

/-- `add_piece` without flags. -/
def addPiece (alloc : ℕ → Bool) : List Write × PieceState :=
  if P.isSeed then ([], P)
  else if P.havePiece then ([], P)
  else addPieceLoop alloc P.blocksInPiece 0 P

end PieceState

/-- One turn of `AddPieceService.run` for a piece whose block states do not change in between: what
the helper did and what the session writes. -/
def serve (H : Helper) (errCnt : ℤ) (P : PieceState) (incompletePiece : Option ℤ)
    (getData : ℕ → ℕ → GetData) (alloc : ℕ → Bool) : Remain × List Write :=
  let remain := H.getPieceRemain errCnt P.index ⟨some P.partialPieceInfo, incompletePiece, getData⟩
  (remain, if remain.result = some true then (P.addPiece alloc).1 else [])

/-! ### The ranges that are requested -/

/-- A block as a segment of its piece, wanted when it is missing. -/
def BlockInfo.segment (b : BlockInfo) : Bool × ℕ :=
  (decide (b.state.value < BlockState.writing.value), b.blockSize)

/-- A loop that returns true has requested the runs of missing blocks. -/
theorem remainLoop_requests {getData : ℕ → ℕ → GetData} {blocks : List BlockInfo}
    {start stop : ℕ} {isReq : Bool} (hstart : isReq = false → start = stop)
    (h : (remainLoop getData start stop isReq blocks).2 = some true) :
    (remainLoop getData start stop isReq blocks).1 =
      runs start stop isReq (blocks.map BlockInfo.segment) := by
  induction blocks generalizing start stop isReq with
  | nil => cases isReq <;> rfl
  | cons b bs ih =>
    rw [List.map_cons]
    by_cases hb : b.state.value < BlockState.writing.value
    · have hseg : b.segment = (true, b.blockSize) := by simp [BlockInfo.segment, hb]
      rw [remainLoop, if_pos hb] at h ⊢
      rw [hseg, runs]
      exact ih (fun h => by cases h) h
    · have hseg : b.segment = (false, b.blockSize) := by simp [BlockInfo.segment, hb]
      rw [remainLoop, if_neg hb] at h ⊢
      rw [hseg, runs]
      cases isReq with
      | true =>
        rw [if_pos rfl] at h ⊢
        rw [if_pos rfl]
        cases hd : getData start (stop - start) with
        | done data =>
          rw [hd] at h
          rw [← ih (fun _ => rfl) h]
        | refused => rw [hd] at h; cases h
        | failed data => rw [hd] at h; cases h
      | false =>
        obtain rfl := hstart rfl
        exact ih (fun _ => rfl) h

/-- The loop returns true when the server answers every request. -/
theorem remainLoop_of_done {getData : ℕ → ℕ → GetData}
    (hd : ∀ m n, ∃ data, getData m n = .done data) (blocks : List BlockInfo) (start stop : ℕ)
    (isReq : Bool) : (remainLoop getData start stop isReq blocks).2 = some true := by
  induction blocks generalizing start stop isReq with
  | nil =>
    cases isReq with
    | false => rfl
    | true =>
      obtain ⟨data, h⟩ := hd start (stop - start)
      simp only [remainLoop, if_true, h]
  | cons b bs ih =>
    rw [remainLoop]
    split_ifs with hb hreq
    · exact ih ..
    · obtain ⟨data, h⟩ := hd start (stop - start)
      rw [h]
      exact ih ..
    · exact ih ..

/-! ### The blocks that are written -/

namespace PieceState

variable {P : PieceState} {alloc : ℕ → Bool}

theorem isFinished_markAsWriting {i j : ℕ} (hij : i ≠ j) :
    (P.markAsWriting i).isFinished j = P.isFinished j := by
  unfold isFinished markAsWriting
  congr 1
  dsimp only
  rw [List.getElem?_set_ne hij]
  cases P.downloading with
  | none => simp [List.getElem?_replicate]
  | some states => rfl

/-- The size of a block in a `PartialPieceInfo` is the size of the part that `add_piece` writes. -/
def write (P : PieceState) (j : ℕ) : Write :=
  ⟨j, j * P.blockSize, min (P.pieceSize - j * P.blockSize) P.blockSize⟩

theorem addPieceLoop_succ (n i : ℕ) :
    addPieceLoop alloc (n + 1) i P =
      if P.isFinished i then addPieceLoop alloc n (i + 1) P
      else if alloc i then
        (P.write i :: (addPieceLoop alloc n (i + 1) (P.markAsWriting i)).1,
          (addPieceLoop alloc n (i + 1) (P.markAsWriting i)).2)
      else ([], P) := rfl

/-- Only blocks that are not finished are written. -/
theorem mem_addPieceLoop {n i : ℕ} {w : Write} (hw : w ∈ (addPieceLoop alloc n i P).1) :
    ∃ j, i ≤ j ∧ j < i + n ∧ P.isFinished j = false ∧ w = P.write j := by
  induction n generalizing i P with
  | zero => cases hw
  | succ n ih =>
    rw [addPieceLoop_succ] at hw
    split_ifs at hw with hfin halloc
    · obtain ⟨j, hij, hjn, hj⟩ := ih hw
      exact ⟨j, by omega, by omega, hj⟩
    · rcases List.mem_cons.1 hw with rfl | hw
      · exact ⟨i, le_rfl, by omega, by simpa using hfin, rfl⟩
      · obtain ⟨j, hij, hjn, hj, rfl⟩ := ih hw
        rw [isFinished_markAsWriting (by omega)] at hj
        exact ⟨j, by omega, by omega, hj, rfl⟩
    · cases hw

/-- When there is memory, every block that is not finished is written. -/
theorem write_mem_addPieceLoop {n i j : ℕ} (halloc : ∀ i, alloc i = true) (hij : i ≤ j)
    (hjn : j < i + n) (hj : P.isFinished j = false) : P.write j ∈ (addPieceLoop alloc n i P).1 := by
  induction n generalizing i P with
  | zero => omega
  | succ n ih =>
    rw [addPieceLoop_succ, if_pos (halloc i)]
    rcases Nat.eq_or_lt_of_le hij with rfl | hlt
    · rw [hj, if_neg Bool.false_ne_true]
      exact List.mem_cons_self
    · split_ifs with hfin
      · exact ih hlt (by omega) hj
      · have h := ih (P := P.markAsWriting i) hlt (by omega)
          (by rw [isFinished_markAsWriting (by omega)]; exact hj)
        exact List.mem_cons_of_mem _ h

/-! ### The layout of a piece -/

theorem lt_blocksInPiece {j : ℕ} : j < P.blocksInPiece ↔ j * P.blockSize < P.pieceSize := by
  have hpos := P.blockSize_pos
  unfold blocksInPiece
  rw [Nat.lt_iff_add_one_le, Nat.le_div_iff_mul_le hpos, Nat.add_one_mul]
  omega

/-- `get_download_queue` and `add_piece` agree on the size of a block. -/
theorem blockInfo_blockSize {j : ℕ} (hj : j < P.blocksInPiece) (state : BlockState) :
    (P.blockInfo j state).blockSize = (P.write j).length := by
  unfold blockInfo write
  have hlt := lt_blocksInPiece.1 hj
  have hnext := @lt_blocksInPiece P (j + 1)
  rw [Nat.add_one_mul] at hnext
  dsimp only
  split_ifs with h
  · have := hnext.1 (by omega)
    omega
  · have := mt hnext.2 (by omega)
    omega

theorem write_length_pos {j : ℕ} (hj : j < P.blocksInPiece) : 0 < (P.write j).length := by
  have hpos := P.blockSize_pos
  have hlt := lt_blocksInPiece.1 hj
  simp only [write]
  omega

/-- The blocks of the piece as segments. -/
def segments (P : PieceState) (states : List BlockState) : List (Bool × ℕ) :=
  (states.mapIdx P.blockInfo).map BlockInfo.segment

theorem getElem?_segments {states : List BlockState} {j : ℕ} {state : BlockState}
    (hlen : states.length = P.blocksInPiece) (hj : states[j]? = some state) :
    (P.segments states)[j]? =
      some (decide (state.value < BlockState.writing.value), (P.write j).length) := by
  have hlt : j < P.blocksInPiece := hlen ▸ (List.getElem?_eq_some_iff.1 hj).1
  rw [segments, List.getElem?_map, List.getElem?_mapIdx, hj, ← blockInfo_blockSize hlt state]
  rfl

/-- Every block but the last is of full size. -/
theorem position_segments {states : List BlockState} {j : ℕ}
    (hlen : states.length = P.blocksInPiece) (hj : j < P.blocksInPiece) :
    position (P.segments states) j = (P.write j).start := by
  induction j with
  | zero => simp [write]
  | succ j ih =>
    have hlt : j < P.blocksInPiece := by omega
    obtain ⟨state, hstate⟩ : ∃ state, states[j]? = some state :=
      ⟨_, List.getElem?_eq_getElem (hlen ▸ hlt)⟩
    have hfull := lt_blocksInPiece.1 hj
    rw [Nat.add_one_mul] at hfull
    rw [position_succ (getElem?_segments hlen hstate), ih hlt]
    simp only [write, Nat.add_one_mul]
    omega

end PieceState

/-! ### The main result -/

/-- The block lies in a range that the helper has requested. -/
def Write.Fetched (w : Write) (requests : List (ℕ × ℕ)) : Prop :=
  ∃ range ∈ requests, range.1 ≤ w.start ∧ w.start + w.length ≤ range.2

instance (w : Write) (requests : List (ℕ × ℕ)) : Decidable (w.Fetched requests) :=
  inferInstanceAs (Decidable (∃ range ∈ requests, _ ∧ _))

theorem Helper.hasPiece_iff {H : Helper} {pieceIdx : ℤ} :
    H.hasPiece pieceIdx = true ↔
      ¬ (pieceIdx < H.startPiece ∨ H.endPiece < pieceIdx) ∧
      ¬ (pieceIdx * H.pieceSize - H.itemOffset < 0 ∨
        H.itemLength < pieceIdx * H.pieceSize - H.itemOffset + H.pieceSize) := by
  unfold hasPiece
  dsimp only
  rw [Bool.ite_eq_true_distrib, Bool.ite_eq_true_distrib]
  simp

/-- The two guards of `getPieceRemain`. -/
theorem Helper.accepts_iff {H : Helper} {errCnt pieceIdx : ℤ} :
    H.Accepts errCnt pieceIdx ↔
      ¬ (pieceIdx < H.startPiece ∨ H.endPiece < pieceIdx ∨ maxErrorCounter < errCnt ∨
        ¬ H.connector) ∧
      ¬ (pieceIdx * H.pieceSize - H.itemOffset < 0 ∨
        H.itemLength < pieceIdx * H.pieceSize - H.itemOffset + H.pieceSize) := by
  rw [Accepts, hasPiece_iff]
  simp only [not_or, not_not, not_lt]
  tauto

theorem Helper.getPieceRemain_of_not_accepts {H : Helper} {errCnt pieceIdx : ℤ} {a : RemainAnswers}
    (h : ¬ H.Accepts errCnt pieceIdx) :
    H.getPieceRemain errCnt pieceIdx a = ⟨[], some false, errCnt⟩ := by
  rw [accepts_iff, not_and_or, not_not, not_not] at h
  unfold getPieceRemain
  split_ifs with h₁
  · rfl
  · simp only [if_pos (h.resolve_left h₁)]

/-- The ranges and the result come from the loop over the blocks. -/
theorem Helper.getPieceRemain_of_accepts {H : Helper} {errCnt pieceIdx : ℤ}
    (h : H.Accepts errCnt pieceIdx) (blocks : List BlockInfo) (incompletePiece : Option ℤ)
    (getData : ℕ → ℕ → GetData) :
    (H.getPieceRemain errCnt pieceIdx ⟨some (some blocks), incompletePiece, getData⟩).requests =
      (remainLoop getData 0 0 false blocks).1 ∧
    ((H.getPieceRemain errCnt pieceIdx ⟨some (some blocks), incompletePiece, getData⟩).result =
      some true ↔ (remainLoop getData 0 0 false blocks).2 = some true) := by
  obtain ⟨h₁, h₂⟩ := accepts_iff.1 h
  simp only [getPieceRemain, if_neg h₁, if_neg h₂]
  cases hr : (remainLoop getData 0 0 false blocks).2 with
  | none => simp
  | some b => simp

namespace PieceState

variable {P : PieceState} {states : List BlockState}

theorem partialPieceInfo_of_downloading (hseed : P.isSeed = false)
    (hdl : P.downloading = some states) :
    P.partialPieceInfo = some (states.mapIdx P.blockInfo) := by
  rw [partialPieceInfo, hseed, hdl]
  rfl

theorem isFinished_of_downloading {j : ℕ} (hhave : P.havePiece = false)
    (hdl : P.downloading = some states) :
    P.isFinished j = decide (states[j]? = some .finished) := by
  rw [isFinished, hhave, hdl, Bool.false_or]

/-- A block of a downloading piece lies in a run of missing blocks exactly when it is missing. -/
theorem fetched_runs_iff {j : ℕ} {state : BlockState} (hdl : P.downloading = some states)
    (hj : states[j]? = some state) :
    (P.write j).Fetched (runs 0 0 false (P.segments states)) ↔
      state.value < BlockState.writing.value := by
  have hlen : states.length = P.blocksInPiece := P.length_downloading states hdl
  have hlt : j < P.blocksInPiece := hlen ▸ (List.getElem?_eq_some_iff.1 hj).1
  have h := within_run_iff (getElem?_segments hlen hj) (write_length_pos hlt)
  rw [position_segments hlen hlt, decide_eq_true_eq] at h
  exact h

theorem addPiece_eq (hseed : P.isSeed = false) (hhave : P.havePiece = false) (alloc : ℕ → Bool) :
    P.addPiece alloc = addPieceLoop alloc P.blocksInPiece 0 P := by
  simp only [addPiece, hseed, hhave, Bool.false_eq_true, if_false]

/-- A block that is written was not finished. -/
theorem mem_addPiece {alloc : ℕ → Bool} {w : Write} (hseed : P.isSeed = false)
    (hhave : P.havePiece = false) (hdl : P.downloading = some states)
    (hw : w ∈ (P.addPiece alloc).1) :
    ∃ j state, states[j]? = some state ∧ state ≠ .finished ∧ w = P.write j := by
  have hlen : states.length = P.blocksInPiece := P.length_downloading states hdl
  rw [addPiece_eq hseed hhave] at hw
  obtain ⟨j, -, hlt, hfin, rfl⟩ := mem_addPieceLoop hw
  obtain ⟨state, hj⟩ : ∃ state, states[j]? = some state :=
    ⟨_, List.getElem?_eq_getElem (by omega)⟩
  rw [isFinished_of_downloading hhave hdl, hj, decide_eq_false_iff_not] at hfin
  exact ⟨j, state, hj, fun h => hfin (congrArg some h), rfl⟩

/-- A block that is not finished is written when there is memory. -/
theorem write_mem_addPiece {j : ℕ} {state : BlockState} (hseed : P.isSeed = false)
    (hhave : P.havePiece = false) (hdl : P.downloading = some states)
    (hj : states[j]? = some state) (hne : state ≠ .finished) :
    P.write j ∈ (P.addPiece fun _ => true).1 := by
  have hlen : states.length = P.blocksInPiece := P.length_downloading states hdl
  have hlt : j < states.length := (List.getElem?_eq_some_iff.1 hj).1
  rw [addPiece_eq hseed hhave]
  refine write_mem_addPieceLoop (fun _ => rfl) (Nat.zero_le j) (by omega) ?_
  rw [isFinished_of_downloading hhave hdl, hj, decide_eq_false_iff_not]
  exact fun h => hne (Option.some.inj h)

end PieceState

/-- **Fetched before written.** For a piece that is partially downloaded, and whatever the server
answers, every block that is written has been requested exactly when no block was being written
before, unless the helper does not serve the piece. -/
theorem fetched_iff {H : Helper} {errCnt : ℤ} {P : PieceState} {states : List BlockState}
    {incompletePiece : Option ℤ} (hseed : P.isSeed = false) (hhave : P.havePiece = false)
    (hdl : P.downloading = some states) :
    (∀ getData alloc, ∀ w ∈ (serve H errCnt P incompletePiece getData alloc).2,
      w.Fetched (serve H errCnt P incompletePiece getData alloc).1.requests) ↔
      (H.Accepts errCnt P.index → BlockState.writing ∉ states) := by
  unfold serve
  rw [P.partialPieceInfo_of_downloading hseed hdl]
  refine ⟨fun h hacc hmem => ?_, fun h getData alloc w hw => ?_⟩
  · obtain ⟨j, hj⟩ := List.mem_iff_getElem?.1 hmem
    -- the server answers everything and there is memory
    have hloop := @remainLoop_of_done (fun _ _ => .done []) (fun _ _ => ⟨[], rfl⟩)
      (states.mapIdx P.blockInfo) 0 0 false
    obtain ⟨hreq, hres⟩ := H.getPieceRemain_of_accepts hacc (states.mapIdx P.blockInfo)
      incompletePiece fun _ _ => .done []
    have hw := PieceState.write_mem_addPiece hseed hhave hdl hj (by decide)
    have hfetched := h (fun _ _ => .done []) (fun _ => true) (P.write j)
      (by dsimp only; rw [if_pos (hres.2 hloop)]; exact hw)
    rw [hreq, remainLoop_requests (fun _ => rfl) hloop] at hfetched
    exact absurd ((PieceState.fetched_runs_iff hdl hj).1 hfetched) (by decide)
  · by_cases hacc : H.Accepts errCnt P.index
    swap
    · rw [Helper.getPieceRemain_of_not_accepts hacc] at hw
      cases hw
    dsimp only at hw ⊢
    split_ifs at hw with hres
    swap
    · cases hw
    obtain ⟨hreq, hres'⟩ := H.getPieceRemain_of_accepts hacc (states.mapIdx P.blockInfo)
      incompletePiece getData
    obtain ⟨j, state, hj, hne, rfl⟩ := PieceState.mem_addPiece hseed hhave hdl hw
    rw [hreq, remainLoop_requests (fun _ => rfl) (hres'.1 hres)]
    refine (PieceState.fetched_runs_iff hdl hj).2 ?_
    cases state with
    | none => decide
    | requested => decide
    | writing => exact absurd (List.mem_of_getElem? hj) (h hacc)
    | finished => exact absurd rfl hne

/-- The second of ten pieces of three blocks, with the states given. -/
def threeBlocks (first second third : BlockState) : PieceState where
  index := 1
  numPieces := 10
  index_lt := by decide
  pieceSize := 49152
  blockSize := 16384
  blockSize_pos := by decide
  isSeed := false
  havePiece := false
  downloading := some [first, second, third]
  length_downloading := by rintro _ ⟨⟩; rfl

/-- The helper of a file that fills the ten pieces. -/
def tenPieces : Helper :=
  { itemLength := 491520, endPiece := 11, pieceSize := 49152, connector := true }

/-- With a block finished and none being written, the other two are written, and everything that is
written has been requested. -/
theorem fetched_iff_finished :
    (serve tenPieces 0 (threeBlocks .none .finished .requested) none (fun _ _ => .done [])
      fun _ => true).2 = [⟨0, 0, 16384⟩, ⟨2, 32768, 16384⟩] ∧
    ∀ getData alloc,
      ∀ w ∈ (serve tenPieces 0 (threeBlocks .none .finished .requested) none getData alloc).2,
        w.Fetched (serve tenPieces 0 (threeBlocks .none .finished .requested) none getData
          alloc).1.requests :=
  ⟨by decide, (fetched_iff rfl rfl rfl).2 fun _ => by decide⟩

/-- A block that is being written is not requested and is written again from the buffer. -/
theorem not_fetched_writing :
    (serve tenPieces 0 (threeBlocks .none .writing .none) none (fun _ _ => .done [])
      fun _ => true).1.requests = [(0, 16384), (32768, 49152)] ∧
    ∃ w ∈ (serve tenPieces 0 (threeBlocks .none .writing .none) none (fun _ _ => .done [])
      fun _ => true).2, w = ⟨1, 16384, 16384⟩ ∧ ¬ w.Fetched [(0, 16384), (32768, 49152)] := by
  decide

end P2Player.Stream
