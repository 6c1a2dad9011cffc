import P2Player.Stream.PieceRemain
import P2Player.Stream.Range

/-!
# The missing ranges of a piece

`MdDataHelper.getPieceRemain` merges neighbouring missing blocks of a piece and requests each range
from the server.

* `MissingAt`: the bytes of the missing blocks;
* `GapsExact`: ranges that cover these bytes once, from left to right;
* `gapsExact_runs`: the runs of missing blocks do;
* `refused_last`: a request that is refused is the last one;
* `getPieceRemain_exact`: what is requested for a piece that lies inside the item.

After `MAX_ERROR_COUNTER` errors, and without a connection, nothing is requested.
-/

namespace P2Player.Stream

open Java Runs

/-- The piece lies inside the item. -/
def Torrent.Inside (T : Torrent) (p : ℕ) : Prop :=
  T.itemOffset ≤ p * T.pieceSize ∧ (p + 1) * T.pieceSize ≤ T.itemOffset + T.itemSize

/-- Where a block begins in its piece. -/
def blockStart (blocks : List BlockInfo) (j : ℕ) : ℕ :=
  ((blocks.take j).map BlockInfo.blockSize).sum

/-- The byte `x` of the piece belongs to a block whose state is below `WRITING`. -/
def MissingAt (blocks : List BlockInfo) (x : ℕ) : Prop :=
  ∃ j b, blocks[j]? = some b ∧ b.state.value < BlockState.writing.value ∧
    blockStart blocks j ≤ x ∧ x < blockStart blocks j + b.blockSize

/-- The ranges follow each other in the piece, and they cover the bytes of the missing blocks. -/
structure GapsExact (pieceSize : ℕ) (blocks : List BlockInfo) (requests : List (ℕ × ℕ)) : Prop where
  nonempty : ∀ r ∈ requests, r.1 < r.2
  ordered : requests.Pairwise fun r r' => r.2 < r'.1
  inside : ∀ r ∈ requests, r.2 ≤ pieceSize
  exact : ∀ x, (∃ r ∈ requests, r.1 ≤ x ∧ x < r.2) ↔ MissingAt blocks x

/-! ### The runs of missing blocks -/

section

variable {blocks : List BlockInfo} {getData : ℕ → ℕ → GetData}

theorem position_map_segment (j : ℕ) :
    position (blocks.map BlockInfo.segment) j = blockStart blocks j := by
  unfold position blockStart
  rw [← List.map_take, List.map_map]
  rfl

theorem missingAt_iff {x : ℕ} :
    MissingAt blocks x ↔ ∃ j n, (blocks.map BlockInfo.segment)[j]? = some (true, n) ∧
      position (blocks.map BlockInfo.segment) j ≤ x ∧
      x < position (blocks.map BlockInfo.segment) j + n := by
  simp only [position_map_segment, List.getElem?_map]
  constructor
  · rintro ⟨j, b, hj, hmissing, hx⟩
    refine ⟨j, b.blockSize, ?_, hx⟩
    rw [hj, Option.map_some, BlockInfo.segment, decide_eq_true hmissing]
  · rintro ⟨j, n, hj, hx⟩
    obtain ⟨b, hb, hseg⟩ := Option.map_eq_some_iff.1 hj
    obtain ⟨hmissing, rfl⟩ := Prod.mk.inj hseg
    exact ⟨j, b, hb, of_decide_eq_true hmissing, hx⟩

theorem gapsExact_runs {pieceSize : ℕ} (hpos : ∀ b ∈ blocks, 0 < b.blockSize)
    (hsum : (blocks.map BlockInfo.blockSize).sum = pieceSize) :
    GapsExact pieceSize blocks (runs 0 0 false (blocks.map BlockInfo.segment)) := by
  have hseg : ∀ seg ∈ blocks.map BlockInfo.segment, 0 < seg.2 := by
    intro seg hseg
    obtain ⟨b, hb, rfl⟩ := List.mem_map.1 hseg
    exact hpos b hb
  have htotal : ((blocks.map BlockInfo.segment).map Prod.snd).sum = pieceSize := by
    rw [List.map_map, ← hsum]
    rfl
  refine ⟨fun r hr => ?_, runs_sorted hseg, fun r hr => ?_, fun x => ?_⟩
  · exact run_nonempty hseg le_rfl (fun h => by cases h) hr
  · have hend := (run_bounds le_rfl hr).2
    rwa [htotal, Nat.zero_add] at hend
  · rw [in_run_iff, missingAt_iff]

/-! ### The answers -/

/-- When all requests are answered, the loop returns true. -/
theorem remainLoop_of_answered {start stop : ℕ} {isReq : Bool}
    (h : ∀ r ∈ (remainLoop getData start stop isReq blocks).1,
      ∃ data, getData r.1 (r.2 - r.1) = .done data) :
    (remainLoop getData start stop isReq blocks).2 = some true := by
  induction blocks generalizing start stop isReq with
  | nil =>
    cases isReq with
    | false => rfl
    | true =>
      obtain ⟨data, hdata⟩ := h (start, stop) List.mem_cons_self
      simp only [remainLoop, if_true, hdata]
  | cons b bs ih =>
    rw [remainLoop] at h ⊢
    split_ifs at h ⊢ with hb hreq
    · exact ih h
    · cases hd : getData start (stop - start) with
      | done data =>
        rw [hd] at h
        exact ih fun r hr => h r (List.mem_cons_of_mem _ hr)
      | refused =>
        rw [hd] at h
        obtain ⟨data, hdata⟩ := h (start, stop) List.mem_cons_self
        rw [hd] at hdata
        cases hdata
      | failed data =>
        rw [hd] at h
        obtain ⟨data, hdata⟩ := h (start, stop) List.mem_cons_self
        rw [hd] at hdata
        cases hdata
    · exact ih h

/-- A request that is refused is the last one, and false is returned. -/
theorem refused_last {start stop : ℕ} {isReq : Bool} {r : ℕ × ℕ}
    (hr : r ∈ (remainLoop getData start stop isReq blocks).1)
    (hrefused : getData r.1 (r.2 - r.1) = .refused) :
    (remainLoop getData start stop isReq blocks).1.getLast? = some r ∧
      (remainLoop getData start stop isReq blocks).2 = some false := by
  induction blocks generalizing start stop isReq with
  | nil =>
    cases isReq with
    | false => cases hr
    | true =>
      obtain rfl := List.mem_singleton.1 hr
      simp only [remainLoop, if_true, hrefused]
      exact ⟨rfl, trivial⟩
  | cons b bs ih =>
    rw [remainLoop] at hr ⊢
    split_ifs at hr ⊢ with hb hreq
    · exact ih hr
    · cases hd : getData start (stop - start) with
      | done data =>
        rw [hd] at hr
        rcases List.mem_cons.1 hr with rfl | hr
        · rw [hd] at hrefused
          cases hrefused
        · obtain ⟨hlast, hres⟩ := ih hr
          refine ⟨?_, hres⟩
          rw [List.getLast?_cons, hlast]
          rfl
      | refused =>
        rw [hd] at hr
        obtain rfl := List.mem_singleton.1 hr
        exact ⟨rfl, rfl⟩
      | failed data =>
        rw [hd] at hr
        obtain rfl := List.mem_singleton.1 hr
        rw [hd] at hrefused
        cases hrefused
    · exact ih hr

end

/-! ### The helper -/

section

variable {T : Torrent} {c : Creation} {p : ℕ} {errCnt : ℤ}

/-- The helper has a connection and has not failed too often. -/
def Helper.Ready (H : Helper) (errCnt : ℤ) : Prop := errCnt ≤ maxErrorCounter ∧ H.connector = true

/-- A piece inside the item passes the guards of a helper that is ready. -/
theorem accepts_create_iff (hin : T.Inside p)
    (hend : (T.itemOffset + T.itemSize) / T.pieceSize + 1 < 2 ^ 31) :
    (Helper.create T c).Accepts errCnt p ↔ (Helper.create T c).Ready errCnt := by
  refine ⟨fun h => h.2, fun h => ⟨?_, h⟩⟩
  obtain ⟨hlo, hhi⟩ := hin
  have hpos := T.pieceSize_pos
  have hstart : T.itemOffset / T.pieceSize ≤ p := Nat.div_le_of_le_mul (by rwa [mul_comm])
  have hstop : p + 1 ≤ (T.itemOffset + T.itemSize) / T.pieceSize := (Nat.le_div_iff_mul_le hpos).2 hhi
  have hsucc : (p + 1) * T.pieceSize = p * T.pieceSize + T.pieceSize := Nat.succ_mul ..
  rw [Helper.hasPiece_iff, create_eq h.2]
  dsimp only
  rw [toInt_natCast (n := T.itemOffset / T.pieceSize) (by omega),
    toInt_natCast (n := (T.itemOffset + T.itemSize) / T.pieceSize) (by omega),
    toInt_of_isInt ⟨by omega, by omega⟩, ← Nat.cast_mul]
  omega

end

/-- **Gap fetching.** A helper that accepts a piece requests the missing ranges when all requests are
answered, and a request that is refused ends the loop.  Otherwise it requests nothing. -/
theorem getPieceRemain_exact {H : Helper} {errCnt pieceIdx : ℤ} {blocks : List BlockInfo}
    (hpos : ∀ b ∈ blocks, 0 < b.blockSize)
    (hsum : ((blocks.map BlockInfo.blockSize).sum : ℕ) = H.pieceSize) (incompletePiece : Option ℤ)
    (getData : ℕ → ℕ → GetData) (remain : Remain)
    (hremain : H.getPieceRemain errCnt pieceIdx ⟨some (some blocks), incompletePiece, getData⟩ =
      remain) :
    (H.Accepts errCnt pieceIdx →
      (∀ r ∈ remain.requests, ∃ data, getData r.1 (r.2 - r.1) = .done data) →
        GapsExact H.pieceSize.toNat blocks remain.requests ∧ remain.result = some true) ∧
    (¬ H.Accepts errCnt pieceIdx → remain.requests = [] ∧ remain.result = some false) ∧
    (∀ r ∈ remain.requests, getData r.1 (r.2 - r.1) = .refused →
      remain.requests.getLast? = some r ∧ remain.result = some false) := by
  have hsize : (blocks.map BlockInfo.blockSize).sum = H.pieceSize.toNat := by omega
  by_cases hacc : H.Accepts errCnt pieceIdx
  · obtain ⟨h₁, h₂⟩ := Helper.accepts_iff.1 hacc
    obtain ⟨hreq, hres⟩ := H.getPieceRemain_of_accepts hacc blocks incompletePiece getData
    rw [hremain] at hreq hres
    rw [hreq]
    refine ⟨fun _ hdone => ?_, fun h => absurd hacc h, fun r hr hrefused => ?_⟩
    · have htrue := remainLoop_of_answered hdone
      rw [remainLoop_requests (fun _ => rfl) htrue]
      exact ⟨gapsExact_runs hpos hsize, hres.2 htrue⟩
    · obtain ⟨hlast, hfalse⟩ := refused_last hr hrefused
      refine ⟨hlast, ?_⟩
      rw [← hremain]
      simp only [Helper.getPieceRemain, if_neg h₁, if_neg h₂, hfalse]
  · rw [Helper.getPieceRemain_of_not_accepts hacc] at hremain
    subst hremain
    exact ⟨fun h => absurd h hacc, fun _ => ⟨rfl, rfl⟩, fun r hr => by cases hr⟩

/-- The helper of an item that fills two pieces of eight bytes. -/
def twoPieces : Helper := { itemLength := 16, endPiece := 3, pieceSize := 8, connector := true }

/-- A piece of four blocks, of which the third one is there. -/
def fourBlocks : List BlockInfo := [⟨.none, 2⟩, ⟨.requested, 2⟩, ⟨.finished, 3⟩, ⟨.none, 1⟩]

/-- The first two blocks are requested together. -/
theorem getPieceRemain_exact_four : GapsExact 8 fourBlocks [(0, 4), (7, 8)] := by
  have h := @getPieceRemain_exact twoPieces 0 1 fourBlocks (by decide) (by decide) none
    (fun _ _ => .done []) _ rfl
  exact (h.1 (by decide) fun r _ => ⟨[], rfl⟩).1

/-- After eleven errors nothing is requested, though all of the piece is missing. -/
theorem not_gapsExact_errors :
    twoPieces.hasPiece 1 = true ∧ ¬ GapsExact 8 [⟨.none, 8⟩]
      (twoPieces.getPieceRemain 11 1
        ⟨some (some [⟨.none, 8⟩]), none, fun _ _ => .done []⟩).requests := by
  refine ⟨by decide, fun h => ?_⟩
  obtain ⟨r, hr, -⟩ := (h.exact 0).2 ⟨0, ⟨.none, 8⟩, rfl, by decide, by decide, by decide⟩
  rw [Helper.getPieceRemain_of_not_accepts (by decide)] at hr
  cases hr

end P2Player.Stream
