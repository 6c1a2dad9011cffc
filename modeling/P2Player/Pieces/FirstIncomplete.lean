import P2Player.Pieces.PiecesState

/-!
# The first incomplete piece

`getFirstPieceIncomplete` scans the bitfield from a piece on.  A `TorrentInfo` remembers the last
interval `[pieceTransferIdx, firstPieceIncompleteIdx)` that it has seen complete, so that a scan
that starts in it goes on from its end.

* `scan`: the loop of the native function;
* `FirstMissing`: the least missing piece from a piece on, or the number of pieces;
* `nativeGetFirstPieceIncomplete`: the body of the JNI function for a torrent found in `gTorrents`;
* `answers_eq_scan`: any sequence of calls gets the answers of scans without the memory.
-/

namespace P2Player

/-- `for (; i < n && s.pieces.get_bit(i); ++i)`, with `left` pieces left. -/
def scanFrom (b : Bitfield) : ℕ → ℕ → ℕ
  | 0, i => i
  | left + 1, i => if b.getBit i then scanFrom b left (i + 1) else i

/-- The loop from `i` on. -/
def scan (b : Bitfield) (i : ℕ) : ℕ := scanFrom b (b.size - i) i

/-- `i` is the least missing piece from `p` on, or the number of pieces. -/
structure FirstMissing (b : Bitfield) (p i : ℕ) : Prop where
  ge : p ≤ i
  le : i ≤ b.size
  complete : ∀ j, p ≤ j → j < i → b.getBit j = true
  missing : i < b.size → b.getBit i = false

theorem FirstMissing.unique {b : Bitfield} {p i i' : ℕ} (h : FirstMissing b p i)
    (h' : FirstMissing b p i') : i = i' := by
  rcases Nat.lt_trichotomy i i' with hlt | heq | hlt
  · have hmiss := h.missing (lt_of_lt_of_le hlt h'.le)
    rw [h'.complete i h.ge hlt] at hmiss
    cases hmiss
  · exact heq
  · have hmiss := h'.missing (lt_of_lt_of_le hlt h.le)
    rw [h.complete i' h'.ge hlt] at hmiss
    cases hmiss

/-- A missing piece may be looked for behind complete ones. -/
theorem FirstMissing.extend {b : Bitfield} {p q i : ℕ} (h : FirstMissing b q i) (hpq : p ≤ q)
    (hcomplete : ∀ j, p ≤ j → j < q → b.getBit j = true) : FirstMissing b p i where
  ge := hpq.trans h.ge
  le := h.le
  complete j hj hji := by
    rcases Nat.lt_or_ge j q with hlt | hge
    · exact hcomplete j hj hlt
    · exact h.complete j hge hji
  missing := h.missing

theorem scanFrom_spec (b : Bitfield) (left i : ℕ) (h : i + left = b.size) :
    FirstMissing b i (scanFrom b left i) := by
  induction left generalizing i with
  | zero =>
    exact ⟨le_rfl, h.le, fun j hj hji => absurd hj (Nat.not_le.2 hji),
      fun hlt => absurd hlt (Nat.not_lt.2 h.ge)⟩
  | succ left ih =>
    unfold scanFrom
    split_ifs with hbit
    · refine (ih (i + 1) (by omega)).extend (Nat.le_succ i) fun j hj hji => ?_
      obtain rfl : j = i := by omega
      exact hbit
    · exact ⟨le_rfl, by omega, fun j hj hji => absurd hj (Nat.not_le.2 hji),
        fun _ => Bool.eq_false_of_not_eq_true hbit⟩

theorem scan_spec {b : Bitfield} {p : ℕ} (h : p ≤ b.size) : FirstMissing b p (scan b p) :=
  scanFrom_spec b _ p (Nat.add_sub_cancel' h)

theorem scan_of_ge {b : Bitfield} {p : ℕ} (h : b.size ≤ p) : scan b p = p := by
  rw [scan, Nat.sub_eq_zero_of_le h]; rfl

/-! ### The native function -/

/-- What a `TorrentInfo` remembers of the last scan. -/
structure Transfer where
  pieceTransferIdx : ℕ := 0
  firstPieceIncompleteIdx : ℕ := 0

/-- The part under `cont_piece_mutex`: the answer for a bitfield, and the new memory. -/
def Transfer.lookup (c : Transfer) (b : Bitfield) (pieceIdx : ℕ) : ℕ × Transfer :=
  let inside := c.pieceTransferIdx ≤ pieceIdx ∧ pieceIdx ≤ c.firstPieceIncompleteIdx
  let i := scan b (if inside then c.firstPieceIncompleteIdx else pieceIdx)
  -- only a scan that has found complete pieces is worth remembering
  if pieceIdx < i then
    if ¬ inside then (i, ⟨pieceIdx, i⟩)
    else if c.firstPieceIncompleteIdx < i then (i, { c with firstPieceIncompleteIdx := i })
    else (i, c)
  else (i, c)

/-- `Java_com_solt_libtorrent_LibTorrent_getFirstPieceIncomplete` on a tracked torrent whose
metadata lists `numPieces` pieces. -/
def nativeGetFirstPieceIncomplete (numPieces : ℕ) (s : TorrentStatus) (c : Transfer)
    (pieceIdx : ℕ) : ℤ × Transfer :=
  if s.state ≠ seeding ∧ s.hasMetadata then
    if s.pieces.size ≠ 0 then
      let r := c.lookup s.pieces pieceIdx
      (r.1, r.2)
    else (-1, c)
  else if s.state = seeding ∧ s.hasMetadata then (numPieces, c)
  else (-1, c)

/-- The answers to a sequence of calls, each with the torrent's status at that time. -/
def answers (numPieces : ℕ) (c : Transfer) : List (TorrentStatus × ℕ) → List ℤ
  | [] => []
  | (s, pieceIdx) :: calls =>
    let r := nativeGetFirstPieceIncomplete numPieces s c pieceIdx
    r.1 :: answers numPieces r.2 calls

/-! ### The memory does not change the answers -/

/-- The remembered interval is complete. -/
structure Transfer.Complete (c : Transfer) (b : Bitfield) : Prop where
  le : c.firstPieceIncompleteIdx ≤ b.size
  complete : ∀ j, c.pieceTransferIdx ≤ j → j < c.firstPieceIncompleteIdx → b.getBit j = true

/-- **Step lemma.** With a complete interval remembered the answer is that of a plain scan, and the
interval remembered next is complete again. -/
theorem Transfer.Complete.lookup {c : Transfer} {b : Bitfield} (hc : c.Complete b) (p : ℕ) :
    (c.lookup b p).1 = scan b p ∧ (c.lookup b p).2.Complete b := by
  unfold Transfer.lookup
  dsimp only
  by_cases hin : c.pieceTransferIdx ≤ p ∧ p ≤ c.firstPieceIncompleteIdx
  · have hend := scan_spec hc.le
    have hfirst : FirstMissing b p (scan b c.firstPieceIncompleteIdx) :=
      hend.extend hin.2 fun j hj hjc => hc.complete j (hin.1.trans hj) hjc
    -- what lies between `p` and the end of the interval is complete
    have heq : scan b c.firstPieceIncompleteIdx = scan b p :=
      hfirst.unique (scan_spec (hin.2.trans hc.le))
    rw [if_pos hin, if_neg (not_not.2 hin)]
    split_ifs with hp hext
    · refine ⟨heq, hend.le, fun j hj hji => ?_⟩
      rcases Nat.lt_or_ge j c.firstPieceIncompleteIdx with hlt | hge
      · exact hc.complete j hj hlt
      · exact hend.complete j hge hji
    · exact ⟨heq, hc⟩
    · exact ⟨heq, hc⟩
  · rw [if_neg hin, if_pos hin]
    split_ifs with hp
    · have hp' : p ≤ b.size := by
        by_contra hgt
        rw [scan_of_ge (by omega)] at hp
        exact lt_irrefl _ hp
      exact ⟨rfl, (scan_spec hp').le, (scan_spec hp').complete⟩
    · exact ⟨rfl, hc⟩

theorem Transfer.Complete.mono {c : Transfer} {b b' : Bitfield} (hc : c.Complete b)
    (hsize : b'.size = b.size) (hgrow : ∀ i, b.getBit i = true → b'.getBit i = true) :
    c.Complete b' :=
  ⟨hsize ▸ hc.le, fun j hj hjc => hgrow j (hc.complete j hj hjc)⟩

/-- A new `TorrentInfo` remembers the empty interval. -/
theorem complete_init (b : Bitfield) : Transfer.Complete {} b :=
  ⟨Nat.zero_le _, fun _ _ h => absurd h (Nat.not_lt_zero _)⟩

theorem nativeGetFirstPieceIncomplete_eq {numPieces : ℕ} {s : TorrentStatus}
    (hstate : s.state ≠ seeding) (hsize : s.pieces.size ≠ 0) (c : Transfer) (p : ℕ) :
    nativeGetFirstPieceIncomplete numPieces s c p =
      (((c.lookup s.pieces p).1 : ℤ), (c.lookup s.pieces p).2) := by
  rw [nativeGetFirstPieceIncomplete, if_pos ⟨hstate, s.metadata_of_pieces hsize⟩, if_pos hsize]

/-- **A cached scan is a plain scan.** While pieces are only ever added to a bitfield of `n` pieces,
any sequence of calls gets the least missing piece from the piece asked for on, or `n`. -/
theorem answers_eq_scan {n numPieces : ℕ} (hn : n ≠ 0) {calls : List (TorrentStatus × ℕ)}
    (hstatus : ∀ x ∈ calls, x.1.state ≠ seeding ∧ x.1.pieces.size = n)
    (hgrow : calls.Pairwise fun x y =>
      ∀ i, x.1.pieces.getBit i = true → y.1.pieces.getBit i = true) :
    answers numPieces {} calls = calls.map (fun x => (scan x.1.pieces x.2 : ℤ)) ∧
      ∀ x ∈ calls, x.2 ≤ n → FirstMissing x.1.pieces x.2 (scan x.1.pieces x.2) := by
  have hscan : ∀ c : Transfer, (∀ x ∈ calls, c.Complete x.1.pieces) →
      answers numPieces c calls = calls.map fun x => (scan x.1.pieces x.2 : ℤ) := by
    induction calls with
    | nil => exact fun _ _ => rfl
    | cons x calls ih =>
      intro c hc
      obtain ⟨hx, hgrow⟩ := List.pairwise_cons.1 hgrow
      obtain ⟨hstate, hsize⟩ := hstatus x List.mem_cons_self
      obtain ⟨heq, hcomplete⟩ := (hc x List.mem_cons_self).lookup x.2
      -- what is complete now is complete at all later calls
      have hnext : ∀ y ∈ calls, (c.lookup x.1.pieces x.2).2.Complete y.1.pieces := fun y hy =>
        hcomplete.mono ((hstatus y (List.mem_cons_of_mem _ hy)).2.trans hsize.symm) (hx y hy)
      have hcalls := ih (fun y hy => hstatus y (List.mem_cons_of_mem _ hy)) hgrow _ hnext
      rw [answers, nativeGetFirstPieceIncomplete_eq hstate (hsize ▸ hn), heq, hcalls, List.map_cons]
  refine ⟨hscan {} fun x _ => complete_init _, fun x hx hle => scan_spec ?_⟩
  rw [(hstatus x hx).2]
  exact hle

/-- The torrent when it has three pieces more. -/
def fifteenComplete : TorrentStatus where
  state := 3
  hasMetadata := true
  pieces :=
    { bytes := [0xff, 0xfe]
      size := 16
      length_bytes := rfl
      size_lt := sixteenPieces.pieces.size_lt
      trailing := fun p b hp hb => by
        rw [List.getElem?_eq_none (show 2 ≤ p / 8 from Nat.div_le_div_right (c := 8) hp)] at hb
        cases hb }
  metadata_of_pieces := fun _ => rfl

theorem getBit_fifteenComplete {i : ℕ} (h : sixteenPieces.pieces.getBit i = true) :
    fifteenComplete.pieces.getBit i = true := by
  have hall : ∀ i < 16, sixteenPieces.pieces.getBit i = true →
      fifteenComplete.pieces.getBit i = true := by decide
  have hlt : i < 16 := by
    by_contra hge
    rw [Bitfield.getBit, List.getElem?_eq_none (show 2 ≤ i / 8 by omega)] at h
    cases h
  exact hall i hlt h

/-- Two streams at pieces 2 and 5 of a torrent that misses its last four pieces, and at pieces 2 and
13 when it misses the last one only. -/
theorem answers_eq_scan_two_streams :
    answers 16 {} [(sixteenPieces, 2), (sixteenPieces, 5), (fifteenComplete, 2),
      (fifteenComplete, 13)] = [12, 12, 15, 15] := by
  refine (answers_eq_scan (by decide : 16 ≠ 0) (by decide) ?_).1
  have hgrow : ∀ i, sixteenPieces.pieces.getBit i = true →
      fifteenComplete.pieces.getBit i = true := fun i => getBit_fifteenComplete
  simpa using hgrow

end P2Player
