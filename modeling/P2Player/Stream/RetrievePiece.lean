import P2Player.Stream.Range

/-!
# The request for one piece

`MdDataHelper.retrievePiece` cuts a piece down to the part that belongs to the item and requests
this part.  It is guarded by `startPiece` and `endPiece`.

* `ItemPlace`: where an item lies in its torrent;
* `Helper.sends`: the request for a piece that the guard lets through;
* `ItemPlace.Asks`: the request is for the bytes that the piece and the item share;
* `sends_asks_iff`: when it is;
* `not_meets_iff`: the pieces that the guard should have stopped.

`endPiece` is one more than the index behind the item, and `>` lets it through.
-/

namespace P2Player.Stream

open Java Program

/-- The place of an item: `offset` and `length` are `long`s, `pieceSize` is an `int`. -/
structure ItemPlace where
  offset : ℕ
  length : ℕ
  pieceSize : ℕ
  length_pos : 0 < length
  pieceSize_pos : 0 < pieceSize
  pieceSize_lt : pieceSize < 2 ^ 31
  end_lt : offset + length < 2 ^ 63

/-- The place of an item of a torrent. -/
def Torrent.place (T : Torrent) (h : 0 < T.itemSize) : ItemPlace where
  offset := T.itemOffset
  length := T.itemSize
  pieceSize := T.pieceSize
  length_pos := h
  pieceSize_pos := T.pieceSize_pos
  pieceSize_lt := T.pieceSize_lt
  end_lt := T.item_le.trans_lt T.content_lt

/-- The request for a piece, if the check of `startPiece` and `endPiece` does not reject it. -/
def Helper.sends (H : Helper) (pieceIdx : ℤ) : Option Result :=
  if pieceIdx < H.startPiece ∨ H.endPiece < pieceIdx then none else some (H.request pieceIdx)

/-- `retrievePiece` sends it, unless there is no connection or there were too many errors. -/
theorem Helper.retrievePiece_eq (H : Helper) (t : Tick) (pieceIdx : ℤ) :
    H.retrievePiece t pieceIdx = (do
      modify fun s => { s with errCnt := s.errCnt + t.helperErrors }
      let s ← get
      match H.sends pieceIdx with
      | some request =>
        if maxErrorCounter < s.errCnt ∨ ¬ H.connector then pure .errorResult
        else receive request (t.getData pieceIdx request.offset request.length)
      | none => pure .errorResult) := by
  unfold retrievePiece sends
  congr 1
  funext _
  congr 1
  funext s
  by_cases h : pieceIdx < H.startPiece ∨ H.endPiece < pieceIdx
  · rw [if_pos h, if_pos (by tauto)]
  · rw [if_neg h]
    refine if_congr ?_ rfl rfl
    tauto

namespace ItemPlace

variable (I : ItemPlace) (p : ℕ)

/-- The helper that the constructor of `MdDataHelper` makes for the item. -/
def helper : Helper where
  itemOffset := I.offset
  itemLength := I.length
  startPiece := toInt (I.offset / I.pieceSize : ℕ)
  endPiece := toInt (toInt ((I.offset + I.length) / I.pieceSize : ℕ) + 1)
  pieceSize := I.pieceSize
  connector := true

theorem helper_place {T : Torrent} {c : Creation} (h : 0 < T.itemSize)
    (hc : (Helper.create T c).connector = true) : Helper.create T c = (T.place h).helper :=
  create_eq hc

/-- The piece has the byte `x` of the torrent. -/
def InPiece (x : ℤ) : Prop := p * I.pieceSize ≤ x ∧ x < (p + 1) * I.pieceSize

/-- The item has the byte `x` of the torrent. -/
def InItem (x : ℤ) : Prop := I.offset ≤ x ∧ x < I.offset + I.length

/-- The request is for a part of the piece, and this is the part that belongs to the item. -/
structure Asks (r : Result) : Prop where
  offset_nonneg : 0 ≤ r.offset
  length_pos : 0 < r.length
  end_le : r.offset + r.length ≤ I.pieceSize
  bytes : ∀ x : ℤ, p * I.pieceSize + r.offset ≤ x ∧ x < p * I.pieceSize + r.offset + r.length ↔
    I.InPiece p x ∧ I.InItem x
  complete : r.state = .complete ↔ ∀ x, I.InPiece p x → I.InItem x

/-- The piece begins before the end of the item and ends behind its beginning. -/
def Meets : Prop := p * I.pieceSize < I.offset + I.length ∧ I.offset < (p + 1) * I.pieceSize

instance : Decidable (I.Meets p) := inferInstanceAs (Decidable (_ ∧ _))

/-! ### The request -/

variable {I p}

theorem succ_mul_pieceSize : (p + 1) * I.pieceSize = p * I.pieceSize + I.pieceSize :=
  Nat.succ_mul ..

theorem request_offset_eq (h : I.Meets p) :
    (I.helper.request p).offset = (I.offset - p * I.pieceSize : ℕ) := by
  have hsize := I.pieceSize_lt
  have hsucc := @succ_mul_pieceSize I p
  have hmeets := h.2
  simp only [Helper.request, helper, ← Nat.cast_mul]
  split_ifs with hneg
  · rw [toInt_of_isInt ⟨by omega, by omega⟩]
    omega
  · omega

theorem request_length_eq (h : I.Meets p) :
    (I.helper.request p).length =
      (min ((p + 1) * I.pieceSize) (I.offset + I.length) - max (p * I.pieceSize) I.offset : ℕ) := by
  have hsize := I.pieceSize_lt
  have hsucc := @succ_mul_pieceSize I p
  obtain ⟨hbegin, hend⟩ := h
  simp only [Helper.request, helper, ← Nat.cast_mul]
  rw [toInt_of_isInt ⟨by omega, by omega⟩]
  omega

theorem request_state_eq :
    (I.helper.request p).state = .complete ↔
      I.offset ≤ p * I.pieceSize ∧ (p + 1) * I.pieceSize ≤ I.offset + I.length := by
  have hsucc := @succ_mul_pieceSize I p
  simp only [Helper.request, helper, ← Nat.cast_mul]
  split_ifs with h
  · exact iff_of_false (fun h => by cases h) (by omega)
  · exact iff_of_true rfl (by omega)

theorem inPiece_iff {x : ℤ} :
    I.InPiece p x ↔ (p * I.pieceSize : ℕ) ≤ x ∧ x < ((p + 1) * I.pieceSize : ℕ) := by
  unfold InPiece
  push_cast
  rfl

/-- The item has all of a piece when it has the first byte and the last one. -/
theorem piece_subset_item_iff :
    (∀ x, I.InPiece p x → I.InItem x) ↔
      I.offset ≤ p * I.pieceSize ∧ (p + 1) * I.pieceSize ≤ I.offset + I.length := by
  have hpos := I.pieceSize_pos
  have hsucc := @succ_mul_pieceSize I p
  refine ⟨fun h => ?_, fun h x hx => ?_⟩
  · have hfirst := h (p * I.pieceSize : ℕ) (inPiece_iff.2 (by omega))
    have hlast := h ((p + 1) * I.pieceSize - 1 : ℕ) (inPiece_iff.2 (by omega))
    unfold InItem at hfirst hlast
    omega
  · have hx := inPiece_iff.1 hx
    unfold InItem
    omega

theorem asks_of_meets (h : I.Meets p) : I.Asks p (I.helper.request p) := by
  have hsucc := @succ_mul_pieceSize I p
  have hoffset := request_offset_eq h
  have hlength := request_length_eq h
  have hpos := I.length_pos
  have hsize := I.pieceSize_pos
  obtain ⟨hbegin, hend⟩ := h
  refine ⟨by omega, by omega, by omega, fun x => ?_, ?_⟩
  · rw [inPiece_iff, hoffset, hlength, InItem, ← Nat.cast_mul]
    omega
  · rw [request_state_eq, piece_subset_item_iff]

/-- A request for a byte of the item needs one in the piece. -/
theorem meets_of_asks {r : Result} (h : I.Asks p r) : I.Meets p := by
  have hoffset := h.offset_nonneg
  have hlength := h.length_pos
  obtain ⟨hpiece, hitem⟩ := (h.bytes (p * I.pieceSize + r.offset)).1 ⟨le_rfl, by omega⟩
  have hpiece := inPiece_iff.1 hpiece
  unfold InItem at hitem
  unfold Meets
  omega

/-- **One piece.** The request for a piece is for the bytes that the piece and the item share, with
the right state, exactly when there are such bytes. -/
theorem sends_asks_iff {r : Result} (hr : I.helper.sends p = some r) : I.Asks p r ↔ I.Meets p := by
  refine ⟨meets_of_asks, fun h => ?_⟩
  unfold Helper.sends at hr
  split_ifs at hr with hguard
  obtain rfl := Option.some.inj hr
  exact asks_of_meets h

/-- Where no index wraps, the guard lets through one piece behind the item, and another one when the
item ends with a piece. -/
theorem not_meets_iff {r : Result} (hr : I.helper.sends p = some r)
    (hfits : (I.offset + I.length) / I.pieceSize + 1 < 2 ^ 31) :
    ¬ I.Meets p ↔ p = (I.offset + I.length) / I.pieceSize + 1 ∨
      p = (I.offset + I.length) / I.pieceSize ∧ I.pieceSize ∣ I.offset + I.length := by
  have hpos := I.pieceSize_pos
  have hdiv : I.offset / I.pieceSize ≤ (I.offset + I.length) / I.pieceSize :=
    Nat.div_le_div_right (by omega)
  have hmod := Nat.div_add_mod' (I.offset + I.length) I.pieceSize
  unfold Helper.sends helper at hr
  split_ifs at hr with hguard
  dsimp only at hguard
  rw [Nat.dvd_iff_mod_eq_zero]
  generalize hq : (I.offset + I.length) / I.pieceSize = q at *
  generalize hs : I.offset / I.pieceSize = start at *
  rw [toInt_natCast (n := start) (by omega), toInt_natCast (n := q) (by omega),
    toInt_of_isInt ⟨by omega, by omega⟩] at hguard
  have hlo : I.offset < (p + 1) * I.pieceSize :=
    (Nat.div_lt_iff_lt_mul hpos).1 (by omega)
  have hbehind : ¬ I.Meets p ↔ I.offset + I.length ≤ p * I.pieceSize := by
    unfold Meets
    omega
  rw [hbehind]
  constructor
  · intro hle
    have hle' : q ≤ p := by
      rw [← hq]
      exact Nat.div_le_of_le_mul (by rwa [mul_comm])
    rcases Nat.lt_or_ge q p with hlt | hge
    · exact Or.inl (by omega)
    · obtain rfl : p = q := le_antisymm hge hle'
      exact Or.inr ⟨rfl, by omega⟩
  · rintro (rfl | ⟨rfl, hzero⟩)
    · have hlt := Nat.mod_lt (I.offset + I.length) hpos
      have hsucc : (q + 1) * I.pieceSize = q * I.pieceSize + I.pieceSize := Nat.succ_mul ..
      omega
    · omega

/-- The item of three pieces. -/
def threePlace : ItemPlace := threePieces.place (by decide)

/-- Of the first piece the last two bytes are requested. -/
theorem sends_asks_first :
    threePlace.helper.sends (0 : ℕ) = some (threePlace.helper.request (0 : ℕ)) ∧
      threePlace.Asks 0 (threePlace.helper.request (0 : ℕ)) := by
  have hsends : threePlace.helper.sends (0 : ℕ) = some (threePlace.helper.request (0 : ℕ)) :=
    if_neg (by decide)
  exact ⟨hsends, (sends_asks_iff hsends).2 (by decide)⟩

/-- For a fourth piece minus one byte is requested. -/
theorem not_asks_fourth :
    ∃ r, threePlace.helper.sends (3 : ℕ) = some r ∧ r.length = -1 ∧ ¬ threePlace.Asks 3 r := by
  have hlength : (threePlace.helper.request (3 : ℕ)).length = -1 := by decide
  refine ⟨threePlace.helper.request (3 : ℕ), if_neg (by decide), hlength, fun h => ?_⟩
  have hpos := h.length_pos
  rw [hlength] at hpos
  exact absurd hpos (by decide)

end ItemPlace

end P2Player.Stream
