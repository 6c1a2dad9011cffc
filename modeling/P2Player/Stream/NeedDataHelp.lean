import P2Player.Pieces.Counts
import P2Player.Stream.ReadComplete

/-!
# The piece that the helper is asked for

When the piece behind the one that is sent is missing, `needDataHelp` looks for another missing piece
of the window: the first one for a slow torrent, else the last one that is not helped yet.

* `endChoice`, `valueOf_needLast`, `valueOf_needDataHelp`: the value that is returned;
* `HelpCall`: a call as `stream` makes it;
* `HelpsRight`: the call returns -1 or a missing piece of the torrent;
* `helpsRight_iff`: the calls that do.

The last missing piece of the window is clamped to the last piece of the torrent, which may be done,
or the first one of the window.
-/

namespace P2Player.Stream.HyperStreamer

open Java Program PiecesState

/-! ### The value that is returned -/

section

variable (R : Request) (t : Tick)

/-- What `helped` returns. -/
def helpedAt (bits : ℤ → Bool) (n : ℤ) : Option Bool :=
  if 0 ≤ n ∧ n / 32 < (R.torrent.pieceNum + 31) / 32 then some (bits n) else none

theorem helped_eq (bits : ℤ → Bool) (n : ℤ) : helped R bits n = ask (helpedAt R bits n) := by
  unfold helped helpedAt
  split_ifs <;> rfl

/-- What `needLast` makes of the last missing piece. -/
def endChoice (ps : PiecesState) (streamPiece last : ℤ) : Option ℤ :=
  (if last = -1 then some false else helpedAt R t.helpedLater last).bind fun b =>
    (if b then ps.getLastIncompleteAt (last - 1) else some last).bind fun last =>
      if streamPiece < last then
        (helpedAt R t.helpedLater last).bind fun b => some (if b then -1 else last)
      else some (-1)

theorem valueOf_needLast (s : State) :
    valueOf (needLast R t) s = s.pState.getNumDone.bind fun r =>
      if fewDone r.1 r.2.len then
        r.2.getLastIncomplete.bind fun last =>
          endChoice R t r.2 s.streamPiece (min last (R.torrent.pieceNum - 1))
      else some (-1) := by
  unfold needLast getNumDone endChoice
  simp only [bind_assoc, pure_bind, valueOf_get_bind, valueOf_ask_bind, valueOf_modify_bind,
    valueOf_ite, helped_eq, valueOf_pure, pure_ite_ask, ask_ite_pure]

theorem valueOf_needDataHelp (s : State) (fromPiece speed : ℤ) :
    valueOf (needDataHelp R t fromPiece speed) s =
      if 300 * 1024 < speed then some (-1)
      else if speed < 120 * 1024 then
        (s.pState.getFirstIncomplete fromPiece).bind fun incomplete =>
          if incomplete = -1 ∨ R.torrent.pieceNum ≤ incomplete then some (-1)
          else if incomplete = fromPiece ∨ speed < 60 * 1024 then some incomplete
          else valueOf (needLast R t) s
      else valueOf (needLast R t) s := by
  unfold needDataHelp
  simp only [valueOf_get_bind, valueOf_ask_bind, valueOf_ite, valueOf_pure]

end

/-! ### The calls of `needDataHelp` -/

/-- A call in which the piece `idx` behind the one that is sent is missing: the window of `state` begins
with it, and beyond the torrent nothing is done. -/
structure HelpCall (R : Request) where
  state : State
  idx : ℕ
  len : ℕ
  array : List UInt8
  window : state.pState.Window idx len array
  len_ge : 5 ≤ len
  idx_lt : idx < R.torrent.pieceNum
  streamPiece_eq : state.streamPiece + 1 = idx
  beyond : ∀ p : ℕ, R.torrent.pieceNum ≤ p → p < idx + len → state.pState.isDone p = some false

/-- One half is not few: it is too far above `0.3f` for the rounding to matter. -/
theorem fewDone_of_half {n l : ℤ} (hl : 0 < l) (h : l ≤ 2 * n) : fewDone n l = false := by
  have hhalf : (l : ℚ) ≤ 2 * n := by exact_mod_cast h
  have hl' : (0 : ℚ) < l := by exact_mod_cast hl
  exact quotientBelow_eq_false hl (by omega) (by norm_num) (by linarith)

namespace HelpCall

variable {R : Request} (c : HelpCall R) (t : Tick) (speed : ℤ)

/-- `needDataHelp(incompleteIdx + 1, state, speed)`. -/
def result : Option ℤ := valueOf (needDataHelp R t (toInt (c.idx + 1)) speed) c.state

/-- The first missing piece `r` behind `idx` is chosen. -/
def TakesFirst (r : ℤ) : Prop :=
  speed < 120 * 1024 ∧ c.state.pState.getFirstIncomplete (c.idx + 1) = some r ∧ r ≠ -1 ∧
    r < R.torrent.pieceNum ∧ (r = c.idx + 1 ∨ speed < 60 * 1024)

/-- The result is a missing piece of the torrent; unless it is the first one, it is not helped. -/
structure Useful (r : ℤ) : Prop where
  ge : c.idx ≤ r
  lt : r < R.torrent.pieceNum
  missing : c.state.pState.isDone r = some false
  fresh : ¬ c.TakesFirst speed r → t.helpedLater r = false

/-- No exception, and -1 or a useful piece. -/
def HelpsRight : Prop := ∃ r, c.result t speed = some r ∧ (r = -1 ∨ c.Useful t speed r)

/-- A piece is looked for from the end of the window: the speed is between 120 and 300 KB/s, or from
60 KB/s on, with a first missing piece in the torrent that is not the next one. -/
def ReachesLast : Prop :=
  speed ≤ 300 * 1024 ∧ (speed < 120 * 1024 → 60 * 1024 ≤ speed ∧
    ∃ r, c.state.pState.getFirstIncomplete (c.idx + 1) = some r ∧ r ≠ -1 ∧ r < R.torrent.pieceNum ∧
      r ≠ c.idx + 1)

/-- The window has few done pieces, and it overhangs a last piece of the torrent that is done and not
helped, or that is the first missing piece and helped. -/
structure ClampsWrong : Prop where
  reaches : c.ReachesLast speed
  few : ∃ numDone ps, c.state.pState.getNumDone = some (numDone, ps) ∧ fewDone numDone c.len = true
  overhang : R.torrent.pieceNum < c.idx + c.len
  last : c.idx + 1 = R.torrent.pieceNum ∧ t.helpedLater (R.torrent.pieceNum - 1) = true ∨
    c.state.pState.isDone (R.torrent.pieceNum - 1) = some true ∧
      t.helpedLater (R.torrent.pieceNum - 1) = false

/-! ### The search from the end -/

/-- The bit of a piece of the window. -/
def bit (p : ℕ) : Bool := shows c.idx c.array p

theorem isDone_eq {p : ℕ} (hp : c.idx ≤ p) (hlt : p < c.idx + c.len) :
    c.state.pState.isDone p = some (c.bit p) := c.window.isDone_eq hp hlt

theorem bit_beyond {p : ℕ} (hp : R.torrent.pieceNum ≤ p) (hlt : p < c.idx + c.len) :
    c.bit p = false := by
  have hidx := c.idx_lt
  have h := c.beyond p hp hlt
  rw [c.isDone_eq (by omega) hlt] at h
  exact Option.some.inj h

theorem helpedAt_eq {k : ℕ} (hk : k < R.torrent.pieceNum) :
    helpedAt R t.helpedLater k = some (t.helpedLater k) :=
  if_pos ⟨Int.natCast_nonneg k, by omega⟩

/-- A missing piece of the torrent in the window. -/
structure Fresh (r : ℤ) : Prop where
  ge : c.idx ≤ r
  lt : r < R.torrent.pieceNum
  missing : c.state.pState.isDone r = some false
  fresh : t.helpedLater r = false

/-- The end of the choice, for the piece `k` or, when it is helped, for the last missing piece before
it. -/
theorem endChoice_natCast {k : ℕ} (hk : c.idx ≤ k) (hlt : k < c.idx + c.len)
    (hnum : k < R.torrent.pieceNum) :
    (t.helpedLater k = false → endChoice R t c.state.pState c.state.streamPiece k = some (k : ℤ)) ∧
      (t.helpedLater k = true → k = c.idx →
        endChoice R t c.state.pState c.state.streamPiece k = none) ∧
      (t.helpedLater k = true → k ≠ c.idx →
        ∃ r, endChoice R t c.state.pState c.state.streamPiece k = some r ∧
          (r = -1 ∨ c.Fresh t r)) := by
  have hpiece := c.streamPiece_eq
  have hne : (k : ℤ) ≠ -1 := by omega
  unfold endChoice
  rw [if_neg hne, helpedAt_eq t hnum, Option.bind_some]
  refine ⟨fun hfresh => ?_, fun hhelped hfirst => ?_, fun hhelped hfirst => ?_⟩
  · rw [hfresh]
    simp only [Bool.false_eq_true, if_false, Option.bind_some]
    rw [if_pos (by omega), helpedAt_eq t hnum, Option.bind_some, hfresh]
    rfl
  · rw [hhelped, if_pos rfl, c.window.getLastIncompleteAt_before (by omega)]
    rfl
  · obtain ⟨r, hr, hlast⟩ := c.window.getLastIncompleteAt_spec (i := k) (by omega) hlt.le
    rw [hhelped, if_pos rfl, hr, Option.bind_some]
    rcases hlast with ⟨rfl, -⟩ | ⟨j, rfl, hj, hjk, hmiss, -⟩
    · rw [if_neg (by omega)]
      exact ⟨-1, rfl, Or.inl rfl⟩
    · rw [if_pos (by omega), helpedAt_eq t (by omega), Option.bind_some]
      cases hj' : t.helpedLater j with
      | true => exact ⟨-1, rfl, Or.inl rfl⟩
      | false =>
        refine ⟨j, rfl, Or.inr ⟨by omega, by omega, ?_, hj'⟩⟩
        rw [c.isDone_eq hj (by omega)]
        exact congrArg some hmiss

/-- What `needLast` returns, with the number of done pieces, which counts at least those of the
window. -/
theorem valueOf_needLast_eq : ∃ (numDone : ℤ) (ps : PiecesState),
    c.state.pState.getNumDone = some (numDone, ps) ∧
      ((∀ p, c.idx < p → p < c.idx + c.len → c.bit p = true) → c.len - 1 ≤ numDone) ∧
      valueOf (needLast R t) c.state =
        if fewDone numDone c.len then
          c.state.pState.getLastIncomplete.bind fun last =>
            endChoice R t c.state.pState c.state.streamPiece (min last (R.torrent.pieceNum - 1))
        else some (-1) := by
  have hlen := c.len_ge
  have hagree := c.window.agree_masked
  refine ⟨_, _, c.window.getNumDone_eq, fun hall => ?_, ?_⟩
  · have hsplit := countIn_add (shows c.idx c.array) (show c.idx ≤ c.idx + 1 by omega)
      (show c.idx + 1 ≤ 8 * ((c.idx + c.len + 7) / 8) by omega)
    have hsplit' := countIn_add (shows c.idx c.array) (show c.idx + 1 ≤ c.idx + c.len by omega)
      (show c.idx + c.len ≤ 8 * ((c.idx + c.len + 7) / 8) by omega)
    have hmiddle : countIn (shows c.idx c.array) (c.idx + 1) (c.idx + c.len) = c.len - 1 := by
      have hshows : ∀ p, c.idx + 1 ≤ p → p < c.idx + c.len → shows c.idx c.array p = true :=
        fun p h1 h2 => hall p h1 h2
      rw [countIn_of_all hshows]
      omega
    omega
  · rw [valueOf_needLast, c.window.getNumDone_eq, Option.bind_some]
    have hsame : ∀ last, endChoice R t
        { c.state.pState with states := some (maskFirst c.state.pState.mark c.array) }
        c.state.streamPiece last = endChoice R t c.state.pState c.state.streamPiece last := by
      intro last
      simp only [endChoice, hagree.lastAt]
    have hlen' : ({ c.state.pState with
        states := some (maskFirst c.state.pState.mark c.array) } : PiecesState).len = c.len :=
      c.window.len_eq
    simp only [hagree.last, hsame]
    rw [hlen']

/-- In a window that overhangs the torrent the choice begins with the torrent's last piece. -/
theorem min_last_of_overhang (hover : R.torrent.pieceNum < c.idx + c.len) {last : ℤ}
    (hlast : LastUndone (shows c.idx c.array) c.idx (c.idx + c.len) last) :
    min last (R.torrent.pieceNum - 1) = ((R.torrent.pieceNum - 1 : ℕ) : ℤ) := by
  have hidx := c.idx_lt
  -- the last piece of the window is missing
  have hbit : shows c.idx c.array (c.idx + c.len - 1) = false :=
    c.bit_beyond (by omega) (by omega)
  have hnotall : ¬ shows c.idx c.array (c.idx + c.len - 1) = true := by
    rw [hbit]
    exact Bool.false_ne_true
  rcases hlast with ⟨-, hall⟩ | ⟨k, rfl, hk, hlt, -, hall⟩
  · exact absurd (hall (c.idx + c.len - 1) (by omega) (by omega)) hnotall
  · by_cases hend : k = c.idx + c.len - 1
    · omega
    · exact absurd (hall (c.idx + c.len - 1) (by omega) (by omega)) hnotall

/-- The choice that begins with the last piece of the torrent. -/
theorem endChoice_last_iff (hover : R.torrent.pieceNum < c.idx + c.len) :
    (∃ r, endChoice R t c.state.pState c.state.streamPiece ((R.torrent.pieceNum - 1 : ℕ) : ℤ) =
        some r ∧ (r = -1 ∨ c.Fresh t r)) ↔
      ¬ (c.idx + 1 = R.torrent.pieceNum ∧
          t.helpedLater ((R.torrent.pieceNum - 1 : ℕ) : ℤ) = true ∨
        c.state.pState.isDone ((R.torrent.pieceNum - 1 : ℕ) : ℤ) = some true ∧
          t.helpedLater ((R.torrent.pieceNum - 1 : ℕ) : ℤ) = false) := by
  have hidx := c.idx_lt
  obtain ⟨hfresh, hfirst, hback⟩ := c.endChoice_natCast t (k := R.torrent.pieceNum - 1) (by omega)
    (by omega) (by omega)
  cases hhelped : t.helpedLater ((R.torrent.pieceNum - 1 : ℕ) : ℤ) with
  | true =>
    by_cases hI : R.torrent.pieceNum - 1 = c.idx
    · rw [hfirst hhelped hI]
      refine iff_of_false (fun ⟨r, hr, _⟩ => by cases hr) fun h => h (Or.inl ⟨by omega, rfl⟩)
    · refine iff_of_true (hback hhelped hI) ?_
      rintro (⟨h, -⟩ | ⟨-, h⟩)
      · omega
      · cases h
  | false =>
    rw [hfresh hhelped, c.isDone_eq (by omega) (by omega)]
    cases hbit : c.bit (R.torrent.pieceNum - 1) with
    | true =>
      refine iff_of_false (fun ⟨r, hr, h⟩ => ?_) fun h => h (Or.inr ⟨rfl, rfl⟩)
      obtain rfl := Option.some.inj hr
      rcases h with h | h
      · omega
      · have hmiss := h.missing
        rw [c.isDone_eq (by omega) (by omega), hbit] at hmiss
        cases hmiss
    | false =>
      refine iff_of_true ⟨_, rfl, Or.inr ⟨by omega, by omega, ?_, hhelped⟩⟩ ?_
      · rw [c.isDone_eq (by omega) (by omega), hbit]
      · rintro (⟨-, h⟩ | ⟨h, -⟩)
        · cases h
        · cases h

/-- In a window inside the torrent the choice begins with a missing piece, and it has another one when
this is not the only one. -/
theorem endChoice_of_inside (hin : c.idx + c.len ≤ R.torrent.pieceNum) {last : ℤ}
    (hlast : LastUndone (shows c.idx c.array) c.idx (c.idx + c.len) last)
    (hmany : ¬ ∀ p, c.idx < p → p < c.idx + c.len → c.bit p = true) :
    ∃ r, endChoice R t c.state.pState c.state.streamPiece (min last (R.torrent.pieceNum - 1)) =
      some r ∧ (r = -1 ∨ c.Fresh t r) := by
  have hpiece := c.streamPiece_eq
  rcases hlast with ⟨rfl, -⟩ | ⟨k, rfl, hk, hlt, hmiss, hall⟩
  · refine ⟨-1, ?_, Or.inl rfl⟩
    rw [min_eq_left (by omega), endChoice, if_pos rfl, Option.bind_some]
    simp only [Bool.false_eq_true, if_false, Option.bind_some]
    rw [if_neg (by omega)]
  · rw [min_eq_left (by omega)]
    obtain ⟨hfresh, hfirst, hback⟩ := c.endChoice_natCast t hk hlt (by omega)
    cases hhelped : t.helpedLater k with
    | false =>
      refine ⟨k, hfresh hhelped, Or.inr ⟨by omega, by omega, ?_, hhelped⟩⟩
      rw [c.isDone_eq hk hlt]
      exact congrArg some hmiss
    | true => exact hback hhelped fun hI => hmany fun p h1 h2 => hall p (by omega) h2

/-- The search from the end finds a missing piece, unless it begins with the wrong piece. -/
theorem last_iff :
    (∃ r, valueOf (needLast R t) c.state = some r ∧ (r = -1 ∨ c.Fresh t r)) ↔
      ¬ ((∃ numDone ps, c.state.pState.getNumDone = some (numDone, ps) ∧
          fewDone numDone c.len = true) ∧ R.torrent.pieceNum < c.idx + c.len ∧
        (c.idx + 1 = R.torrent.pieceNum ∧ t.helpedLater (R.torrent.pieceNum - 1) = true ∨
          c.state.pState.isDone (R.torrent.pieceNum - 1) = some true ∧
            t.helpedLater (R.torrent.pieceNum - 1) = false)) := by
  obtain ⟨numDone, ps, hnum, hcount, hvalue⟩ := c.valueOf_needLast_eq t
  have hidx := c.idx_lt
  have hlen := c.len_ge
  rw [hvalue]
  cases hfew' : fewDone numDone c.len with
  | false =>
    refine iff_of_true ⟨-1, rfl, Or.inl rfl⟩ ?_
    rintro ⟨⟨numDone', ps', hnum', hfew''⟩, -⟩
    obtain ⟨rfl, -⟩ := Prod.mk.inj (Option.some.inj (hnum.symm.trans hnum'))
    rw [hfew'] at hfew''
    cases hfew''
  | true =>
    have hexists : ∃ numDone ps, c.state.pState.getNumDone = some (numDone, ps) ∧
        fewDone numDone c.len = true := ⟨numDone, ps, hnum, hfew'⟩
    obtain ⟨last, hlast, hspec⟩ := c.window.getLastIncomplete_spec
    rw [if_pos rfl, hlast, Option.bind_some, iff_true_intro hexists, true_and]
    by_cases hover : R.torrent.pieceNum < c.idx + c.len
    · have hcast : (R.torrent.pieceNum : ℤ) - 1 = ((R.torrent.pieceNum - 1 : ℕ) : ℤ) := by omega
      rw [c.min_last_of_overhang hover hspec, hcast, iff_true_intro hover, true_and]
      exact c.endChoice_last_iff t hover
    · refine iff_of_true (c.endChoice_of_inside t (by omega) hspec fun hall => ?_) fun h => hover h.1
      -- if all other pieces are done, these are not few
      have hle := hcount hall
      rw [fewDone_of_half (by omega) (by omega)] at hfew'
      cases hfew'

/-! ### Both choices -/

theorem toInt_next : toInt (c.idx + 1) = ((c.idx + 1 : ℕ) : ℤ) := by
  have hfits := c.window.fits
  have hlen := c.len_ge
  unfold maxInt at hfits
  rw [toInt_of_isInt ⟨by omega, by omega⟩]
  push_cast
  rfl

/-- The first missing piece behind `idx`. -/
theorem first_spec : ∃ r, c.state.pState.getFirstIncomplete (c.idx + 1) = some r ∧
    (r ≠ -1 → r < R.torrent.pieceNum → c.idx ≤ r ∧ c.state.pState.isDone r = some false) := by
  have hlen := c.len_ge
  obtain ⟨r, hr, hspec⟩ := c.window.getFirstIncomplete_spec (i := c.idx + 1) (by omega) (by omega)
  refine ⟨r, by exact_mod_cast hr, fun hne _ => ?_⟩
  rcases hspec with ⟨h, -⟩ | ⟨k, rfl, hk, hlt, hmiss, -⟩
  · exact absurd h hne
  · refine ⟨by omega, ?_⟩
    rw [c.isDone_eq (by omega) hlt]
    exact congrArg some hmiss

theorem result_eq {r : ℤ} (hr : c.state.pState.getFirstIncomplete (c.idx + 1) = some r) :
    c.result t speed =
      if 300 * 1024 < speed then some (-1)
      else if speed < 120 * 1024 then
        if r = -1 ∨ R.torrent.pieceNum ≤ r then some (-1)
        else if r = c.idx + 1 ∨ speed < 60 * 1024 then some r
        else valueOf (needLast R t) c.state
      else valueOf (needLast R t) c.state := by
  unfold result
  rw [valueOf_needDataHelp, toInt_next]
  push_cast
  rw [hr, Option.bind_some]

/-- Where the end of the window is not looked at, the call is right. -/
theorem helpsRight_of_not_reachesLast (h : ¬ c.ReachesLast speed) : c.HelpsRight t speed := by
  obtain ⟨r, hr, hspec⟩ := c.first_spec
  unfold HelpsRight
  rw [c.result_eq t speed hr]
  by_cases hfast : 300 * 1024 < speed
  · rw [if_pos hfast]
    exact ⟨-1, rfl, Or.inl rfl⟩
  by_cases hslow : speed < 120 * 1024
  · rw [if_neg hfast, if_pos hslow]
    by_cases hnone : r = -1 ∨ R.torrent.pieceNum ≤ r
    · rw [if_pos hnone]
      exact ⟨-1, rfl, Or.inl rfl⟩
    · have hne : r ≠ -1 := fun h => hnone (Or.inl h)
      have hlt : r < R.torrent.pieceNum := not_le.1 fun h => hnone (Or.inr h)
      have htake : r = c.idx + 1 ∨ speed < 60 * 1024 := by
        by_contra hcon
        push Not at hcon
        exact h ⟨by omega, fun _ => ⟨hcon.2, r, hr, hne, hlt, hcon.1⟩⟩
      obtain ⟨hge, hmiss⟩ := hspec hne hlt
      rw [if_neg hnone, if_pos htake]
      refine ⟨r, rfl, Or.inr ⟨hge, hlt, hmiss, fun hnot => ?_⟩⟩
      exact absurd ⟨hslow, hr, hne, hlt, htake⟩ hnot
  · exact absurd ⟨by omega, fun h => absurd h hslow⟩ h

/-- Else the end decides. -/
theorem result_of_reachesLast (h : c.ReachesLast speed) :
    c.result t speed = valueOf (needLast R t) c.state ∧ ∀ r, ¬ c.TakesFirst speed r := by
  obtain ⟨r, hr, -⟩ := c.first_spec
  rw [c.result_eq t speed hr, if_neg (by have := h.1; omega)]
  by_cases hslow : speed < 120 * 1024
  · obtain ⟨hspeed, r', hr', hne, hlt, hnext⟩ := h.2 hslow
    obtain rfl := Option.some.inj (hr.symm.trans hr')
    rw [if_pos hslow, if_neg (by omega), if_neg (by omega)]
    refine ⟨rfl, fun q hq => ?_⟩
    obtain ⟨-, hq, -, -, hor⟩ := hq
    obtain rfl := Option.some.inj (hr.symm.trans hq)
    rcases hor with h | h
    · exact hnext h
    · omega
  · rw [if_neg hslow]
    exact ⟨rfl, fun q hq => hslow hq.1⟩

/-- **Helpful choices.** A call of `needDataHelp` throws nothing and returns -1 or a missing piece of the
torrent, not helped when it is chosen from the end of the window, exactly when the last missing piece
is not clamped to a wrong one. -/
theorem helpsRight_iff :
    c.HelpsRight t speed ↔ ¬ c.ClampsWrong t speed := by
  by_cases hreach : c.ReachesLast speed
  · obtain ⟨hresult, hnot⟩ := c.result_of_reachesLast t speed hreach
    have huseful : ∀ r, c.Useful t speed r ↔ c.Fresh t r := fun r =>
      ⟨fun h => ⟨h.ge, h.lt, h.missing, h.fresh (hnot r)⟩,
        fun h => ⟨h.ge, h.lt, h.missing, fun _ => h.fresh⟩⟩
    unfold HelpsRight
    simp only [hresult, huseful]
    rw [c.last_iff t]
    exact not_congr ⟨fun ⟨h₁, h₂, h₃⟩ => ⟨hreach, h₁, h₂, h₃⟩,
      fun h => ⟨h.few, h.overhang, h.last⟩⟩
  · exact iff_of_true (c.helpsRight_of_not_reachesLast t speed hreach) fun h => hreach h.reaches

/-! ### A window at the end of three pieces -/

/-- A window of five pieces that begins with the second of three, which is missing. -/
def overhanging (last : Bool) : HelpCall wholeItem where
  state :=
    { initState wholeItem with
      streamPiece := 0
      pState :=
        { fromIdx := 1
          len := 5
          states := some [if last then 0x20 else 0x00]
          stateLen := 1
          stateIdx := 0
          mark := 0x7f } }
  idx := 1
  len := 5
  array := [if last then 0x20 else 0x00]
  window := ⟨by decide, by decide, rfl, rfl, rfl, rfl, rfl, rfl, le_rfl⟩
  len_ge := le_rfl
  idx_lt := by decide
  streamPiece_eq := rfl
  beyond := by
    intro p hp hlt
    have hnum : wholeItem.torrent.pieceNum = 3 := by decide
    have hcases : p = 3 ∨ p = 4 ∨ p = 5 := by omega
    rcases hcases with rfl | rfl | rfl <;> cases last <;> decide +kernel

/-- The last piece is there; at 200 KB/s it is chosen all the same. -/
theorem not_helpsRight_overhanging :
    ¬ (overhanging true).HelpsRight (goodTick false) (200 * 1024) := by
  rintro ⟨r, hr, h⟩
  have hresult : (overhanging true).result (goodTick false) (200 * 1024) = some 2 := by
    decide +kernel
  obtain rfl := Option.some.inj (hr.symm.trans hresult)
  rcases h with h | h
  · cases h
  · have hdone : (overhanging true).state.pState.isDone 2 = some true := by
      decide +kernel
    rw [h.missing] at hdone
    cases hdone

/-- The last piece is missing, and it is chosen. -/
theorem helpsRight_overhanging :
    (overhanging false).HelpsRight (goodTick false) (200 * 1024) := by
  refine ((overhanging false).helpsRight_iff (goodTick false) (200 * 1024)).2 ?_
  rintro ⟨-, -, -, h | h⟩
  · exact absurd h.1 (by decide)
  · exact absurd h.1 (by decide +kernel)

end HelpCall

end P2Player.Stream.HyperStreamer
