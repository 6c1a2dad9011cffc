import Mathlib.Data.Nat.Bitwise
import Mathlib.Order.Interval.Finset.Nat
import P2Player.Pieces.Queries

/-!
# Counting over a reused `PiecesState`

`setFromIdx`, `setLength` and `getPieceState` move the window of a `PiecesState` and refresh its
array, which is allocated again only when it is too short.  `getNumDone` clears the bits before the
window and counts the bits of all bytes that the window touches.

* `PiecesState.Window`: the object shows the window `[f, f + l)` through the array `xs`;
* `getNumDone_eq`: what is counted, up to the end of the last byte;
* `FirstUndone`, `LastUndone`: what the searches find in the window;
* `Refresh`, `EveryRefresh`: a refresh of the window, and sequences of them on one object;
* `countsRight_iff`: the refreshes after which the right number is counted.
-/

namespace P2Player

open Java

/-- There are no complete pieces behind the last one. -/
theorem Bitfield.getBit_of_size_le (b : Bitfield) {p : ℕ} (h : b.size ≤ p) : b.getBit p = false := by
  unfold getBit
  split
  · exact b.trailing p _ h ‹_›
  · rfl

namespace PiecesState

/-! ### Bits of an array -/

/-- Bit `i` of an array. -/
def bitAt (xs : List UInt8) (i : ℕ) : Bool :=
  match xs[i / 8]? with
  | some b => bitOf b i
  | none => false

theorem bitAt_of_getElem? {xs : List UInt8} {i : ℕ} {b : UInt8} (h : xs[i / 8]? = some b) :
    bitAt xs i = bitOf b i := by
  simp only [bitAt, h]

theorem toNat_bitMark : ∀ i < 8, ((0x80 : UInt8) >>> UInt8.ofNat i).toNat = 2 ^ (7 - i) := by
  decide

theorem bitOf_eq_testBit (b : UInt8) {i : ℕ} (hi : i < 8) :
    bitOf b i = b.toNat.testBit (7 - i) := by
  have hmask : (b &&& (0x80 >>> UInt8.ofNat i)).toNat =
      (b.toNat.testBit (7 - i)).toNat * 2 ^ (7 - i) := by
    rw [UInt8.toNat_and, toNat_bitMark i hi, Nat.and_two_pow]
  rw [bitOf, Nat.mod_eq_of_lt hi, Bool.eq_iff_iff, bne_iff_ne, ne_eq, ← UInt8.toNat_inj, hmask]
  cases b.toNat.testBit (7 - i) <;> simp

/-- The entries of the table count binary digits. -/
theorem bitsSet_eq_count (bits n : ℕ) :
    bitsSet bits n = Nat.count (fun i => n.testBit i = true) bits := by
  induction bits generalizing n with
  | zero => rfl
  | succ bits ih =>
    have hlast : (if n.testBit 0 = true then 1 else 0) = n % 2 := by
      rw [Nat.testBit_zero]
      rcases Nat.mod_two_eq_zero_or_one n with h | h
      · simp [h]
      · simp [h]
    rw [bitsSet, ih, Nat.count_succ', hlast, Nat.add_comm]
    simp only [Nat.testBit_succ]

/-- The first bit of a byte is its last digit. -/
theorem bitsSet_eight (b : UInt8) :
    bitsSet 8 b.toNat = Nat.count (fun i => bitOf b i = true) 8 := by
  rw [bitsSet_eq_count, Nat.count_eq_card_filter_range, Nat.count_eq_card_filter_range]
  refine Finset.card_nbij' (fun i => 7 - i) (fun i => 7 - i) ?_ ?_ ?_ ?_
  · intro i hi
    obtain ⟨hlt, hbit⟩ := Finset.mem_filter.1 hi
    have hlt := Finset.mem_range.1 hlt
    have hlt' : 7 - i < 8 := by omega
    refine Finset.mem_filter.2 ⟨Finset.mem_range.2 hlt', ?_⟩
    rwa [bitOf_eq_testBit b hlt', Nat.sub_sub_self (by omega)]
  · intro i hi
    obtain ⟨hlt, hbit⟩ := Finset.mem_filter.1 hi
    have hlt := Finset.mem_range.1 hlt
    have hlt' : 7 - i < 8 := by omega
    refine Finset.mem_filter.2 ⟨Finset.mem_range.2 hlt', ?_⟩
    rwa [← bitOf_eq_testBit b hlt]
  · intro i hi
    have hlt := Finset.mem_range.1 (Finset.mem_filter.1 hi).1
    exact Nat.sub_sub_self (by omega)
  · intro i hi
    have hlt := Finset.mem_range.1 (Finset.mem_filter.1 hi).1
    exact Nat.sub_sub_self (by omega)

theorem testBit_mark : ∀ r < 8, ∀ i < 8,
    ((0xff : UInt8) >>> UInt8.ofNat r).toNat.testBit (7 - i) = decide (r ≤ i) := by
  decide +kernel

theorem bitOf_mask (b : UInt8) {r i : ℕ} (hr : r < 8) (hi : i < 8) :
    bitOf (b &&& 0xff >>> UInt8.ofNat r) i = (decide (r ≤ i) && bitOf b i) := by
  rw [bitOf_eq_testBit _ hi, bitOf_eq_testBit _ hi, UInt8.toNat_and, Nat.testBit_and,
    testBit_mark r hr i hi, Bool.and_comm]

/-- The bits of the first `n` bytes are counted. -/
theorem countBits_eq (xs : List UInt8) {n : ℕ} (hn : n ≤ xs.length) (hmax : 8 * n < 2147483648) :
    countBits xs n = some ((Nat.count (fun i => bitAt xs i = true) (8 * n) : ℕ) : ℤ) := by
  induction n with
  | zero => rfl
  | succ n ih =>
    have hget : xs[n]? = some xs[n] := List.getElem?_eq_getElem hn
    have hbyte : bitsSet 8 xs[n].toNat =
        Nat.count (fun k => bitAt xs (8 * n + k) = true) 8 := by
      rw [bitsSet_eight, Nat.count_eq_card_filter_range, Nat.count_eq_card_filter_range]
      refine congrArg Finset.card (Finset.filter_congr fun k hk => ?_)
      have hk8 := Finset.mem_range.1 hk
      have hdiv : (8 * n + k) / 8 = n := by omega
      rw [bitAt_of_getElem? (b := xs[n]) (by rw [hdiv, hget]), ← bitOf_mod _ (8 * n + k),
        Nat.mul_add_mod, Nat.mod_eq_of_lt hk8]
    have hle : Nat.count (fun i => bitAt xs i = true) (8 * n + 8) ≤ 8 * n + 8 :=
      Nat.count_le _
    rw [Nat.count_add, ← hbyte] at hle
    simp only [countBits, ih (by omega) (by omega), hget]
    rw [Nat.mul_succ, Nat.count_add, ← hbyte, ← Nat.cast_add, toInt_natCast (by omega)]

theorem le_length_of_countBits {xs : List UInt8} {n : ℕ} {c : ℤ} (h : countBits xs n = some c) :
    n ≤ xs.length := by
  cases n with
  | zero => exact Nat.zero_le _
  | succ n =>
    by_contra hlong
    rw [countBits, List.getElem?_eq_none (by omega)] at h
    cases hc : countBits xs n <;> rw [hc] at h <;> cases h

/-- What `getNumDone` does to the array. -/
def maskFirst (mark : UInt8) : List UInt8 → List UInt8
  | [] => []
  | b :: bs => (b &&& mark) :: bs

@[simp] theorem length_maskFirst (mark : UInt8) (xs : List UInt8) :
    (maskFirst mark xs).length = xs.length := by
  cases xs <;> rfl

theorem bitAt_maskFirst (xs : List UInt8) {r : ℕ} (hr : r < 8) (i : ℕ) :
    bitAt (maskFirst (0xff >>> UInt8.ofNat r) xs) i = (decide (r ≤ i) && bitAt xs i) := by
  cases xs with
  | nil => simp [maskFirst, bitAt]
  | cons b bs =>
    by_cases hi : i < 8
    · have hdiv : i / 8 = 0 := Nat.div_eq_of_lt hi
      simpa [maskFirst, bitAt, hdiv] using bitOf_mask b hr hi
    · obtain ⟨k, hk⟩ := Nat.exists_eq_succ_of_ne_zero (show i / 8 ≠ 0 by omega)
      have hri : decide (r ≤ i) = true := decide_eq_true (by omega)
      rw [hri, Bool.true_and]
      simp only [maskFirst, bitAt, hk, List.getElem?_cons_succ]

theorem getNumDone_of_states {ps : PiecesState} {xs : List UInt8} (h : ps.states = some xs)
    (hne : xs ≠ []) : ps.getNumDone = (countBits (maskFirst ps.mark xs) ps.stateLen.toNat).map
      fun counter => (counter, { ps with states := some (maskFirst ps.mark xs) }) := by
  cases xs with
  | nil => exact absurd rfl hne
  | cons b bs => simp only [getNumDone, h, maskFirst]

/-- The number of pieces that are done is not negative. -/
theorem getNumDone_nonneg {ps ps' : PiecesState} {numDone : ℤ} (hlen : ps.stateLen ≤ 268435455)
    (h : ps.getNumDone = some (numDone, ps')) : 0 ≤ numDone := by
  unfold getNumDone at h
  split at h
  · cases h
  · cases h
  · obtain ⟨counter, hcount, heq⟩ := Option.map_eq_some_iff.1 h
    obtain rfl : counter = numDone := congrArg Prod.fst heq
    rw [countBits_eq _ (le_length_of_countBits hcount) (by omega)] at hcount
    obtain rfl := Option.some.inj hcount
    exact Int.natCast_nonneg _

/-! ### Windows -/

/-- The object shows the window `[f, f + l)` through the array `xs`. -/
structure Window (ps : PiecesState) (f l : ℕ) (xs : List UInt8) : Prop where
  pos : 0 < l
  fits : (f : ℤ) + l + 7 ≤ maxInt
  fromIdx_eq : ps.fromIdx = f
  len_eq : ps.len = l
  stateIdx_eq : ps.stateIdx = (f / 8 : ℕ)
  stateLen_eq : ps.stateLen = ((f + l + 7) / 8 - f / 8 : ℕ)
  mark_eq : ps.mark = 0xff >>> UInt8.ofNat (f % 8)
  states_eq : ps.states = some xs
  covers : (f + l + 7) / 8 - f / 8 ≤ xs.length

/-- The bit of piece `p` in an array that begins with the byte of piece `f`. -/
def shows (f : ℕ) (xs : List UInt8) (p : ℕ) : Bool := bitAt xs (p - 8 * (f / 8))

/-- The pieces from `a` on and before `b` with the property `done`. -/
def countIn (done : ℕ → Bool) (a b : ℕ) : ℕ := ((Finset.Ico a b).filter fun p => done p = true).card

theorem countIn_congr {done done' : ℕ → Bool} {a b : ℕ}
    (h : ∀ p, a ≤ p → p < b → done p = done' p) : countIn done a b = countIn done' a b := by
  refine congrArg Finset.card (Finset.filter_congr fun p hp => ?_)
  have hp := Finset.mem_Ico.1 hp
  rw [h p hp.1 hp.2]

theorem countIn_add (done : ℕ → Bool) {a b c : ℕ} (hab : a ≤ b) (hbc : b ≤ c) :
    countIn done a b + countIn done b c = countIn done a c := by
  simp only [countIn, Finset.card_filter]
  exact Finset.sum_Ico_consecutive _ hab hbc

theorem countIn_eq_zero_iff {done : ℕ → Bool} {a b : ℕ} :
    countIn done a b = 0 ↔ ∀ p, a ≤ p → p < b → done p = false := by
  simp [countIn, Finset.filter_eq_empty_iff]

theorem countIn_of_all {done : ℕ → Bool} {a b : ℕ} (h : ∀ p, a ≤ p → p < b → done p = true) :
    countIn done a b = b - a := by
  rw [countIn, Finset.filter_true_of_mem, Nat.card_Ico]
  intro p hp
  have hp := Finset.mem_Ico.1 hp
  exact h p hp.1 hp.2

section

variable {ps ps' : PiecesState} {f l : ℕ} {xs : List UInt8}

theorem Window.toInt_end (h : ps.Window f l xs) : toInt (ps.fromIdx + ps.len) = f + l := by
  have hfits := h.fits
  unfold maxInt at hfits
  rw [h.fromIdx_eq, h.len_eq, toInt_of_isInt ⟨by omega, by omega⟩]

/-- A piece of the window is done when its bit is set. -/
theorem Window.isDone_eq (h : ps.Window f l xs) {p : ℕ} (hf : f ≤ p) (hp : p < f + l) :
    ps.isDone p = some (shows f xs p) := by
  have hcovers := h.covers
  have hidx : (p : ℤ) / 8 - ps.stateIdx = ((p / 8 - f / 8 : ℕ) : ℤ) := by
    rw [h.stateIdx_eq]
    omega
  have hlt : p / 8 - f / 8 < xs.length := by omega
  have hsub : (p - 8 * (f / 8)) / 8 = p / 8 - f / 8 := by omega
  rw [isDone, h.states_eq, Option.bind_some, hidx, arrayGet_natCast, List.getElem?_eq_getElem hlt,
    Option.map_some, shows, bitAt_of_getElem? (b := xs[p / 8 - f / 8])
      (by rw [hsub, List.getElem?_eq_getElem hlt]),
    ← bitOf_mod _ (p - _), show (p - 8 * (f / 8)) % 8 = p % 8 by omega,
    show ((p : ℤ) % 8).toNat = p % 8 by omega]

/-- `getNumDone` counts from the window's start to the end of its last byte. -/
theorem Window.getNumDone_eq (h : ps.Window f l xs) :
    ps.getNumDone = some (((countIn (shows f xs) f (8 * ((f + l + 7) / 8)) : ℕ) : ℤ),
      { ps with states := some (maskFirst ps.mark xs) }) := by
  have hfits := h.fits
  have hcovers := h.covers
  have hpos := h.pos
  unfold maxInt at hfits
  have hne : xs ≠ [] := by
    rintro rfl
    simp only [List.length_nil] at hcovers
    omega
  rw [getNumDone_of_states h.states_eq hne, h.stateLen_eq, Int.toNat_natCast, countBits_eq _
    (by simpa using hcovers) (by omega), Option.map_some, h.mark_eq]
  have hcount : Nat.count
      (fun i => bitAt (maskFirst (0xff >>> UInt8.ofNat (f % 8)) xs) i = true)
        (8 * ((f + l + 7) / 8 - f / 8)) = countIn (shows f xs) f (8 * ((f + l + 7) / 8)) := by
    rw [Nat.count_eq_card_filter_range, countIn]
    -- bit `i` is the bit of piece `i + 8 * (f / 8)`
    have hbit := bitAt_maskFirst xs (Nat.mod_lt f (by decide : 8 > 0))
    refine Finset.card_nbij' (· + 8 * (f / 8)) (· - 8 * (f / 8)) ?_ ?_ ?_ ?_
    · intro i hi
      obtain ⟨hlt, hset⟩ := Finset.mem_filter.1 hi
      have hlt := Finset.mem_range.1 hlt
      rw [hbit, Bool.and_eq_true, decide_eq_true_eq] at hset
      have hge : f ≤ i + 8 * (f / 8) := by omega
      have hend : i + 8 * (f / 8) < 8 * ((f + l + 7) / 8) := by omega
      refine Finset.mem_filter.2 ⟨Finset.mem_Ico.2 ⟨hge, hend⟩, ?_⟩
      rw [shows, Nat.add_sub_cancel, hset.2]
    · intro p hp
      obtain ⟨hp, hset⟩ := Finset.mem_filter.1 hp
      have hp := Finset.mem_Ico.1 hp
      have hlt : p - 8 * (f / 8) < 8 * ((f + l + 7) / 8 - f / 8) := by omega
      refine Finset.mem_filter.2 ⟨Finset.mem_range.2 hlt, ?_⟩
      rw [hbit, decide_eq_true (show f % 8 ≤ p - 8 * (f / 8) by omega), Bool.true_and]
      exact hset
    · intro i _
      exact Nat.add_sub_cancel ..
    · intro p hp
      have hp := Finset.mem_Ico.1 (Finset.mem_filter.1 hp).1
      show p - 8 * (f / 8) + 8 * (f / 8) = p
      omega
  rw [hcount]

/-- The counted object shows the same window. -/
theorem Window.masked (h : ps.Window f l xs) :
    Window { ps with states := some (maskFirst ps.mark xs) } f l (maskFirst ps.mark xs) :=
  { h with
    states_eq := rfl
    covers := by rw [length_maskFirst]; exact h.covers }

theorem Window.shows_masked (h : ps.Window f l xs) {p : ℕ} (hp : f ≤ p) :
    shows f (maskFirst ps.mark xs) p = shows f xs p := by
  rw [shows, h.mark_eq, bitAt_maskFirst xs (Nat.mod_lt f (by decide)), shows,
    decide_eq_true (show f % 8 ≤ p - 8 * (f / 8) by omega), Bool.true_and]

end

/-! ### Searches -/

/-- `getFirstIncomplete()`. -/
def getFirstIncompleteOfAll (ps : PiecesState) : Option ℤ :=
  let n := toInt (ps.fromIdx + ps.len)
  (searchUp ps (n - ps.fromIdx).toNat ps.fromIdx).map fun i => if i = n then -1 else i

theorem searchUp_congr {ps ps' : PiecesState} {n : ℕ} {i : ℤ}
    (h : ∀ j, i ≤ j → j < i + n → ps'.isDone j = ps.isDone j) :
    searchUp ps' n i = searchUp ps n i := by
  induction n generalizing i with
  | zero => rfl
  | succ n ih =>
    rw [searchUp, searchUp, h i le_rfl (by omega),
      ih fun j hj hlt => h j (by omega) (by omega)]

theorem searchDown_congr {ps ps' : PiecesState} {n : ℕ} {i : ℤ}
    (h : ∀ j, i - n < j → j ≤ i → ps'.isDone j = ps.isDone j) :
    searchDown ps' n i = searchDown ps n i := by
  induction n generalizing i with
  | zero => rfl
  | succ n ih =>
    rw [searchDown, searchDown, h i (by omega) le_rfl,
      ih fun j hj hle => h j (by omega) (by omega)]

/-- Two objects report the same of the window `[f, f + l)`. -/
structure Agree (ps ps' : PiecesState) (f l : ℕ) : Prop where
  isDone : ∀ p : ℤ, f ≤ p → p < f + l → ps'.isDone p = ps.isDone p
  firstOfAll : ps'.getFirstIncompleteOfAll = ps.getFirstIncompleteOfAll
  first : ∀ i, ps'.getFirstIncomplete i = ps.getFirstIncomplete i
  last : ps'.getLastIncomplete = ps.getLastIncomplete
  lastAt : ∀ i, ps'.getLastIncompleteAt i = ps.getLastIncompleteAt i

/-- The searches look at the window only. -/
theorem Window.agree {ps ps' : PiecesState} {f l : ℕ} {xs xs' : List UInt8} (h : ps.Window f l xs)
    (h' : ps'.Window f l xs')
    (hdone : ∀ p : ℤ, f ≤ p → p < f + l → ps'.isDone p = ps.isDone p) : Agree ps ps' f l := by
  have hend := h.toInt_end
  have hend' := h'.toInt_end
  have hfrom := h.fromIdx_eq
  have hfrom' := h'.fromIdx_eq
  have hfits := h.fits
  have hpos := h.pos
  unfold maxInt at hfits
  have hlast : ∀ i : ℤ, i < f + l → lastIncompleteFrom ps' i = lastIncompleteFrom ps i := by
    intro i hi
    unfold lastIncompleteFrom
    rw [hfrom, hfrom', searchDown_congr fun j hj hle => hdone j (by omega) (by omega)]
  refine ⟨hdone, ?_, fun i => ?_, ?_, fun i => ?_⟩
  · unfold getFirstIncompleteOfAll
    rw [hend, hend', hfrom, hfrom']
    simp only
    rw [searchUp_congr fun j hj hlt => hdone j (by omega) (by omega)]
  · unfold getFirstIncomplete
    rw [hend, hend', hfrom, hfrom']
    simp only
    split_ifs with hout
    · rfl
    · rw [searchUp_congr fun j hj hlt => hdone j (by omega) (by omega)]
  · unfold getLastIncomplete
    rw [hfrom, hfrom', h.len_eq, h'.len_eq, toInt_of_isInt ⟨by omega, by omega⟩]
    exact hlast _ (by omega)
  · unfold getLastIncompleteAt
    rw [hend, hend', hfrom, hfrom']
    split_ifs with hout
    · rfl
    · exact hlast i (by omega)

/-- `r` is the first piece from `i` on and before `n` that is not done, or -1. -/
def FirstUndone (done : ℕ → Bool) (i n : ℕ) (r : ℤ) : Prop :=
  (r = -1 ∧ ∀ p, i ≤ p → p < n → done p = true) ∨
    ∃ k : ℕ, r = k ∧ i ≤ k ∧ k < n ∧ done k = false ∧ ∀ p, i ≤ p → p < k → done p = true

/-- `r` is the last piece from `i` on and before `n` that is not done, or -1. -/
def LastUndone (done : ℕ → Bool) (i n : ℕ) (r : ℤ) : Prop :=
  (r = -1 ∧ ∀ p, i ≤ p → p < n → done p = true) ∨
    ∃ k : ℕ, r = k ∧ i ≤ k ∧ k < n ∧ done k = false ∧ ∀ p, k < p → p < n → done p = true

section

variable {ps : PiecesState} {f l : ℕ} {xs : List UInt8}

theorem Window.searchUp_spec (h : ps.Window f l xs) (n : ℕ) {i : ℕ} (hi : f ≤ i)
    (hend : i + n ≤ f + l) :
    ∃ k : ℕ, ps.searchUp n i = some (k : ℤ) ∧ i ≤ k ∧ k ≤ i + n ∧
      (k < i + n → shows f xs k = false) ∧ ∀ p, i ≤ p → p < k → shows f xs p = true := by
  induction n generalizing i with
  | zero => exact ⟨i, rfl, le_rfl, le_rfl, fun h => by omega, fun p h1 h2 => by omega⟩
  | succ n ih =>
    rw [searchUp, h.isDone_eq hi (by omega), Option.bind_some]
    cases hdone : shows f xs i with
    | false =>
      exact ⟨i, rfl, le_rfl, by omega, fun _ => hdone, fun p h1 h2 => by omega⟩
    | true =>
      obtain ⟨k, hk, hle, hlt, hmiss, hall⟩ := ih (i := i + 1) (by omega) (by omega)
      refine ⟨k, ?_, by omega, by omega, fun h => hmiss (by omega), fun p h1 h2 => ?_⟩
      · rw [if_pos rfl, ← hk]
        push_cast
        rfl
      · rcases Nat.eq_or_lt_of_le h1 with rfl | h1
        · exact hdone
        · exact hall p h1 h2

theorem Window.searchDown_spec (h : ps.Window f l xs) (n : ℕ) {i : ℕ} (hi : f ≤ i)
    (hn : f + n = i) (hend : i ≤ f + l) :
    ∃ k : ℕ, ps.searchDown n ((i : ℤ) - 1) = some ((k : ℤ) - 1) ∧ f ≤ k ∧ k ≤ i ∧
      (f < k → shows f xs (k - 1) = false) ∧ ∀ p, k ≤ p → p < i → shows f xs p = true := by
  induction n generalizing i with
  | zero => exact ⟨i, rfl, hi, le_rfl, fun h => by omega, fun p h1 h2 => by omega⟩
  | succ n ih =>
    obtain ⟨j, rfl⟩ : ∃ j, i = j + 1 := ⟨i - 1, by omega⟩
    have hj : ((j + 1 : ℕ) : ℤ) - 1 = j := by omega
    rw [searchDown, hj, h.isDone_eq (by omega) (by omega), Option.bind_some]
    cases hdone : shows f xs j with
    | false =>
      refine ⟨j + 1, ?_, hi, le_rfl, fun _ => hdone, fun p h1 h2 => by omega⟩
      rw [if_neg (by decide), hj]
    | true =>
      obtain ⟨k, hk, hle, hlt, hmiss, hall⟩ := ih (i := j) (by omega) (by omega) (by omega)
      refine ⟨k, ?_, hle, by omega, hmiss, fun p h1 h2 => ?_⟩
      · rw [if_pos rfl, hk]
      · rcases Nat.eq_or_lt_of_le (Nat.le_of_lt_succ h2) with rfl | h2
        · exact hdone
        · exact hall p h1 h2

theorem Window.getFirstIncomplete_spec (h : ps.Window f l xs) {i : ℕ} (hi : f ≤ i)
    (hend : i < f + l) :
    ∃ r, ps.getFirstIncomplete i = some r ∧ FirstUndone (shows f xs) i (f + l) r := by
  obtain ⟨k, hk, hle, hlt, hmiss, hall⟩ := h.searchUp_spec (f + l - i) hi (by omega)
  have hn : ((f : ℤ) + l - i).toNat = f + l - i := by omega
  unfold getFirstIncomplete
  rw [h.toInt_end, h.fromIdx_eq]
  simp only
  rw [if_neg (by omega), hn, hk, Option.map_some]
  refine ⟨_, rfl, ?_⟩
  split_ifs with hall'
  · exact Or.inl ⟨rfl, fun p h1 h2 => hall p h1 (by omega)⟩
  · exact Or.inr ⟨k, rfl, hle, by omega, hmiss (by omega), hall⟩

theorem Window.lastIncompleteFrom_spec (h : ps.Window f l xs) {i : ℕ} (hi : f ≤ i)
    (hend : i ≤ f + l) :
    ∃ r, ps.lastIncompleteFrom ((i : ℤ) - 1) = some r ∧ LastUndone (shows f xs) f i r := by
  obtain ⟨k, hk, hle, hlt, hmiss, hall⟩ := h.searchDown_spec (i - f) hi (by omega) hend
  have hn : ((i : ℤ) - 1 + 1 - f).toNat = i - f := by omega
  unfold lastIncompleteFrom
  rw [h.fromIdx_eq, hn, hk, Option.map_some]
  refine ⟨_, rfl, ?_⟩
  split_ifs with hall'
  · exact Or.inl ⟨rfl, fun p h1 h2 => hall p (by omega) h2⟩
  · refine Or.inr ⟨k - 1, by omega, by omega, by omega, hmiss (by omega), fun p h1 h2 => ?_⟩
    exact hall p (by omega) h2

theorem Window.getLastIncomplete_spec (h : ps.Window f l xs) :
    ∃ r, ps.getLastIncomplete = some r ∧ LastUndone (shows f xs) f (f + l) r := by
  have hfits := h.fits
  have hpos := h.pos
  unfold maxInt at hfits
  have hend : toInt (ps.fromIdx + ps.len - 1) = ((f + l : ℕ) : ℤ) - 1 := by
    rw [h.fromIdx_eq, h.len_eq, toInt_of_isInt ⟨by omega, by omega⟩]
    push_cast
    rfl
  unfold getLastIncomplete
  rw [hend]
  exact h.lastIncompleteFrom_spec (by omega) le_rfl

/-- The search back from a piece before `i`. -/
theorem Window.getLastIncompleteAt_spec (h : ps.Window f l xs) {i : ℕ} (hi : f < i)
    (hend : i ≤ f + l) :
    ∃ r, ps.getLastIncompleteAt ((i : ℤ) - 1) = some r ∧ LastUndone (shows f xs) f i r := by
  unfold getLastIncompleteAt
  rw [h.toInt_end, h.fromIdx_eq, if_neg (by omega)]
  exact h.lastIncompleteFrom_spec hi.le hend

/-- Before the window there is no search. -/
theorem Window.getLastIncompleteAt_before (h : ps.Window f l xs) {i : ℤ} (hi : i < f) :
    ps.getLastIncompleteAt i = none := by
  unfold getLastIncompleteAt
  rw [h.fromIdx_eq, if_pos (Or.inl hi)]

end

/-- `getNumDone` changes nothing that is reported of the window. -/
theorem Window.agree_masked {ps : PiecesState} {f l : ℕ} {xs : List UInt8} (h : ps.Window f l xs) :
    Agree ps { ps with states := some (maskFirst ps.mark xs) } f l := by
  refine h.agree h.masked fun p hf hp => ?_
  obtain ⟨k, rfl⟩ := Int.eq_ofNat_of_zero_le (show 0 ≤ p by omega)
  have hk : f ≤ k := by omega
  rw [h.masked.isDone_eq hk (by omega), h.isDone_eq hk (by omega), h.shows_masked hk]

end PiecesState

open PiecesState

/-! ### Refreshes -/

/-- `getPieceState` as it is meant: the bytes of the window that the bitfield has are copied. -/
def copyStates (b : Bitfield) (ps : PiecesState) : Option PiecesState :=
  ps.states.bind fun xs =>
    (memcpy xs b.bytes ps.stateIdx (min ps.stateLen (b.bytes.length - ps.stateIdx))).map
      fun out => { ps with states := some out }

/-- A refresh: the bitfield at that time, and the window that is asked for. -/
structure Refresh where
  bitfield : Bitfield
  f : ℕ
  l : ℕ
  f_lt : f < bitfield.size
  l_pos : 0 < l
  l_le : l ≤ 2147483647

namespace Refresh

/-- `setFromIdx(f); setLength(l, false); getPieceState(state)`. -/
def run (w : Refresh) (ps : PiecesState) : Option PiecesState :=
  ((ps.setFromIdx w.f).setLength w.l false).bind (copyStates w.bitfield)

/-- The object after a refresh that is followed by `getNumDone`, or not. -/
def leaves (w : Refresh) (counted : Bool) (ps : PiecesState) : Option PiecesState :=
  (w.run ps).bind fun after => if counted then after.getNumDone.map Prod.snd else some after

/-- The number of complete pieces of the window. -/
def numComplete (w : Refresh) : ℕ :=
  countIn w.bitfield.getBit w.f (min (w.f + w.l) w.bitfield.size)

/-- The bytes of the window. -/
def stateLen (w : Refresh) : ℕ := (w.f + w.l + 7) / 8 - w.f / 8

/-- After the refresh of `ps`, `getNumDone` returns the number of complete pieces of the window and
changes nothing that is reported of it. -/
def CountsRight (w : Refresh) (ps : PiecesState) : Prop :=
  ∃ after counted, w.run ps = some after ∧
    after.getNumDone = some ((w.numComplete : ℤ), counted) ∧ Agree after counted w.f w.l

/-- The window ends within the range of `int`, the pieces behind it in its last byte are missing,
and an array that is used again is clear behind the bytes of the bitfield. -/
structure Clear (w : Refresh) (ps : PiecesState) : Prop where
  fits : (w.f : ℤ) + w.l + 7 ≤ maxInt
  tail : ∀ p, w.f + w.l ≤ p → p < 8 * ((w.f + w.l + 7) / 8) → w.bitfield.getBit p = false
  stale : ∀ xs, ps.states = some xs → w.stateLen ≤ xs.length → ∀ i < w.stateLen,
    w.bitfield.bytes.length ≤ w.f / 8 + i → xs[i]? = some 0

end Refresh

/-- Every refresh of a sequence, made on one object that is `ps` at first, has the property `P` of the
refresh and the object before it.  `getNumDone` may be called after each of them. -/
def EveryRefresh (P : Refresh → PiecesState → Prop) : PiecesState → List (Refresh × Bool) → Prop
  | _, [] => True
  | ps, (w, counted) :: ws =>
    P w ps ∧ ∀ ps', w.leaves counted ps = some ps' → EveryRefresh P ps' ws

namespace Refresh

variable {w : Refresh} {ps : PiecesState}

/-- The array that `setLength` leaves. -/
def arrayOf (states : Option (List UInt8)) (n : ℕ) : List UInt8 :=
  match states with
  | none => List.replicate n 0
  | some xs => if n ≤ xs.length then xs else List.replicate n 0

theorem length_arrayOf (states : Option (List UInt8)) (n : ℕ) :
    n ≤ (arrayOf states n).length := by
  cases states with
  | none => simp [arrayOf]
  | some xs =>
    show n ≤ (if n ≤ xs.length then xs else List.replicate n 0).length
    split_ifs with h
    · exact h
    · simp

/-- `setFromIdx` and `setLength` position the window. -/
theorem window_setLength (w : Refresh) (ps : PiecesState) (h : (w.f : ℤ) + w.l + 7 ≤ maxInt) :
    ∃ before, (ps.setFromIdx w.f).setLength w.l false = some before ∧
      before.Window w.f w.l (arrayOf ps.states w.stateLen) := by
  have hlen := stateLen_eq (Int.natCast_nonneg w.f) (Nat.cast_pos.2 w.l_pos) h
  have hcast : ((w.f : ℤ) + w.l + 7) / 8 - w.f / 8 = (w.stateLen : ℕ) := by
    unfold stateLen
    omega
  have hidx : ps.setFromIdx w.f = { ps with
      fromIdx := w.f, stateIdx := w.f / 8, mark := 0xff >>> UInt8.ofNat ((w.f : ℤ) % 8).toNat } :=
    if_neg (by omega)
  have hmark : ((w.f : ℤ) % 8).toNat = w.f % 8 := by omega
  have hpos : ¬ (w.l : ℤ) ≤ 0 := by have := w.l_pos; omega
  rw [hidx, setLength, if_neg hpos]
  dsimp only
  rw [hlen, hcast, hmark, if_neg (show ¬ (w.stateLen : ℤ) < 0 by omega)]
  have hcovers := length_arrayOf ps.states w.stateLen
  cases hs : ps.states with
  | none =>
    rw [hs] at hcovers
    exact ⟨_, if_pos rfl, w.l_pos, h, rfl, rfl, by simp, rfl, rfl, by simp [arrayOf], hcovers⟩
  | some xs =>
    rw [hs] at hcovers
    by_cases hlong : w.stateLen ≤ xs.length
    · have hneed : needsArray (some xs) w.stateLen false = false := by
        simp [needsArray, hlong]
      simp only [hneed, Bool.false_eq_true, if_false]
      exact ⟨_, rfl, w.l_pos, h, rfl, rfl, by simp, rfl, rfl, by simp [arrayOf, hlong], hcovers⟩
    · have hneed : needsArray (some xs) w.stateLen false = true := by
        simp [needsArray]
        omega
      simp only [hneed, if_true]
      exact ⟨_, rfl, w.l_pos, h, rfl, rfl, by simp, rfl, rfl, by simp [arrayOf, hlong], hcovers⟩

/-- The bytes that are copied. -/
def copied (w : Refresh) : ℕ := min w.stateLen (w.bitfield.bytes.length - w.f / 8)

/-- The array after the refresh. -/
def refreshed (w : Refresh) (old : List UInt8) : List UInt8 :=
  slice w.bitfield.bytes (w.f / 8) w.copied ++ old.drop w.copied

theorem f_div_lt (w : Refresh) : w.f / 8 < w.bitfield.bytes.length := by
  have hlt := w.f_lt
  rw [w.bitfield.length_bytes]
  omega

/-- A refresh within the range of `int` returns. -/
theorem run_eq (w : Refresh) (ps : PiecesState) (h : (w.f : ℤ) + w.l + 7 ≤ maxInt) :
    ∃ after, w.run ps = some after ∧
      after.Window w.f w.l (w.refreshed (arrayOf ps.states w.stateLen)) := by
  obtain ⟨before, hset, hw⟩ := w.window_setLength ps h
  have hlt := w.f_div_lt
  have hlen := length_arrayOf ps.states w.stateLen
  have hcopied : min before.stateLen (w.bitfield.bytes.length - before.stateIdx) = (w.copied : ℤ) := by
    rw [hw.stateLen_eq, hw.stateIdx_eq]
    unfold copied stateLen
    omega
  have hle : w.copied ≤ w.stateLen := min_le_left _ _
  have hread : w.f / 8 + w.copied ≤ w.bitfield.bytes.length := by
    unfold copied
    omega
  have hmem : memcpy (arrayOf ps.states w.stateLen) w.bitfield.bytes before.stateIdx w.copied =
      some (w.refreshed (arrayOf ps.states w.stateLen)) := by
    rw [memcpy, hw.stateIdx_eq, if_pos ⟨by omega, by omega, by omega, by omega⟩]
    simp only [Int.toNat_natCast]
    rfl
  refine ⟨{ before with states := some (w.refreshed (arrayOf ps.states w.stateLen)) }, ?_,
    { hw with states_eq := rfl, covers := ?_ }⟩
  · rw [run, hset, Option.bind_some, copyStates, hw.states_eq, Option.bind_some, hcopied, hmem,
      Option.map_some]
  · show w.stateLen ≤ _
    rw [refreshed, List.length_append, length_slice_of_le hread, List.length_drop]
    omega

/-- Without an overflow check the number of bytes comes out negative, and no copy succeeds. -/
theorem fits_of_run {after : PiecesState} (h : w.run ps = some after) :
    (w.f : ℤ) + w.l + 7 ≤ maxInt := by
  by_contra hover
  obtain ⟨before, hset, hcopy⟩ := Option.bind_eq_some_iff.1 h
  have hlt := w.f_lt
  have hsize := w.bitfield.size_lt
  have hpos := w.l_pos
  have hle := w.l_le
  obtain ⟨-, hlen, -⟩ := setLength_spec (Int.natCast_nonneg w.f) (Nat.cast_pos.2 hpos) hset
  have hneg := stateLen_neg (Int.natCast_nonneg w.f) (l := (w.l : ℤ)) ⟨by omega, by omega⟩
    ⟨by omega, by omega⟩ hover
  obtain ⟨xs, -, hcopy⟩ := Option.bind_eq_some_iff.1 hcopy
  obtain ⟨out, hmem, -⟩ := Option.map_eq_some_iff.1 hcopy
  unfold memcpy at hmem
  split_ifs at hmem with hcond
  have := hcond.2.1
  omega

/-- Where the native call does what it should, it is this refresh. -/
theorem run_of_refreshes {s : TorrentStatus} (hs : s.state ≠ seeding) (hb : s.pieces = w.bitfield)
    (h : Refreshes s ps w.f w.l false) :
    ∃ before r after, refresh s ps w.f w.l false = some (before, r, after) ∧
      w.run ps = some after := by
  obtain ⟨before, r, after, hrun, hok⟩ := h
  refine ⟨before, r, after, hrun, ?_⟩
  obtain ⟨before', hset, hget⟩ := Option.bind_eq_some_iff.1 hrun
  obtain ⟨⟨r', after'⟩, hget, heq⟩ := Option.map_eq_some_iff.1 hget
  cases heq
  have hlt := w.f_lt
  obtain ⟨hidx, -, old, hold, -⟩ :=
    setLength_spec (Int.natCast_nonneg w.f) (Nat.cast_pos.2 w.l_pos) hset
  obtain ⟨-, -, h0, hread, hwrite, rfl⟩ := (getPieceState_eq_some_iff hs (by rw [hb]; omega)
    (by omega) hold).1 hget
  have hcount := hok.count
  rw [hb] at hcount hread
  rw [run, hset, Option.bind_some, copyStates, hold, Option.bind_some, ← hcount, memcpy,
    if_pos ⟨by omega, h0, hread, hwrite⟩, Option.map_some, hb]

/-- The bits of a refreshed array: those of the bitfield as far as it goes, and old ones behind it. -/
theorem shows_refreshed (w : Refresh) (old : List UInt8) {p : ℕ} (hf : w.f ≤ p)
    (hp : p < 8 * ((w.f + w.l + 7) / 8)) : shows w.f (w.refreshed old) p =
      if p / 8 < w.bitfield.bytes.length then w.bitfield.getBit p else shows w.f old p := by
  have hlen := w.f_div_lt
  have hidx : (p - 8 * (w.f / 8)) / 8 = p / 8 - w.f / 8 := by omega
  have hmod : (p - 8 * (w.f / 8)) % 8 = p % 8 := by omega
  have hin : p / 8 - w.f / 8 < w.stateLen := by
    unfold stateLen
    omega
  split_ifs with hlt
  · have hcopied : p / 8 - w.f / 8 < w.copied := by
      unfold copied
      omega
    have hbyte : (w.refreshed old)[p / 8 - w.f / 8]? = w.bitfield.bytes[p / 8]? := by
      rw [refreshed, List.getElem?_append_left (by rw [length_slice]; omega),
        getElem?_slice _ _ hcopied, Nat.add_sub_cancel' (by omega)]
    rw [shows, bitAt, hidx, hbyte, Bitfield.getBit, List.getElem?_eq_getElem hlt]
    simp only
    rw [← bitOf_mod, hmod, bitOf_mod]
  · have hcopied : w.copied = w.bitfield.bytes.length - w.f / 8 := by
      unfold copied
      omega
    have hslice : (slice w.bitfield.bytes (w.f / 8) w.copied).length = w.copied :=
      length_slice_of_le (by omega)
    have hbyte : (w.refreshed old)[p / 8 - w.f / 8]? = old[p / 8 - w.f / 8]? := by
      rw [refreshed, List.getElem?_append_right (by omega), hslice, List.getElem?_drop,
        Nat.add_sub_cancel' (by omega)]
    rw [shows, shows, bitAt, bitAt, hidx, hbyte]

theorem eq_zero_of_bits {b : UInt8} (h : ∀ i < 8, bitOf b i = false) : b = 0 := by
  refine UInt8.toNat_inj.1 (Nat.zero_of_testBit_eq_false fun i => ?_)
  by_cases hi : i < 8
  · have hbit := h (7 - i) (by omega)
    rwa [bitOf_eq_testBit _ (by omega), Nat.sub_sub_self (by omega)] at hbit
  · exact Nat.testBit_lt_two_pow (b.toNat_lt.trans_le (Nat.pow_le_pow_right (by decide) (by omega)))

theorem bitOf_zero (i : ℕ) : bitOf 0 i = false := by simp [bitOf]

/-- The bits that are counted beyond the pieces of the window. -/
def Extra (w : Refresh) (old : List UInt8) : Prop :=
  ∃ p, min (w.f + w.l) w.bitfield.size ≤ p ∧ p < 8 * ((w.f + w.l + 7) / 8) ∧
    shows w.f (w.refreshed old) p = true

/-- The pieces of the torrent are shown, so the count is right when nothing else is counted. -/
theorem countIn_eq_iff (w : Refresh) (old : List UInt8) :
    countIn (shows w.f (w.refreshed old)) w.f (8 * ((w.f + w.l + 7) / 8)) = w.numComplete ↔
      ¬ w.Extra old := by
  have hlt := w.f_lt
  have hpos := w.l_pos
  have hlen := w.bitfield.length_bytes
  have hwindow : countIn (shows w.f (w.refreshed old)) w.f (min (w.f + w.l) w.bitfield.size) =
      w.numComplete :=
    countIn_congr fun p hf hp => by
      rw [w.shows_refreshed old hf (by omega), if_pos (by omega)]
  rw [← countIn_add _ (show w.f ≤ min (w.f + w.l) w.bitfield.size by omega) (by omega), hwindow,
    Nat.add_eq_left, countIn_eq_zero_iff]
  simp only [Extra, not_exists, not_and, Bool.not_eq_true]

/-- A byte that the bitfield does not reach is 0, also in an array that is used again. -/
theorem Clear.getElem?_arrayOf {w : Refresh} {ps : PiecesState} (h : w.Clear ps) {i : ℕ}
    (hi : i < w.stateLen) (hbeyond : w.bitfield.bytes.length ≤ w.f / 8 + i) :
    (arrayOf ps.states w.stateLen)[i]? = some 0 := by
  cases hs : ps.states with
  | none => simp [arrayOf, hi]
  | some xs =>
    by_cases hle : w.stateLen ≤ xs.length
    · rw [arrayOf, if_pos hle]
      exact h.stale xs hs hle i hi hbeyond
    · rw [arrayOf, if_neg hle, List.getElem?_replicate, if_pos hi]

/-- Nothing else is counted exactly when the window is clear behind its pieces. -/
theorem not_extra_iff (w : Refresh) (ps : PiecesState) (hfits : (w.f : ℤ) + w.l + 7 ≤ maxInt) :
    ¬ w.Extra (arrayOf ps.states w.stateLen) ↔ w.Clear ps := by
  have hlen := w.bitfield.length_bytes
  have hlt := w.f_lt
  constructor
  · intro h
    have hclear : ∀ p, min (w.f + w.l) w.bitfield.size ≤ p → p < 8 * ((w.f + w.l + 7) / 8) →
        shows w.f (w.refreshed (arrayOf ps.states w.stateLen)) p = false := fun p h1 h2 =>
      Bool.eq_false_of_not_eq_true fun h3 => h ⟨p, h1, h2, h3⟩
    refine ⟨hfits, fun p h1 h2 => ?_, fun xs hxs hle i hi hbeyond => ?_⟩
    · have hp := hclear p (by omega) h2
      rw [w.shows_refreshed _ (by omega) h2] at hp
      split_ifs at hp with hbyte
      · exact hp
      · rw [Bitfield.getBit, List.getElem?_eq_none (not_lt.1 hbyte)]
    · have harray : arrayOf ps.states w.stateLen = xs := by
        rw [hxs]
        exact if_pos hle
      rw [harray] at hclear
      have hget : xs[i]? = some xs[i] := List.getElem?_eq_getElem (hi.trans_le hle)
      rw [hget]
      refine congrArg some (eq_zero_of_bits fun k hk => ?_)
      -- bit `k` of byte `i` is the bit of this piece
      have hp := hclear (8 * (w.f / 8 + i) + k) (by omega) (by unfold stateLen at hi; omega)
      rw [w.shows_refreshed _ (by omega) (by unfold stateLen at hi; omega), if_neg (by omega), shows,
        bitAt_of_getElem? (b := xs[i]) (by rw [← hget]; congr 1; omega)] at hp
      rw [← hp, ← bitOf_mod _ (_ - _)]
      congr 1
      omega
  · rintro hclear ⟨p, h1, h2, h3⟩
    rw [w.shows_refreshed _ (by omega) h2] at h3
    split_ifs at h3 with hbyte
    · by_cases hend : w.f + w.l ≤ p
      · rw [hclear.tail p hend h2] at h3
        cases h3
      · -- a piece behind the last one of the torrent
        rw [w.bitfield.getBit_of_size_le (by omega)] at h3
        cases h3
    · have hin : p / 8 - w.f / 8 < w.stateLen := by
        unfold stateLen
        omega
      have hzero := hclear.getElem?_arrayOf hin (by omega)
      rw [shows, bitAt_of_getElem? (b := 0) (by rw [← hzero]; congr 1; omega), bitOf_zero] at h3
      cases h3

/-- **Step lemma.** A refresh is followed by the right count exactly when it is clear. -/
theorem countsRight_iff (w : Refresh) (ps : PiecesState) : w.CountsRight ps ↔ w.Clear ps := by
  constructor
  · rintro ⟨after, counted, hrun, hcount, -⟩
    have hfits := fits_of_run hrun
    obtain ⟨after', hrun', hw⟩ := w.run_eq ps hfits
    obtain rfl : after' = after := Option.some.inj (hrun'.symm.trans hrun)
    rw [hw.getNumDone_eq] at hcount
    have hnum := (Prod.mk.inj (Option.some.inj hcount)).1
    exact (w.not_extra_iff ps hfits).1 ((w.countIn_eq_iff _).1 (by exact_mod_cast hnum))
  · intro h
    obtain ⟨after, hrun, hw⟩ := w.run_eq ps h.fits
    refine ⟨after, _, hrun, ?_, hw.agree_masked⟩
    rw [hw.getNumDone_eq, (w.countIn_eq_iff _).2 ((w.not_extra_iff ps h.fits).2 h)]

end Refresh

theorem everyRefresh_congr {P Q : Refresh → PiecesState → Prop} (h : ∀ w ps, P w ps ↔ Q w ps)
    (ps : PiecesState) (ws : List (Refresh × Bool)) :
    EveryRefresh P ps ws ↔ EveryRefresh Q ps ws := by
  induction ws generalizing ps with
  | nil => exact Iff.rfl
  | cons x ws ih =>
    exact and_congr (h x.1 ps) (forall_congr' fun ps' => forall_congr' fun _ => ih ps')

/-- **Counts over a reused object.** In every sequence of refreshes, each of them is followed by the
right count exactly when its window is clear behind the pieces it is about. -/
theorem everyRefresh_countsRight_iff (ps : PiecesState) (ws : List (Refresh × Bool)) :
    EveryRefresh Refresh.CountsRight ps ws ↔ EveryRefresh Refresh.Clear ps ws :=
  everyRefresh_congr Refresh.countsRight_iff ps ws

/-- Five of eight complete pieces. -/
def fiveOfEight : Refresh where
  bitfield :=
    { bytes := [0xff]
      size := 8
      length_bytes := rfl
      size_lt := by norm_num
      trailing := fun p b hp hb => by
        rw [List.getElem?_eq_none (by simp; omega)] at hb
        cases hb }
  f := 0
  l := 5
  f_lt := by decide
  l_pos := by decide
  l_le := by decide

/-- All eight pieces of the byte are counted for the window of the first five. -/
theorem not_countsRight_fiveOfEight :
    ¬ EveryRefresh Refresh.CountsRight {} [(fiveOfEight, true)] := by
  rintro ⟨⟨after, counted, hrun, hcount, -⟩, -⟩
  have hcounted : ((fiveOfEight.run {}).bind fun a => a.getNumDone.map Prod.fst) = some 8 := by
    decide +kernel
  have hcomplete : fiveOfEight.numComplete = 5 := by decide +kernel
  rw [hrun, Option.bind_some, hcount, hcomplete] at hcounted
  cases hcounted

end P2Player
