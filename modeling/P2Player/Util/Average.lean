import P2Player.Java.Integer

/-!
# The average of the last seconds

`Average` adds up what is sent in each slot of `refreshRate` milliseconds, in an array that is used as a ring.
Slots are cleared when they are used again, thus only for as long as something is added or read.

* `Config`, `getInstance`: the parameters that are accepted; `nbElements`, `slots`: the size of the ring;
* `State`, `addValue`, `getSum`, `getSumOf`, `getPointValue`, `getAverage`, `getAverageOf`: the code;
* `Inv`: each element of the ring against all that has been added since `clear`;
* `inv_update`: what the clean-up does;
* `getAverage_of_run`, `getSumOf_of_run`: the values that are read, after any calls.
-/

namespace P2Player.Average

open Java

/-- The parameters that `getInstance` accepts. -/
structure Config where
  refreshRate : ℕ
  period : ℤ
  le_refreshRate : 100 ≤ refreshRate
  refreshRate_le : refreshRate ≤ toInt (period * 1000)

/-- `getInstance`. -/
def getInstance (refreshRate period : ℤ) : Option Config :=
  if hrate : refreshRate < 100 then none
  else if hperiod : toInt (period * 1000) < refreshRate then none
  else some
    { refreshRate := refreshRate.toNat
      period := period
      le_refreshRate := by omega
      refreshRate_le := by omega }

/-- `nbElements`, as the constructor computes it. -/
def Config.nbElements (c : Config) : ℕ := (toInt (c.period * 1000) / c.refreshRate + 2).toNat

/-- The number of slots in a period. -/
def Config.slots (c : Config) : ℕ := (c.period * 1000 / c.refreshRate).toNat

/-- The array has two elements more than the slots that are read. -/
theorem Config.nbElements_eq {c : Config} (h : IsInt (c.period * 1000)) :
    c.nbElements = c.slots + 2 := by
  have hrate := c.le_refreshRate
  have hperiod := c.refreshRate_le
  rw [toInt_of_isInt h] at hperiod
  have hslots : 0 ≤ c.period * 1000 / c.refreshRate := Int.ediv_nonneg (by omega) (by omega)
  unfold nbElements slots
  rw [toInt_of_isInt h]
  omega

theorem Config.three_le (c : Config) : 3 ≤ c.nbElements := by
  have hrate := c.le_refreshRate
  have hperiod := c.refreshRate_le
  have hone : 1 ≤ toInt (c.period * 1000) / c.refreshRate :=
    Int.le_ediv_of_mul_le (by omega) (by omega)
  unfold nbElements
  omega

structure State where
  lastUpdate : ℕ
  values : Option (List ℤ)

variable (c : Config)

/-- The constructor, and `clear`. -/
def new (time : ℕ) : State := ⟨time / c.refreshRate, none⟩

/-- The first `n` elements from that of slot `a` on are zero. -/
def clearFrom (nbElements a n : ℕ) (v : List ℤ) : List ℤ :=
  (List.range' a n).foldl (fun v i => v.set (i % nbElements) 0) v

def update (timeFactor : ℕ) (s : State) : State :=
  let lastUpdate :=
    if s.lastUpdate + c.nbElements < timeFactor then timeFactor - c.nbElements - 1 else s.lastUpdate
  { lastUpdate := timeFactor
    values := s.values.map fun v =>
      (clearFrom c.nbElements (lastUpdate + 1) (timeFactor - lastUpdate) v).set
        ((timeFactor + 1) % c.nbElements) 0 }

def addValue (value : ℤ) (time : ℕ) (s : State) : State :=
  let values := if s.values = none ∧ value ≠ 0 then some (List.replicate c.nbElements 0) else s.values
  match values with
  | none => s
  | some v =>
    let timeFactor := time / c.refreshRate
    let s := update c timeFactor { s with values := some v }
    { s with values := s.values.map fun v =>
        v.modify (timeFactor % c.nbElements) fun x => toLong (x + value) }

/-- The sum of the `n` elements from that of slot `a` on. -/
def sumFrom (a n : ℕ) (s : State) : ℤ :=
  match s.values with
  | none => 0
  | some v => (List.range' a n).foldl (fun sum i => toLong (sum + v.getD (i % c.nbElements) 0)) 0

/-- `getSum()`. -/
def getSum (time : ℕ) (s : State) : ℤ × State :=
  match s.values with
  | none => (0, s)
  | some _ =>
    let timeFactor := time / c.refreshRate
    let s := update c timeFactor s
    (sumFrom c (timeFactor + 2) (c.nbElements - 2) s, s)

/-- The number of slots that can be read. -/
def clamp (slots : ℤ) : ℕ :=
  if slots < 1 then 1 else if slots > c.nbElements - 2 then c.nbElements - 2 else slots.toNat

/-- `getSum(slots)`. -/
def getSumOf (slots : ℤ) (time : ℕ) (s : State) : ℤ × State :=
  let timeFactor := time / c.refreshRate
  let s := update c timeFactor s
  (sumFrom c (timeFactor + c.nbElements - clamp c slots) (clamp c slots) s, s)

/-- `getPointValue`, `none` when the index is negative. -/
def getPointValue (time : ℕ) (s : State) : Option ℤ × State :=
  let timeFactor := time / c.refreshRate
  let s := update c timeFactor s
  match s.values with
  | none => (some 0, s)
  | some v => (if timeFactor = 0 then none else v[(timeFactor - 1) % c.nbElements]?, s)

/-- `getAverage()`. -/
def getAverage (time : ℕ) (s : State) : ℤ × State :=
  let (sum, s) := getSum c time s
  (toLong (sum.tdiv c.period), s)

/-- `getAverage(average_period)`, `none` when it throws. -/
def getAverageOf (averagePeriod : ℤ) (time : ℕ) (s : State) : Option ℤ × State :=
  let slots := if averagePeriod ≤ 0 then (c.nbElements : ℤ) - 2 else averagePeriod.tdiv c.refreshRate
  if clamp c slots = 1 then getPointValue c time s
  else
    let (sum, s) := getSumOf c (clamp c slots) time s
    let divisor := (toInt (c.period * clamp c slots)).tdiv (c.nbElements - 2)
    (if divisor = 0 then none else some (toLong (sum.tdiv divisor)), s)

/-- A call of a method. -/
inductive Call
  | addValue (value : ℤ)
  | getAverage
  | getAverageOf (averagePeriod : ℤ)
  | getSumOf (slots : ℤ)
  | getPointValue
  | clear

/-- The state after a call, with the time at which it is made. -/
def step (s : State) : ℕ × Call → State
  | (time, .addValue value) => addValue c value time s
  | (time, .getAverage) => (getAverage c time s).2
  | (time, .getAverageOf averagePeriod) => (getAverageOf c averagePeriod time s).2
  | (time, .getSumOf slots) => (getSumOf c slots time s).2
  | (time, .getPointValue) => (getPointValue c time s).2
  | (time, .clear) => new c time

/-! ### What has been added -/

/-- All that has been added since `clear`, each value with its slot. -/
def history (h : List (ℕ × ℤ)) : ℕ × Call → List (ℕ × ℤ)
  | (time, .addValue value) => h ++ [(time / c.refreshRate, value)]
  | (_, .clear) => []
  | _ => h

/-- What has been added in the `k` slots before `timeFactor`. -/
def window (k timeFactor : ℕ) (h : List (ℕ × ℤ)) : ℤ :=
  ((h.filter fun e => timeFactor ≤ e.1 + k ∧ e.1 < timeFactor).map Prod.snd).sum

/-- What has been added in the slot that lies `n` slots before `j`. -/
def slotSum (n j : ℕ) (h : List (ℕ × ℤ)) : ℤ :=
  ((h.filter fun e => e.1 + n = j).map Prod.snd).sum

theorem slotSum_append (n j : ℕ) (h : List (ℕ × ℤ)) (e : ℕ × ℤ) :
    slotSum n j (h ++ [e]) = slotSum n j h + if e.1 + n = j then e.2 else 0 := by
  unfold slotSum
  rw [List.filter_append, List.map_append, List.sum_append, List.filter_singleton]
  split_ifs with he <;> simp [he]

theorem sum_filter_add {p q r : ℕ × ℤ → Bool} (hr : ∀ e, r e = (p e || q e)) (hpq : ∀ e, ¬ (p e ∧ q e))
    (h : List (ℕ × ℤ)) : ((h.filter r).map Prod.snd).sum =
      ((h.filter p).map Prod.snd).sum + ((h.filter q).map Prod.snd).sum := by
  induction h with
  | nil => rfl
  | cons e h ih =>
    have hor := hr e
    have hand := hpq e
    cases hp : p e <;> cases hq : q e <;> rw [hp, hq] at hor hand <;>
      simp_all <;> omega

/-- The slots of a range, one after the other. -/
theorem sum_slotSum (n a k : ℕ) (h : List (ℕ × ℤ)) :
    ((List.range' a k).map fun j => slotSum n j h).sum =
      ((h.filter fun e => a ≤ e.1 + n ∧ e.1 + n < a + k).map Prod.snd).sum := by
  induction k with
  | zero =>
    have hnone : h.filter (fun e => a ≤ e.1 + n ∧ e.1 + n < a + 0) = [] :=
      List.filter_eq_nil_iff.2 fun e _ => by simp
    rw [hnone]
    rfl
  | succ k ih =>
    rw [List.range'_concat, List.map_append, List.sum_append, ih, List.map_singleton, List.sum_singleton, slotSum,
      Nat.one_mul]
    refine (sum_filter_add (fun e => ?_) (fun e => ?_) h).symm
    · rw [Bool.eq_iff_iff, Bool.or_eq_true]
      simp only [decide_eq_true_eq]
      omega
    · simp only [decide_eq_true_eq]
      omega

theorem window_eq (n : ℕ) {k timeFactor : ℕ} (hk : k ≤ timeFactor + n) (h : List (ℕ × ℤ)) :
    ((List.range' (timeFactor + n - k) k).map fun j => slotSum n j h).sum = window k timeFactor h := by
  have hp : ∀ e : ℕ × ℤ, timeFactor + n - k ≤ e.1 + n ∧ e.1 + n < timeFactor + n - k + k ↔
      timeFactor ≤ e.1 + k ∧ e.1 < timeFactor := fun e => by omega
  rw [sum_slotSum, window]
  simp only [hp]

/-! ### The ring -/

variable {c}

theorem toLong_toLong_add (x y : ℤ) : toLong (toLong x + y) = toLong (x + y) := by
  unfold toLong
  omega

/-- Less than a turn of the ring apart. -/
theorem mod_ne_mod {n i j : ℕ} (hij : i < j) (hlt : j < i + n) : i % n ≠ j % n := fun heq => by
  have hdvd := (Nat.modEq_iff_dvd' hij.le).1 heq
  have := Nat.le_of_dvd (by omega) hdvd
  omega

section Clear

variable {n a k : ℕ} {v : List ℤ}

theorem clearFrom_succ : clearFrom n a (k + 1) v = (clearFrom n a k v).set ((a + k) % n) 0 := by
  rw [clearFrom, List.range'_concat, List.foldl_append, Nat.one_mul]
  rfl

@[simp] theorem length_clearFrom : (clearFrom n a k v).length = v.length := by
  induction k with
  | zero => rfl
  | succ k ih => rw [clearFrom_succ, List.length_set, ih]

theorem getElem?_clearFrom {i : ℕ} (ha : a ≤ i) (hi : i < a + k) (hv : i % n < v.length) :
    (clearFrom n a k v)[i % n]? = some 0 := by
  induction k with
  | zero => omega
  | succ k ih =>
    have hlen : i % n < (clearFrom n a k v).length := by rwa [length_clearFrom]
    rw [clearFrom_succ, List.getElem?_set]
    by_cases heq : (a + k) % n = i % n
    · rw [if_pos heq, heq, if_pos hlen]
    · have hne : i ≠ a + k := fun he => heq (by rw [he])
      rw [if_neg heq]
      exact ih (by omega)

theorem getElem?_clearFrom_of_ne {j : ℕ} (hj : ∀ i, a ≤ i → i < a + k → i % n ≠ j) :
    (clearFrom n a k v)[j]? = v[j]? := by
  induction k with
  | zero => rfl
  | succ k ih =>
    rw [clearFrom_succ, List.getElem?_set_ne (hj (a + k) (by omega) (by omega)),
      ih fun i hlo hhi => hj i hlo (by omega)]

end Clear

/-- The elements against what has been added; all but the first one from the end are those of slots that can
be read. -/
structure Inv (c : Config) (s : State) (h : List (ℕ × ℤ)) : Prop where
  ahead : ∀ j, s.lastUpdate + c.nbElements < j → slotSum c.nbElements j h = 0
  none : s.values = none → ∀ j, slotSum c.nbElements j h = 0
  length : ∀ v ∈ s.values, v.length = c.nbElements
  cells : ∀ v ∈ s.values, ∀ j, s.lastUpdate + 2 ≤ j → j ≤ s.lastUpdate + 1 + c.nbElements →
    v[j % c.nbElements]? = some (toLong (slotSum c.nbElements j h))

theorem inv_update {s : State} {h : List (ℕ × ℤ)} (hs : Inv c s h) {timeFactor : ℕ}
    (htime : s.lastUpdate ≤ timeFactor) : Inv c (update c timeFactor s) h where
  ahead j hj := hs.ahead j (by simp only [update] at hj; omega)
  none hnone := hs.none (by simpa [update] using hnone)
  length v hv := by
    obtain ⟨v, hv', rfl⟩ := Option.map_eq_some_iff.1 hv
    rw [List.length_set, length_clearFrom, hs.length v hv']
  cells v hv j hlo hhi := by
    obtain ⟨v, hv', rfl⟩ := Option.map_eq_some_iff.1 hv
    have hn := c.three_le
    have hlen : j % c.nbElements < v.length := by
      rw [hs.length v hv']
      exact Nat.mod_lt _ (by omega)
    dsimp only [update] at hlo hhi
    generalize hlast : (if s.lastUpdate + c.nbElements < timeFactor then timeFactor - c.nbElements - 1
      else s.lastUpdate) = last
    have hle : s.lastUpdate ≤ last ∧ last ≤ timeFactor ∧
        (last = s.lastUpdate ∨ last + c.nbElements < timeFactor) := by
      split_ifs at hlast <;> omega
    have hnext : timeFactor + 1 = last + 1 + (timeFactor - last) := by omega
    rw [hnext, ← clearFrom_succ]
    by_cases hold : j ≤ last + c.nbElements
    · -- the slot has been there before, and no later one takes its element
      rw [getElem?_clearFrom_of_ne fun i hi hi' => mod_ne_mod (by omega) (by omega)]
      exact hs.cells v hv' j (by omega) (by omega)
    · have hmod : j % c.nbElements = (j - c.nbElements) % c.nbElements := Nat.mod_eq_sub_mod (by omega)
      rw [hs.ahead j (by omega), hmod]
      exact getElem?_clearFrom (by omega) (by omega) (by rwa [← hmod])

theorem inv_new (time : ℕ) : Inv c (new c time) [] where
  ahead _ _ := rfl
  none _ _ := rfl
  length := nofun
  cells := nofun

/-- The array is made when it is needed. -/
theorem inv_replicate {s : State} {h : List (ℕ × ℤ)} (hs : Inv c s h) (hnone : s.values = none) :
    Inv c { s with values := some (List.replicate c.nbElements 0) } h where
  ahead := hs.ahead
  none := nofun
  length v hv := by
    cases hv
    exact List.length_replicate
  cells v hv j _ _ := by
    have hn := c.three_le
    cases hv
    rw [hs.none hnone, List.getElem?_replicate_of_lt (Nat.mod_lt _ (by omega))]
    rfl

/-- A value comes to the current slot. -/
theorem inv_modify {lastUpdate : ℕ} {v : List ℤ} {h : List (ℕ × ℤ)} (hs : Inv c ⟨lastUpdate, some v⟩ h) (value : ℤ) :
    Inv c ⟨lastUpdate, some (v.modify (lastUpdate % c.nbElements) fun x => toLong (x + value))⟩
      (h ++ [(lastUpdate, value)]) where
  ahead j hj := by
    dsimp only at hj
    rw [slotSum_append, hs.ahead j hj, if_neg (by dsimp only; omega), add_zero]
  none := nofun
  length v' hv' := by
    cases hv'
    rw [List.length_modify, hs.length v rfl]
  cells v' hv' j hlo hhi := by
    have hn := c.three_le
    cases hv'
    dsimp only at hlo hhi
    rw [List.getElem?_modify, hs.cells v rfl j hlo hhi, slotSum_append]
    by_cases hj : lastUpdate + c.nbElements = j
    · have hmod : lastUpdate % c.nbElements = j % c.nbElements := by rw [← hj, Nat.add_mod_right]
      rw [if_pos hj]
      simp only [hmod, ↓reduceIte, Option.map_eq_map, Option.map_some, toLong_toLong_add]
    · have hmod : ¬ lastUpdate % c.nbElements = j % c.nbElements := by
        rcases lt_or_gt_of_ne hj with hlt | hgt
        · rw [← Nat.add_mod_right lastUpdate]
          exact mod_ne_mod hlt (by omega)
        · exact mod_ne_mod (by omega) (by omega)
      rw [if_neg hj, add_zero]
      simp only [hmod, ↓reduceIte, Option.map_eq_map, Option.map_some]

theorem inv_addValue {s : State} {h : List (ℕ × ℤ)} (hs : Inv c s h) (value : ℤ) {time : ℕ}
    (htime : s.lastUpdate ≤ time / c.refreshRate) :
    Inv c (addValue c value time s) (h ++ [(time / c.refreshRate, value)]) ∧
      (addValue c value time s).lastUpdate ≤ time / c.refreshRate := by
  obtain ⟨lastUpdate, values⟩ := s
  cases values with
  | none =>
    by_cases hvalue : value = 0
    · have hsum : ∀ j, slotSum c.nbElements j (h ++ [(time / c.refreshRate, value)]) = 0 := fun j => by
        rw [slotSum_append, hs.none rfl, hvalue, ite_self, add_zero]
      simp only [addValue, hvalue, ne_eq, not_true_eq_false, and_false, ↓reduceIte]
      rw [hvalue] at hsum
      exact ⟨⟨fun j _ => hsum j, fun _ => hsum, nofun, nofun⟩, htime⟩
    · simp only [addValue, ne_eq, hvalue, not_false_eq_true, and_self, ↓reduceIte]
      exact ⟨inv_modify (inv_update (inv_replicate hs rfl) htime) value, le_rfl⟩
  | some v =>
    simp only [addValue, reduceCtorEq, false_and, ↓reduceIte]
    exact ⟨inv_modify (inv_update hs htime) value, le_rfl⟩

/-! ### Reading -/

theorem foldl_toLong {f g : ℕ → ℤ} {l : List ℕ} (hfg : ∀ j ∈ l, f j = toLong (g j)) (x : ℤ) :
    l.foldl (fun sum j => toLong (sum + f j)) (toLong x) = toLong (x + (l.map g).sum) := by
  induction l generalizing x with
  | nil => rw [List.foldl_nil, List.map_nil, List.sum_nil, add_zero]
  | cons j l ih =>
    obtain ⟨hj, hl⟩ := List.forall_mem_cons.1 hfg
    have hadd : toLong (toLong x + f j) = toLong (x + g j) := by
      rw [hj, toLong_toLong_add, add_comm, toLong_toLong_add, add_comm]
    rw [List.foldl_cons, hadd, ih hl, List.map_cons, List.sum_cons, add_assoc]

/-- The slots that are complete, the last `k` of them. -/
theorem sumFrom_eq {s : State} {h : List (ℕ × ℤ)} (hs : Inv c s h) {k : ℕ} (hk : k ≤ c.nbElements - 2) :
    sumFrom c (s.lastUpdate + c.nbElements - k) k s = toLong (window k s.lastUpdate h) := by
  have hn := c.three_le
  rw [← window_eq c.nbElements (by omega)]
  unfold sumFrom
  cases hv : s.values with
  | none =>
    have hzero : (List.range' (s.lastUpdate + c.nbElements - k) k).map
        (fun j => slotSum c.nbElements j h) = (List.range' (s.lastUpdate + c.nbElements - k) k).map fun _ => 0 :=
      List.map_congr_left fun j _ => hs.none hv j
    rw [hzero]
    simp [toLong]
  | some v =>
    have hcell : ∀ j ∈ List.range' (s.lastUpdate + c.nbElements - k) k,
        v.getD (j % c.nbElements) 0 = toLong (slotSum c.nbElements j h) := fun j hj => by
      rw [List.mem_range'_1] at hj
      rw [List.getD_eq_getElem?_getD, hs.cells v hv j (by omega) (by omega)]
      rfl
    have hsum := foldl_toLong hcell 0
    rw [zero_add] at hsum
    exact hsum

theorem clamp_le (slots : ℤ) : clamp c slots ≤ c.nbElements - 2 := by
  have hn := c.three_le
  unfold clamp
  split_ifs <;> omega

section Calls

variable {s : State} {h : List (ℕ × ℤ)} {time : ℕ}

/-- A clean-up at the time of a call. -/
theorem inv_update_at (hs : Inv c s h) (htime : s.lastUpdate ≤ time / c.refreshRate) :
    Inv c (update c (time / c.refreshRate) s) h ∧
      (update c (time / c.refreshRate) s).lastUpdate ≤ time / c.refreshRate :=
  ⟨inv_update hs htime, le_rfl⟩

theorem getSum_eq (hs : Inv c s h) (htime : s.lastUpdate ≤ time / c.refreshRate) :
    (getSum c time s).1 = toLong (window (c.nbElements - 2) (time / c.refreshRate) h) := by
  have hn := c.three_le
  have hsum := sumFrom_eq (inv_update hs htime) le_rfl
  have hstart : time / c.refreshRate + c.nbElements - (c.nbElements - 2) = time / c.refreshRate + 2 := by omega
  rw [show (update c (time / c.refreshRate) s).lastUpdate = time / c.refreshRate from rfl, hstart] at hsum
  unfold getSum
  cases hv : s.values with
  | none =>
    have hempty : (update c (time / c.refreshRate) s).values = none := by simp [update, hv]
    rwa [sumFrom, hempty] at hsum
  | some v => exact hsum

theorem getSumOf_eq (hs : Inv c s h) (htime : s.lastUpdate ≤ time / c.refreshRate) (slots : ℤ) :
    (getSumOf c slots time s).1 = toLong (window (clamp c slots) (time / c.refreshRate) h) :=
  sumFrom_eq (inv_update hs htime) (clamp_le slots)

theorem inv_getSum (hs : Inv c s h) (htime : s.lastUpdate ≤ time / c.refreshRate) :
    Inv c (getSum c time s).2 h ∧ (getSum c time s).2.lastUpdate ≤ time / c.refreshRate := by
  unfold getSum
  cases s.values with
  | none => exact ⟨hs, htime⟩
  | some v => exact inv_update_at hs htime

theorem inv_getPointValue (hs : Inv c s h) (htime : s.lastUpdate ≤ time / c.refreshRate) :
    Inv c (getPointValue c time s).2 h ∧ (getPointValue c time s).2.lastUpdate ≤ time / c.refreshRate := by
  have hstate : (getPointValue c time s).2 = update c (time / c.refreshRate) s := by
    unfold getPointValue
    dsimp only
    split <;> rfl
  rw [hstate]
  exact inv_update_at hs htime

/-- A call keeps each element as it should be. -/
theorem inv_step (hs : Inv c s h) (call : Call) (htime : s.lastUpdate ≤ time / c.refreshRate) :
    Inv c (step c s (time, call)) (history c h (time, call)) ∧
      (step c s (time, call)).lastUpdate ≤ time / c.refreshRate := by
  cases call with
  | addValue value => exact inv_addValue hs value htime
  | getAverage => exact inv_getSum hs htime
  | getAverageOf averagePeriod =>
    generalize hslots : (if averagePeriod ≤ 0 then (c.nbElements : ℤ) - 2
      else averagePeriod.tdiv c.refreshRate) = slots
    simp only [step, history, getAverageOf, hslots]
    split_ifs
    · exact inv_getPointValue hs htime
    · exact inv_update_at hs htime
    · exact inv_update_at hs htime
  | getSumOf slots => exact inv_update_at hs htime
  | getPointValue => exact inv_getPointValue hs htime
  | clear => exact ⟨inv_new time, le_rfl⟩

/-- Any calls, the last of which is followed by a time that is not earlier. -/
theorem inv_run {calls : List (ℕ × Call)} {t : ℕ} (hs : Inv c s h)
    (htime : s.lastUpdate ≤ time / c.refreshRate)
    (horder : (time :: (calls.map Prod.fst ++ [t])).Pairwise (· ≤ ·)) :
    Inv c (calls.foldl (step c) s) (calls.foldl (history c) h) ∧
      (calls.foldl (step c) s).lastUpdate ≤ t / c.refreshRate := by
  induction calls generalizing s h time with
  | nil =>
    have hle := (List.pairwise_cons.1 horder).1 t (by simp)
    exact ⟨hs, htime.trans (Nat.div_le_div_right hle)⟩
  | cons call calls ih =>
    obtain ⟨t', call⟩ := call
    obtain ⟨hfirst, hrest⟩ := List.pairwise_cons.1 horder
    have hle := hfirst t' (by simp)
    obtain ⟨hinv, hlast⟩ := inv_step hs call (htime.trans (Nat.div_le_div_right hle))
    exact ih hinv hlast hrest

end Calls

section Run

variable {t₀ t : ℕ} {calls : List (ℕ × Call)}

/-- As long as the clock does not go back, the average is that of what has been added in the last period of
complete slots, however the calls lie in time.  The period in milliseconds must be an `int`; where it wraps, the
ring is too short for it. -/
theorem getAverage_of_run (hperiod : IsInt (c.period * 1000))
    (horder : (t₀ :: (calls.map Prod.fst ++ [t])).Pairwise (· ≤ ·)) :
    (getAverage c t (calls.foldl (step c) (new c t₀))).1 =
      toLong ((toLong (window c.slots (t / c.refreshRate) (calls.foldl (history c) []))).tdiv c.period) := by
  obtain ⟨hinv, hlast⟩ := inv_run (inv_new t₀) le_rfl horder
  have hslots : c.nbElements - 2 = c.slots := by
    rw [Config.nbElements_eq hperiod]
    rfl
  rw [← hslots, ← getSum_eq hinv hlast]
  rfl

/-- The same for fewer slots. -/
theorem getSumOf_of_run (horder : (t₀ :: (calls.map Prod.fst ++ [t])).Pairwise (· ≤ ·)) (slots : ℤ) :
    (getSumOf c slots t (calls.foldl (step c) (new c t₀))).1 =
      toLong (window (clamp c slots) (t / c.refreshRate) (calls.foldl (history c) [])) := by
  obtain ⟨hinv, hlast⟩ := inv_run (inv_new t₀) le_rfl horder
  exact getSumOf_eq hinv hlast slots

end Run

/-- `Average.getInstance(1000, 20)`. -/
def streamRate : Config := ⟨1000, 20, by decide, by decide⟩

example : getInstance 1000 20 = some streamRate := rfl

theorem getAverage_of_run_stream :
    (getAverage streamRate 9000 ([(500, .addValue 700), (1200, .addValue 80), (9000, .addValue 5)].foldl
      (step streamRate) (new streamRate 0))).1 = 39 :=
  getAverage_of_run (by decide) (show (0 :: ([(500, Call.addValue 700), (1200, .addValue 80), (9000, .addValue 5)].map
    Prod.fst ++ [9000])).Pairwise (· ≤ ·) by decide)

theorem getSumOf_of_run_stream :
    (getSumOf streamRate 2 3000 ([(500, .addValue 700), (1200, .addValue 80), (2900, .addValue 5)].foldl
      (step streamRate) (new streamRate 0))).1 = 85 :=
  getSumOf_of_run (show (0 :: ([(500, Call.addValue 700), (1200, .addValue 80), (2900, .addValue 5)].map
    Prod.fst ++ [3000])).Pairwise (· ≤ ·) by decide) 2

end P2Player.Average
