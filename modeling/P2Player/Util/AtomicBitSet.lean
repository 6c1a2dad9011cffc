import P2Player.Java.Integer
import P2Player.Lib.Linearizable

/-!
# A bit set for several threads

`AtomicBitSet` keeps 32 bits in each element of an `AtomicIntegerArray`.  `set` and `clear` read an
element and replace it by `compareAndSet`, and try again when it has been changed in between; they
return at once when nothing is to be changed.

* `Call`, `Phase`, `State`, `step`: the threads, with the accesses to the array as atomic steps;
* `setObject`: a set of integers;
* `members`: the integers whose bits are set;
* `newArray_eq_some_iff`: the lengths for which the constructor does not throw;
* `simulates`: each step is one of the set's, or none;
* `linearizable`: all runs are linearizable, and the array holds the linearized set.
-/

namespace P2Player.AtomicBitSet

open Java Transition

/-! ### The code -/

/-- `1 << n`, where only the last five bits of `n` count. -/
def bit (n : ℤ) : BitVec 32 := 1#32 <<< (n % 32).toNat

/-- `n >>> 5`. -/
def idx (n : ℤ) : ℕ := (n % 4294967296 / 32).toNat

/-- A call of a method. -/
inductive Call
  | set (n : ℤ)
  | get (n : ℤ)
  | clear (n : ℤ)

/-- The argument. -/
def Call.arg : Call → ℤ
  | .set n => n
  | .get n => n
  | .clear n => n

/-- Where a thread is: outside, before `array.get`, before `compareAndSet`, or before it returns; or an
`IndexOutOfBoundsException` has been thrown. -/
inductive Phase
  | idle
  | reading (call : Call)
  | comparing (call : Call) (num num2 : BitVec 32)
  | returning (result : Option Bool)
  | threw

/-- The array and the threads. -/
structure State (T : Type*) where
  array : List (BitVec 32)
  phase : T → Phase

/-- `AtomicBitSet(length)`, unless it throws a `NegativeArraySizeException`. -/
def newArray (length : ℤ) : Option (List (BitVec 32)) :=
  let intLength := (toInt (length + 31)).tdiv 32
  if intLength < 0 then none else some (List.replicate intLength.toNat 0#32)

/-- No thread has called a method. -/
def init {T : Type*} (array : List (BitVec 32)) : State T := ⟨array, fun _ => .idle⟩

/-- After `num` has been read. -/
def Call.afterRead (num : BitVec 32) : Call → Phase
  | .set n =>
    let num2 := num ||| bit n
    if num = num2 then .returning none else .comparing (.set n) num num2
  | .get n => .returning (some (num &&& bit n != 0#32))
  | .clear n =>
    let num2 := num &&& ~~~bit n
    if num = num2 then .returning none else .comparing (.clear n) num num2

/-- A call, an access to the array, or a return. -/
inductive Action (T : Type*)
  | invoke (t : T) (call : Call)
  | get (t : T)
  | compareAndSet (t : T)
  | respond (t : T) (result : Option Bool)

variable {T : Type*}

/-- A thread goes on. -/
def State.goto [DecidableEq T] (s : State T) (t : T) (phase : Phase) : State T :=
  { s with phase := Function.update s.phase t phase }

/-- One step. -/
def step [DecidableEq T] (s : State T) : Action T → Option (State T)
  | .invoke t call =>
    match s.phase t with
    | .idle => some (s.goto t (.reading call))
    | _ => none
  | .get t =>
    match s.phase t with
    | .reading call =>
      match s.array[idx call.arg]? with
      | some num => some (s.goto t (call.afterRead num))
      | none => some (s.goto t .threw)
    | _ => none
  | .compareAndSet t =>
    match s.phase t with
    | .comparing call num num2 =>
      match s.array[idx call.arg]? with
      | some current =>
        if current = num then
          some ({ s with array := s.array.set (idx call.arg) num2 }.goto t (.returning none))
        else some (s.goto t (.reading call))
      | none => some (s.goto t .threw)
    | _ => none
  | .respond t result =>
    match s.phase t with
    | .returning result' => if result' = result then some (s.goto t .idle) else none
    | _ => none

/-- What is seen of a step. -/
def Action.event : Action T → Option (Concurrent.Event T Call (Option Bool))
  | .invoke t call => some (.invoke t call)
  | .get _ => none
  | .compareAndSet _ => none
  | .respond t result => some (.respond t result)

/-- The indices of calls are below `length`. -/
def Action.InRange (length : ℤ) : Action T → Prop
  | .invoke _ call => 0 ≤ call.arg ∧ call.arg < length
  | _ => True

instance (length : ℤ) : DecidablePred (Action.InRange (T := T) length)
  | .invoke _ call => inferInstanceAs (Decidable (0 ≤ call.arg ∧ call.arg < length))
  | .get _ | .compareAndSet _ | .respond _ _ => .isTrue trivial

/-! ### A set of integers -/

open Classical in
/-- A set with its insertion, removal and membership test. -/
noncomputable def setObject : Concurrent.Object Call (Option Bool) (Set ℤ) where
  init := ∅
  apply
    | .set n, s => (insert n s, none)
    | .get n, s => (s, some (decide (n ∈ s)))
    | .clear n, s => (s \ {n}, none)

theorem apply_get_eq_iff {n : ℤ} {s : Set ℤ} {b : Bool} :
    (setObject.apply (.get n) s).2 = some b ↔ (n ∈ s ↔ b = true) := by
  by_cases hn : n ∈ s <;> cases b <;> simp [setObject, hn]

/-- Whether the last `set(n)` or `clear(n)` is a `set(n)`; `b` if there is none. -/
def lastUpdate (n : ℤ) (b : Bool) : List (Concurrent.Entry T Call (Option Bool)) → Bool
  | [] => b
  | ⟨_, .set m, _⟩ :: log => lastUpdate n (if m = n then true else b) log
  | ⟨_, .get _, _⟩ :: log => lastUpdate n b log
  | ⟨_, .clear m, _⟩ :: log => lastUpdate n (if m = n then false else b) log

/-- The integers whose bits are set. -/
def members (array : List (BitVec 32)) : Set ℤ :=
  {n | 0 ≤ n ∧ (array.getD (n / 32).toNat 0#32).getLsbD (n % 32).toNat = true}

/-! ### Bits -/

/-- The position of the bit in its element. -/
theorem getLsbD_bit (n : ℤ) (i : ℕ) : (bit n).getLsbD i = decide (i = (n % 32).toNat) := by
  have hlt : (n % 32).toNat < 32 := by omega
  rw [bit, BitVec.getLsbD_shiftLeft, BitVec.getLsbD_one]
  rcases lt_trichotomy i (n % 32).toNat with h | rfl | h
  · simp [h, h.ne]
  · simp [hlt]
  · have hne : i ≠ (n % 32).toNat := h.ne'
    have hsub : i - (n % 32).toNat ≠ 0 := by omega
    simp [hne, hsub]

theorem or_bit_eq_iff {num : BitVec 32} {n : ℤ} :
    num = num ||| bit n ↔ num.getLsbD (n % 32).toNat = true := by
  constructor
  · intro h
    rw [h, BitVec.getLsbD_or, getLsbD_bit]
    simp
  · intro h
    apply BitVec.eq_of_getLsbD_eq
    intro i hi
    rw [BitVec.getLsbD_or, getLsbD_bit]
    by_cases hin : i = (n % 32).toNat
    · simp [hin, h]
    · simp [hin]

theorem and_not_bit_eq_iff {num : BitVec 32} {n : ℤ} :
    num = num &&& ~~~bit n ↔ num.getLsbD (n % 32).toNat = false := by
  constructor
  · intro h
    rw [h, BitVec.getLsbD_and, BitVec.getLsbD_not, getLsbD_bit]
    simp
  · intro h
    apply BitVec.eq_of_getLsbD_eq
    intro i hi
    rw [BitVec.getLsbD_and, BitVec.getLsbD_not, getLsbD_bit]
    by_cases hin : i = (n % 32).toNat
    · simp [hin, h]
    · simp [hin, hi]

theorem and_bit_ne_zero_iff {num : BitVec 32} {n : ℤ} :
    (num &&& bit n != 0#32) = num.getLsbD (n % 32).toNat := by
  have hlt : (n % 32).toNat < 32 := by omega
  cases h : num.getLsbD (n % 32).toNat with
  | true =>
    rw [bne_iff_ne]
    intro hzero
    have hbit := congrArg (fun x => x.getLsbD (n % 32).toNat) hzero
    simp [getLsbD_bit, h] at hbit
  | false =>
    rw [bne_eq_false_iff_eq]
    apply BitVec.eq_of_getLsbD_eq
    intro i hi
    rw [BitVec.getLsbD_and, getLsbD_bit, BitVec.getLsbD_zero]
    by_cases hin : i = (n % 32).toNat
    · simp [hin, h]
    · simp [hin]

/-! ### The members of an array -/

/-- The numbers that a call may be about: they are `int`s. -/
theorem idx_eq {n : ℤ} (h0 : 0 ≤ n) (hn : n < 2147483648) : idx n = (n / 32).toNat := by
  unfold idx
  congr 2
  omega

/-- An integer is given by its element and its bit. -/
theorem eq_iff_position {m n : ℤ} (hm : 0 ≤ m) (hn : 0 ≤ n) :
    m = n ↔ (m / 32).toNat = (n / 32).toNat ∧ (m % 32).toNat = (n % 32).toNat := by
  omega

theorem mem_members {array : List (BitVec 32)} {n : ℤ} (h0 : 0 ≤ n) (hn : n < 2147483648)
    {num : BitVec 32} (hnum : array[idx n]? = some num) :
    n ∈ members array ↔ num.getLsbD (n % 32).toNat = true := by
  rw [idx_eq h0 hn] at hnum
  simp only [members, Set.mem_ofPred_eq, List.getD_eq_getElem?_getD, hnum, Option.getD_some, h0, true_and]

/-- Replacing an element keeps the membership of an integer with another position, and of all whose
bits are kept. -/
theorem mem_members_set {array : List (BitVec 32)} {n m : ℤ} (h0 : 0 ≤ n) (hn : n < 2147483648)
    {num num2 : BitVec 32} (hnum : array[idx n]? = some num)
    (hother : ∀ i < 32, i ≠ (n % 32).toNat → num2.getLsbD i = num.getLsbD i) (hmn : m ≠ n) :
    m ∈ members (array.set (idx n) num2) ↔ m ∈ members array := by
  rw [idx_eq h0 hn] at hnum ⊢
  simp only [members, Set.mem_ofPred_eq, List.getD_eq_getElem?_getD]
  refine and_congr_right fun hm => ?_
  by_cases hidx : (m / 32).toNat = (n / 32).toNat
  · have hbit : (m % 32).toNat ≠ (n % 32).toNat :=
      fun h => hmn ((eq_iff_position hm h0).2 ⟨hidx, h⟩)
    obtain ⟨hlt, -⟩ := List.getElem?_eq_some_iff.1 hnum
    rw [hidx, List.getElem?_set_self hlt, hnum, Option.getD_some, Option.getD_some,
      hother _ (by omega) hbit]
  · rw [List.getElem?_set_ne (Ne.symm hidx)]

theorem mem_members_set_self {array : List (BitVec 32)} {n : ℤ} (h0 : 0 ≤ n) (hn : n < 2147483648)
    {num num2 : BitVec 32} (hnum : array[idx n]? = some num) :
    n ∈ members (array.set (idx n) num2) ↔ num2.getLsbD (n % 32).toNat = true := by
  obtain ⟨hlt, -⟩ := List.getElem?_eq_some_iff.1 hnum
  exact mem_members h0 hn (List.getElem?_set_self hlt)

theorem members_set_or {array : List (BitVec 32)} {n : ℤ} (h0 : 0 ≤ n) (hn : n < 2147483648)
    {num : BitVec 32} (hnum : array[idx n]? = some num) :
    members (array.set (idx n) (num ||| bit n)) = insert n (members array) := by
  ext m
  rw [Set.mem_insert_iff]
  by_cases hmn : m = n
  · subst hmn
    rw [mem_members_set_self h0 hn hnum, BitVec.getLsbD_or, getLsbD_bit]
    simp
  · rw [mem_members_set h0 hn hnum _ hmn, or_iff_right hmn]
    intro i _ hi
    rw [BitVec.getLsbD_or, getLsbD_bit]
    simp [hi]

theorem members_set_and_not {array : List (BitVec 32)} {n : ℤ} (h0 : 0 ≤ n) (hn : n < 2147483648)
    {num : BitVec 32} (hnum : array[idx n]? = some num) :
    members (array.set (idx n) (num &&& ~~~bit n)) = members array \ {n} := by
  ext m
  rw [Set.mem_sdiff, Set.mem_singleton_iff]
  by_cases hmn : m = n
  · subst hmn
    rw [mem_members_set_self h0 hn hnum, BitVec.getLsbD_and, BitVec.getLsbD_not, getLsbD_bit]
    simp
  · rw [mem_members_set h0 hn hnum _ hmn, and_iff_left hmn]
    intro i hlt hi
    rw [BitVec.getLsbD_and, BitVec.getLsbD_not, getLsbD_bit]
    simp [hi, hlt]

theorem members_replicate (k : ℕ) : members (List.replicate k 0#32) = ∅ := by
  ext n
  simp only [members, Set.mem_ofPred_eq, Set.mem_empty_iff_false, iff_false, not_and]
  intro _
  rw [List.getD_eq_getElem?_getD, List.getElem?_replicate]
  split_ifs <;> simp

/-! ### The simulation -/

theorem tdiv_neg_iff {x : ℤ} : x.tdiv 32 < 0 ↔ x ≤ -32 := by
  rcases le_or_gt 0 x with hx | hx
  · have hquot := Int.tdiv_nonneg hx (show (0 : ℤ) ≤ 32 by decide)
    omega
  · have hneg : (-x).tdiv 32 = -x / 32 := Int.tdiv_eq_ediv_of_nonneg (by omega)
    rw [Int.neg_tdiv] at hneg
    omega

/-- The lengths for which the constructor does not throw: the sum with 31 of a longer one wraps around. -/
theorem newArray_eq_some_iff {length : ℤ} (hint : IsInt length) {array : List (BitVec 32)} :
    newArray length = some array ↔ -63 < length ∧ length ≤ 2147483616 ∧
      array = List.replicate ((length + 31).tdiv 32).toNat 0#32 := by
  obtain ⟨hmin, hmax⟩ := hint
  unfold newArray
  dsimp only
  by_cases hsum : length ≤ 2147483616
  · have hwrap : toInt (length + 31) = length + 31 := by
      unfold toInt
      omega
    rw [hwrap, Option.ite_none_left_eq_some, Option.some_inj, tdiv_neg_iff, eq_comm (b := array)]
    constructor
    · rintro ⟨hneg, harray⟩
      exact ⟨by omega, hsum, harray⟩
    · rintro ⟨hneg, -, harray⟩
      exact ⟨by omega, harray⟩
  · have hneg : (toInt (length + 31)).tdiv 32 < 0 := by
      rw [tdiv_neg_iff]
      unfold toInt
      omega
    rw [if_pos hneg]
    exact ⟨fun h => (by cases h), fun ⟨_, hle, _⟩ => absurd hle hsum⟩

/-- An index is inside an array that has been created for the length. -/
theorem idx_lt_of_newArray {length n : ℤ} (hint : IsInt length) {array : List (BitVec 32)}
    (hnew : newArray length = some array) (h0 : 0 ≤ n) (hn : n < length) : idx n < array.length := by
  obtain ⟨-, hmax, rfl⟩ := (newArray_eq_some_iff hint).1 hnew
  rw [idx_eq h0 (by omega), List.length_replicate, Int.tdiv_eq_ediv_of_nonneg (by omega)]
  omega

/-- How far a call is, and the values it has read. -/
def PhaseRel (length : ℤ) : Phase → Concurrent.Status Call (Option Bool) → Prop
  | .idle, .idle => True
  | .reading call, .pending call' => call' = call ∧ 0 ≤ call.arg ∧ call.arg < length
  | .comparing call num num2, .pending call' =>
    call' = call ∧ 0 ≤ call.arg ∧ call.arg < length ∧ call.afterRead num = .comparing call num num2
  | .returning result, .done result' => result' = result
  | _, _ => False

/-- The set has the members of the array, which is long enough, and its threads are as far. -/
structure Rel (length : ℤ) (s : State T)
    (a : Concurrent.State T Call (Option Bool) (Set ℤ)) : Prop where
  value_eq : a.value = members s.array
  idx_lt : ∀ n, 0 ≤ n → n < length → idx n < s.array.length
  phase : ∀ t, PhaseRel length (s.phase t) (a.status t)

section PhaseRel

variable {length : ℤ} {st : Concurrent.Status Call (Option Bool)}

theorem phaseRel_idle : PhaseRel length .idle st ↔ st = .idle := by
  cases st <;> simp [PhaseRel]

theorem phaseRel_reading {call : Call} : PhaseRel length (.reading call) st ↔
    st = .pending call ∧ 0 ≤ call.arg ∧ call.arg < length := by
  cases st <;> simp [PhaseRel]

theorem phaseRel_comparing {call : Call} {num num2 : BitVec 32} :
    PhaseRel length (.comparing call num num2) st ↔ st = .pending call ∧ 0 ≤ call.arg ∧
      call.arg < length ∧ call.afterRead num = .comparing call num num2 := by
  cases st <;> simp [PhaseRel]

theorem phaseRel_returning {result : Option Bool} :
    PhaseRel length (.returning result) st ↔ st = .done result := by
  cases st <;> simp [PhaseRel]

end PhaseRel

theorem phaseRel_update [DecidableEq T] {length : ℤ} {phase : T → Phase}
    {status : T → Concurrent.Status Call (Option Bool)}
    (h : ∀ t, PhaseRel length (phase t) (status t)) {t : T} {p : Phase}
    {st : Concurrent.Status Call (Option Bool)} (hp : PhaseRel length p st) (t' : T) :
    PhaseRel length (Function.update phase t p t') (Function.update status t st t') := by
  by_cases ht : t' = t
  · subst ht
    rwa [Function.update_self, Function.update_self]
  · rw [Function.update_of_ne ht, Function.update_of_ne ht]
    exact h t'

/-- A call that returns after reading takes effect there. -/
theorem apply_of_returning {array : List (BitVec 32)} {call : Call} {num : BitVec 32}
    {result : Option Bool} (h0 : 0 ≤ call.arg) (hn : call.arg < 2147483648)
    (hnum : array[idx call.arg]? = some num) (h : call.afterRead num = .returning result) :
    setObject.apply call (members array) = (members array, result) := by
  have hmem := mem_members h0 hn hnum
  cases call with
  | set n =>
    simp only [Call.afterRead] at h
    split_ifs at h with heq
    cases h
    exact Prod.ext (Set.insert_eq_of_mem (hmem.2 (or_bit_eq_iff.1 heq))) rfl
  | get n =>
    simp only [Call.afterRead, and_bit_ne_zero_iff] at h
    cases h
    exact Prod.ext rfl (apply_get_eq_iff.2 hmem)
  | clear n =>
    simp only [Call.afterRead] at h
    split_ifs at h with heq
    cases h
    have hnot : n ∉ members array := by
      intro hin
      have hbit := hmem.1 hin
      rw [Call.arg, and_not_bit_eq_iff.1 heq] at hbit
      cases hbit
    exact Prod.ext (Set.sdiff_singleton_eq_self hnot) rfl

/-- A call that replaces the element it has read takes effect there. -/
theorem apply_of_comparing {array : List (BitVec 32)} {call : Call} {num num2 : BitVec 32}
    (h0 : 0 ≤ call.arg) (hn : call.arg < 2147483648) (hnum : array[idx call.arg]? = some num)
    (h : call.afterRead num = .comparing call num num2) :
    setObject.apply call (members array) = (members (array.set (idx call.arg) num2), none) := by
  cases call with
  | set n =>
    simp only [Call.afterRead] at h
    split_ifs at h
    cases h
    exact Prod.ext (members_set_or h0 hn hnum).symm rfl
  | get n => cases h
  | clear n =>
    simp only [Call.afterRead] at h
    split_ifs at h
    cases h
    exact Prod.ext (members_set_and_not h0 hn hnum).symm rfl

/-- What the read leads to: the call returns, or it goes on to `compareAndSet`. -/
theorem afterRead_cases (num : BitVec 32) (call : Call) :
    (∃ result, call.afterRead num = .returning result) ∨
      ∃ num2, call.afterRead num = .comparing call num num2 := by
  cases call with
  | set n =>
    simp only [Call.afterRead]
    split_ifs
    · exact Or.inl ⟨_, rfl⟩
    · exact Or.inr ⟨_, rfl⟩
  | get n => exact Or.inl ⟨_, rfl⟩
  | clear n =>
    simp only [Call.afterRead]
    split_ifs
    · exact Or.inl ⟨_, rfl⟩
    · exact Or.inr ⟨_, rfl⟩

/-- A step that does nothing to the set. -/
theorem Rel.goto_pending [DecidableEq T] {length : ℤ} {s : State T}
    {a : Concurrent.State T Call (Option Bool) (Set ℤ)} (h : Rel length s a) {t : T} {call : Call}
    (hst : a.status t = .pending call) {p : Phase} (hp : PhaseRel length p (.pending call)) :
    Rel length (s.goto t p) a := by
  refine ⟨h.value_eq, h.idx_lt, ?_⟩
  have hupdate := phaseRel_update h.phase (t := t) hp
  rw [← hst, Function.update_eq_self] at hupdate
  exact hupdate

/-- A pending call takes effect. -/
theorem Rel.linearize [DecidableEq T] {length : ℤ} {s : State T}
    {a : Concurrent.State T Call (Option Bool) (Set ℤ)} (h : Rel length s a) {t : T} {call : Call}
    (hst : a.status t = .pending call) {array : List (BitVec 32)} {result : Option Bool}
    (happly : setObject.apply call (members s.array) = (members array, result))
    (hlength : array.length = s.array.length) :
    ∃ a', run (Concurrent.step setObject) a [.linearize t] = some a' ∧
      Rel length ({ s with array := array }.goto t (.returning result)) a' := by
  rw [← h.value_eq] at happly
  refine ⟨⟨members array, Function.update a.status t (.done result), a.log ++ [⟨t, call, result⟩]⟩,
    ?_, rfl, fun n h0 hn => ?_, phaseRel_update h.phase (phaseRel_returning.2 rfl)⟩
  · rw [run_cons, Concurrent.step]
    simp only [hst, happly]
    rfl
  · rw [State.goto, hlength]
    exact h.idx_lt n h0 hn

/-- The element of a call is there. -/
theorem Rel.exists_getElem? {length : ℤ} {s : State T}
    {a : Concurrent.State T Call (Option Bool) (Set ℤ)} (h : Rel length s a) {n : ℤ} (h0 : 0 ≤ n)
    (hn : n < length) : ∃ num, s.array[idx n]? = some num :=
  ⟨_, List.getElem?_eq_getElem (h.idx_lt n h0 hn)⟩

/-- **Each step is matched by one step of the set, or by none.** -/
theorem simulates [DecidableEq T] {length : ℤ} (hint : IsInt length) {s s' : State T} {act : Action T}
    {a : Concurrent.State T Call (Option Bool) (Set ℤ)} (h : Rel length s a)
    (hrange : act.InRange length) (hstep : step s act = some s') :
    ∃ w a', run (Concurrent.step setObject) a w = some a' ∧
      w.filterMap Concurrent.Step.event = act.event.toList ∧ Rel length s' a' := by
  have hmax := hint.2
  cases act with
  | invoke t call =>
    have ht := h.phase t
    simp only [step] at hstep
    split at hstep <;> cases hstep
    rename_i hphase
    rw [hphase, phaseRel_idle] at ht
    refine ⟨[.invoke t call], { a with status := Function.update a.status t (.pending call) }, ?_, rfl,
      h.value_eq, h.idx_lt, phaseRel_update h.phase (phaseRel_reading.2 ⟨rfl, hrange⟩)⟩
    simp [run, Concurrent.step, ht]
  | get t =>
    have ht := h.phase t
    simp only [step] at hstep
    split at hstep
    · rename_i call hphase
      rw [hphase, phaseRel_reading] at ht
      obtain ⟨hst, h0, hn⟩ := ht
      obtain ⟨num, hnum⟩ := h.exists_getElem? h0 hn
      rw [hnum] at hstep
      cases hstep
      rcases afterRead_cases num call with ⟨result, hread⟩ | ⟨num2, hread⟩
      · -- the call takes effect at this read
        obtain ⟨a', ha', hR⟩ :=
          h.linearize hst (apply_of_returning h0 (by omega) hnum hread) rfl
        rw [hread]
        exact ⟨_, a', ha', rfl, hR⟩
      · rw [hread]
        exact ⟨[], a, rfl, rfl, h.goto_pending hst (phaseRel_comparing.2 ⟨rfl, h0, hn, hread⟩)⟩
    · cases hstep
  | compareAndSet t =>
    have ht := h.phase t
    simp only [step] at hstep
    split at hstep
    · rename_i call num num2 hphase
      rw [hphase, phaseRel_comparing] at ht
      obtain ⟨hst, h0, hn, hread⟩ := ht
      obtain ⟨current, hcurrent⟩ := h.exists_getElem? h0 hn
      rw [hcurrent] at hstep
      dsimp only at hstep
      split_ifs at hstep with heq
      · -- the element is still the one that was read
        cases hstep
        subst heq
        obtain ⟨a', ha', hR⟩ :=
          h.linearize hst (apply_of_comparing h0 (by omega) hcurrent hread) List.length_set
        exact ⟨_, a', ha', rfl, hR⟩
      · cases hstep
        exact ⟨[], a, rfl, rfl, h.goto_pending hst (phaseRel_reading.2 ⟨rfl, h0, hn⟩)⟩
    · cases hstep
  | respond t result =>
    have ht := h.phase t
    simp only [step] at hstep
    split at hstep
    · rename_i result' hphase
      split_ifs at hstep with hres
      cases hstep
      rw [hphase, phaseRel_returning] at ht
      refine ⟨[.respond t result], { a with status := Function.update a.status t .idle }, ?_, rfl,
        h.value_eq, h.idx_lt, phaseRel_update h.phase (phaseRel_idle.2 rfl)⟩
      simp [run, Concurrent.step, ht, hres]
    · cases hstep

/-! ### Linearizability -/

/-- A number is in the set if the last call that changed its membership has put it there. -/
theorem mem_iff_lastUpdate {n : ℤ} {u v : Set ℤ} {b : Bool}
    {log : List (Concurrent.Entry T Call (Option Bool))} (h : Concurrent.Legal setObject u log v)
    (hb : n ∈ u ↔ b = true) : n ∈ v ↔ lastUpdate n b log = true := by
  induction log generalizing u b with
  | nil =>
    rw [show v = u from h]
    exact hb
  | cons e log ih =>
    obtain ⟨t, op, result⟩ := e
    obtain ⟨-, h⟩ := h
    cases op with
    | set m =>
      refine ih h ?_
      by_cases hm : m = n
      · simp [setObject, hm]
      · simp [setObject, hm, Ne.symm hm, hb]
    | get m => exact ih h hb
    | clear m =>
      refine ih h ?_
      by_cases hm : m = n
      · simp [setObject, hm]
      · simp [setObject, hm, Ne.symm hm, hb]

/-- A membership test returns the effect of the last update before it. -/
theorem get_eq_lastUpdate {v : Set ℤ} {pre post : List (Concurrent.Entry T Call (Option Bool))} {t : T}
    {n : ℤ} {result : Option Bool}
    (h : Concurrent.Legal setObject ∅ (pre ++ ⟨t, .get n, result⟩ :: post) v) :
    result = some (lastUpdate n false pre) := by
  obtain ⟨u, hpre, hresult, -⟩ := Concurrent.legal_append.1 h
  have hmem := mem_iff_lastUpdate hpre (n := n) (b := false)
    (iff_of_false (Set.notMem_empty n) (by decide))
  exact hresult.symm.trans (apply_get_eq_iff.2 hmem)

/-- **Every run of any number of threads is linearizable as a run of a set; the array holds the
linearized set, and each result and each bit is the effect of the last linearized update.** -/
theorem linearizable [DecidableEq T] {length : ℤ} (hint : IsInt length) {array : List (BitVec 32)}
    (hnew : newArray length = some array) {as : List (Action T)}
    (hcalls : ∀ act ∈ as, act.InRange length) {s : State T}
    (hrun : run step (init array) as = some s) :
    ∃ a, Concurrent.Linearizes setObject (as.filterMap Action.event) a ∧
      a.value = members s.array ∧ (∀ t, s.phase t ≠ .threw) ∧
      (∀ n, n ∈ members s.array ↔ lastUpdate n false a.log = true) ∧
      ∀ pre t n result post, a.log = pre ++ ⟨t, .get n, result⟩ :: post →
        result = some (lastUpdate n false pre) := by
  have hR : Rel length (init array : State T) (Concurrent.init setObject) := by
    refine ⟨?_, fun n h0 hn => idx_lt_of_newArray hint hnew h0 hn, fun t => trivial⟩
    obtain ⟨-, -, rfl⟩ := (newArray_eq_some_iff hint).1 hnew
    exact (members_replicate _).symm
  obtain ⟨w, a, hw, hevent, hR'⟩ := Concurrent.exists_run_of_simulation
    (fun s act s' a h hP hs => simulates hint h hP hs) hR hcalls hrun
  have hlin : Concurrent.Linearizes setObject (as.filterMap Action.event) a := ⟨w, hw, hevent⟩
  refine ⟨a, hlin, hR'.value_eq, fun t ht => ?_, fun n => ?_, ?_⟩
  · have hphase := hR'.phase t
    rw [ht] at hphase
    cases hst : a.status t <;> rw [hst] at hphase <;> exact hphase
  · rw [← hR'.value_eq]
    exact mem_iff_lastUpdate hlin.legal (iff_of_false (Set.notMem_empty n) (by decide))
  · rintro pre t n result post hlog
    have hlegal := hlin.legal
    rw [hlog] at hlegal
    exact get_eq_lastUpdate hlegal

/-- Two threads set bits of the same element: the second one is interrupted between its read and its
`compareAndSet`, and tries again. -/
def contended : List (Action ℕ) :=
  [.invoke 1 (.set 3), .invoke 2 (.set 5), .get 2, .get 1, .compareAndSet 1, .compareAndSet 2, .get 2,
    .compareAndSet 2, .respond 2 none, .respond 1 none]

theorem linearizable_contended : ∃ s, run step (init [0#32]) contended = some s ∧
    s.array = [0x28#32] ∧
    ∃ a, Concurrent.Linearizes setObject (contended.filterMap Action.event) a ∧
      a.value = members s.array := by
  have hrun : ∃ s, run step (init [0#32]) contended = some s ∧ s.array = [0x28#32] := ⟨_, rfl, by decide⟩
  obtain ⟨s, hrun, harray⟩ := hrun
  obtain ⟨a, hlin, hvalue, -⟩ := @linearizable ℕ _ 10 (by decide) [0#32] (by decide) contended
    (by decide) s hrun
  exact ⟨s, hrun, harray, a, hlin, hvalue⟩

end P2Player.AtomicBitSet
