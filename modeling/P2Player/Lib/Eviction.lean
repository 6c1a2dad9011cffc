import Mathlib.Data.Nat.Count
import Mathlib.Tactic

/-!
# Evicting from the head of a queue

A queue is shortened by a number of attempts, each on the element that is at its head by then.  An
attempt that fails leaves the head where it is, so that the next one is on the same element.

* `evict ok n l`: the queue `l` after `n` attempts, of which those in `ok` succeed;
* `tried ok n l`: the attempts, with how they ended;
* `evict_eq_drop`, `mem_tried`: both by the number of successes;
* `all_tried_iff`: what is left over beyond the last `m` elements has been tried in vain exactly
  when no attempt but the last one failed.
-/

namespace P2Player.Eviction

variable {κ : Type*}

/-- The queue after `n` attempts on its head. -/
def evict (ok : ℕ → Bool) : ℕ → List κ → List κ
  | 0, l => l
  | _ + 1, [] => []
  | n + 1, k :: l => evict (fun i => ok (i + 1)) n (if ok 0 then l else k :: l)

/-- The attempts. -/
def tried (ok : ℕ → Bool) : ℕ → List κ → List (κ × Bool)
  | 0, _ => []
  | _ + 1, [] => []
  | n + 1, k :: l => (k, ok 0) :: tried (fun i => ok (i + 1)) n (if ok 0 then l else k :: l)

/-- The number of successes among the first `n` attempts. -/
def successes (ok : ℕ → Bool) (n : ℕ) : ℕ := Nat.count (fun i => ok i = true) n

@[simp] theorem successes_zero (ok : ℕ → Bool) : successes ok 0 = 0 := Nat.count_zero _

theorem successes_succ (ok : ℕ → Bool) (n : ℕ) :
    successes ok (n + 1) = successes (fun i => ok (i + 1)) n + if ok 0 then 1 else 0 :=
  Nat.count_succ' _ n

theorem successes_le (ok : ℕ → Bool) (n : ℕ) : successes ok n ≤ n :=
  Nat.count_le _

theorem successes_mono (ok : ℕ → Bool) {i n : ℕ} (h : i ≤ n) : successes ok i ≤ successes ok n :=
  Nat.count_monotone _ h

theorem successes_eq_iff {ok : ℕ → Bool} {n : ℕ} : successes ok n = n ↔ ∀ i < n, ok i = true :=
  Nat.count_iff_forall

theorem evict_eq_drop (ok : ℕ → Bool) (n : ℕ) (l : List κ) :
    evict ok n l = l.drop (successes ok n) := by
  induction n generalizing ok l with
  | zero => rfl
  | succ n ih =>
    cases l with
    | nil => simp [evict]
    | cons k l =>
      rw [evict, ih, successes_succ]
      cases ok 0 with
      | true => rfl
      | false => rfl

/-- The `i`-th attempt is on the element that as many others precede as there were successes. -/
theorem mem_tried {ok : ℕ → Bool} {n : ℕ} {l : List κ} {k : κ} {b : Bool} :
    (k, b) ∈ tried ok n l ↔ ∃ i < n, l[successes ok i]? = some k ∧ b = ok i := by
  induction n generalizing ok l with
  | zero => simp [tried]
  | succ n ih =>
    cases l with
    | nil => simp [tried]
    | cons a l =>
      have hnext : ∀ i, (if ok 0 = true then l else a :: l)[successes (fun j => ok (j + 1)) i]? =
          (a :: l)[successes ok (i + 1)]? := by
        intro i
        rw [successes_succ]
        cases ok 0 with
        | true => rfl
        | false => rfl
      rw [tried, List.mem_cons, ih]
      constructor
      · rintro (h | ⟨i, hi, hk, hb⟩)
        · obtain ⟨rfl, rfl⟩ := Prod.mk.inj h
          exact ⟨0, Nat.succ_pos n, rfl, rfl⟩
        · exact ⟨i + 1, Nat.succ_lt_succ hi, (hnext i).symm.trans hk, hb⟩
      · rintro ⟨i, hi, hk, hb⟩
        cases i with
        | zero =>
          refine Or.inl (Prod.ext ?_ hb)
          exact (Option.some.inj hk).symm
        | succ i => exact Or.inr ⟨i, Nat.lt_of_succ_lt_succ hi, (hnext i).trans hk, hb⟩

/-- The elements beyond the last `m` ones. -/
def surplus (m : ℕ) (l : List κ) : List κ := l.take (l.length - m)

theorem mem_surplus {m : ℕ} {l : List κ} {k : κ} :
    k ∈ surplus m l ↔ ∃ i < l.length - m, l[i]? = some k := by
  rw [surplus, List.mem_iff_getElem?]
  constructor
  · rintro ⟨i, hi⟩
    obtain ⟨hlt, -⟩ := List.getElem?_eq_some_iff.1 hi
    rw [List.length_take] at hlt
    rw [List.getElem?_take_of_lt (by omega)] at hi
    exact ⟨i, by omega, hi⟩
  · rintro ⟨i, hlt, hi⟩
    exact ⟨i, by rwa [List.getElem?_take_of_lt hlt]⟩

/-- **After the attempts that would bring a queue down to `m` elements, all that is left beyond its
last `m` ones has been tried in vain exactly when no attempt but the last one failed.** -/
theorem all_tried_iff {ok : ℕ → Bool} {l : List κ} (hl : l.Nodup) (m : ℕ) :
    (∀ k ∈ surplus m (evict ok (l.length - m) l),
      (k, false) ∈ tried ok (l.length - m) l ∧ (k, true) ∉ tried ok (l.length - m) l) ↔
    ∀ i, i + 1 < l.length - m → ok i = true := by
  set n := l.length - m with hn
  have hmem : ∀ k, k ∈ surplus m (evict ok n l) ↔
      ∃ i < n - successes ok n, l[successes ok n + i]? = some k := by
    intro k
    have hlen : l.length - successes ok n - m = n - successes ok n := by omega
    simp only [mem_surplus, evict_eq_drop, List.length_drop, List.getElem?_drop, hlen]
  have hinj : ∀ {i j : ℕ} {k : κ}, l[i]? = some k → l[j]? = some k → i = j := fun hi hj =>
    (List.getElem?_inj (List.getElem?_eq_some_iff.1 hi).1 hl).1 (hi.trans hj.symm)
  have hle := successes_le ok
  constructor
  · intro h i hi
    rcases Nat.lt_or_ge (successes ok n) n with hlt | hge
    · -- the last element that should have gone was tried, which takes successes until then
      obtain ⟨k, hk⟩ : ∃ k, l[n - 1]? = some k := ⟨_, List.getElem?_eq_getElem (by omega)⟩
      have hidx : successes ok n + (n - 1 - successes ok n) = n - 1 := by omega
      have hkeep : k ∈ surplus m (evict ok n l) :=
        (hmem k).2 ⟨n - 1 - successes ok n, by omega, by rw [hidx]; exact hk⟩
      obtain ⟨j, hj, hjk, -⟩ := mem_tried.1 (h k hkeep).1
      have hcount := hinj hjk hk
      obtain rfl : j = n - 1 := by have := hle j; omega
      exact successes_eq_iff.1 hcount i (by omega)
    · exact successes_eq_iff.1 (le_antisymm (hle n) hge) i (by omega)
  · intro h k hk
    -- only the last attempt can have failed, on the one element that is left over
    have hfirst : successes ok (n - 1) = n - 1 := successes_eq_iff.2 fun i hi => h i (by omega)
    obtain ⟨i, hi, hik⟩ := (hmem k).1 hk
    have hmono := successes_mono ok (Nat.sub_le n 1)
    obtain ⟨rfl, hn1⟩ : i = 0 ∧ successes ok n = n - 1 := by omega
    rw [hn1, Nat.add_zero] at hik
    have hfail : ok (n - 1) = false := by
      rw [← Bool.not_eq_true]
      intro htrue
      have hall : successes ok n = n := successes_eq_iff.2 fun j hj => by
        rcases Nat.lt_or_ge j (n - 1) with hlt | hge
        · exact h j (by omega)
        · obtain rfl : j = n - 1 := by omega
          exact htrue
      omega
    constructor
    · exact mem_tried.2 ⟨n - 1, by omega, by rw [hfirst]; exact hik, hfail.symm⟩
    · intro htried
      -- elements are distinct, so that a success on this one is the last attempt
      obtain ⟨j, hj, hjk, hok⟩ := mem_tried.1 htried
      have hcount := hinj hjk hik
      obtain rfl : j = n - 1 := by have := hle j; omega
      rw [hfail] at hok
      cases hok

end P2Player.Eviction
