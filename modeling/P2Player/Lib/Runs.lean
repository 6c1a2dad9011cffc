import Mathlib.Tactic

/-!
# The runs of wanted segments

A line is cut into consecutive segments, some of which are wanted.  Neighbouring wanted segments are
merged into runs by a single pass over the line.

* `runs`: the runs, as pairs of their two ends;
* `position`: where a segment begins;
* `within_run_iff`: a segment lies within a run exactly when it is wanted;
* `in_run_iff`: a position lies in a run exactly when its segment is wanted;
* `run_bounds`, `run_nonempty`, `runs_sorted`: the runs follow each other within the line.
-/

namespace P2Player.Runs

/-- The runs of the segments that follow the position `stop`, each given by whether it is wanted and
by its length.  When `isOpen`, a run has begun at `start`. -/
def runs (start stop : ℕ) (isOpen : Bool) : List (Bool × ℕ) → List (ℕ × ℕ)
  | [] => if isOpen then [(start, stop)] else []
  | (true, n) :: segs => runs start (stop + n) true segs
  | (false, n) :: segs =>
    if isOpen then (start, stop) :: runs (stop + n) (stop + n) false segs
    else runs (stop + n) (stop + n) false segs

/-- The distance from the beginning of the line to the segment number `j`. -/
def position (segs : List (Bool × ℕ)) (j : ℕ) : ℕ := ((segs.take j).map Prod.snd).sum

@[simp] theorem position_zero (segs : List (Bool × ℕ)) : position segs 0 = 0 := rfl

@[simp] theorem position_cons_succ (seg : Bool × ℕ) (segs : List (Bool × ℕ)) (j : ℕ) :
    position (seg :: segs) (j + 1) = seg.2 + position segs j := by
  simp [position]

theorem position_succ {segs : List (Bool × ℕ)} {j : ℕ} {seg : Bool × ℕ}
    (hj : segs[j]? = some seg) : position segs (j + 1) = position segs j + seg.2 := by
  simp [position, List.take_add_one, hj]

/-- The segments to the left of a position end there. -/
theorem position_add_le {segs : List (Bool × ℕ)} {i j : ℕ} {seg : Bool × ℕ}
    (hi : segs[i]? = some seg) (hij : i < j) : position segs i + seg.2 ≤ position segs j := by
  induction segs generalizing i j with
  | nil => cases hi
  | cons s segs ih =>
    obtain ⟨j, rfl⟩ := Nat.exists_eq_succ_of_ne_zero (Nat.ne_of_gt (Nat.zero_lt_of_lt hij))
    cases i with
    | zero =>
      cases hi
      rw [position_zero, position_cons_succ]
      omega
    | succ i =>
      have h := ih hi (Nat.lt_of_succ_lt_succ hij)
      rw [position_cons_succ, position_cons_succ]
      omega

/-- A run that has begun becomes part of one. -/
theorem open_within_run {segs : List (Bool × ℕ)} {start stop : ℕ} :
    ∃ run ∈ runs start stop true segs, run.1 ≤ start ∧ stop ≤ run.2 := by
  induction segs generalizing stop with
  | nil => exact ⟨(start, stop), List.mem_singleton.2 rfl, le_rfl, le_rfl⟩
  | cons seg segs ih =>
    obtain ⟨wanted, n⟩ := seg
    cases wanted with
    | false => exact ⟨(start, stop), List.mem_cons_self, le_rfl, le_rfl⟩
    | true =>
      obtain ⟨run, hrun, hlo, hhi⟩ := @ih (stop + n)
      exact ⟨run, hrun, hlo, by omega⟩

/-- A wanted segment lies within a run. -/
theorem within_run {segs : List (Bool × ℕ)} {start stop j n : ℕ} {isOpen : Bool}
    (hle : start ≤ stop) (hj : segs[j]? = some (true, n)) :
    ∃ run ∈ runs start stop isOpen segs,
      run.1 ≤ stop + position segs j ∧ stop + position segs j + n ≤ run.2 := by
  induction segs generalizing start stop isOpen j with
  | nil => cases hj
  | cons seg segs ih =>
    obtain ⟨wanted, m⟩ := seg
    cases j with
    | zero =>
      cases hj
      obtain ⟨run, hrun, hlo, hhi⟩ := @open_within_run segs start (stop + n)
      exact ⟨run, hrun, by rw [position_zero]; omega, by rw [position_zero]; omega⟩
    | succ j =>
      rw [position_cons_succ, ← Nat.add_assoc]
      cases wanted with
      | true => exact ih (by omega) hj
      | false =>
        cases isOpen with
        | false => exact ih le_rfl hj
        | true =>
          obtain ⟨run, hrun, h⟩ := @ih (stop + m) (stop + m) j false le_rfl hj
          exact ⟨run, List.mem_cons_of_mem _ hrun, h⟩

/-- What lies within a run lies within the run that has begun or a wanted segment. -/
theorem wanted_of_mem_run {segs : List (Bool × ℕ)} {start stop x : ℕ} {isOpen : Bool}
    {run : ℕ × ℕ} (hstart : isOpen = false → start = stop)
    (hrun : run ∈ runs start stop isOpen segs) (hlo : run.1 ≤ x) (hhi : x < run.2) :
    (isOpen = true ∧ start ≤ x ∧ x < stop) ∨ ∃ j n, segs[j]? = some (true, n) ∧
      stop + position segs j ≤ x ∧ x < stop + position segs j + n := by
  induction segs generalizing start stop isOpen with
  | nil =>
    cases isOpen with
    | false => cases hrun
    | true =>
      cases List.mem_singleton.1 hrun
      exact Or.inl ⟨rfl, hlo, hhi⟩
  | cons seg segs ih =>
    obtain ⟨wanted, m⟩ := seg
    -- a wanted segment further on, counted from this one
    have hshift : (∃ j n, segs[j]? = some (true, n) ∧
        stop + m + position segs j ≤ x ∧ x < stop + m + position segs j + n) →
        ∃ j n, ((wanted, m) :: segs)[j]? = some (true, n) ∧
          stop + position ((wanted, m) :: segs) j ≤ x ∧
          x < stop + position ((wanted, m) :: segs) j + n := by
      rintro ⟨j, n, hj, hx⟩
      refine ⟨j + 1, n, hj, ?_⟩
      rw [position_cons_succ, ← Nat.add_assoc]
      exact hx
    cases wanted with
    | true =>
      rcases ih (fun h => by cases h) hrun with ⟨-, hx⟩ | h
      · rcases Nat.lt_or_ge x stop with hlt | hge
        · cases isOpen with
          | true => exact Or.inl ⟨rfl, hx.1, hlt⟩
          | false => exact absurd (hstart rfl ▸ hx.1) (Nat.not_le_of_lt hlt)
        · exact Or.inr ⟨0, m, rfl, by rw [position_zero]; exact ⟨hge, hx.2⟩⟩
      · exact Or.inr (hshift h)
    | false =>
      cases isOpen with
      | false =>
        rcases ih (fun _ => rfl) hrun with ⟨h, -⟩ | h
        · cases h
        · exact Or.inr (hshift h)
      | true =>
        rcases List.mem_cons.1 hrun with rfl | hrun
        · exact Or.inl ⟨rfl, hlo, hhi⟩
        · rcases ih (fun _ => rfl) hrun with ⟨h, -⟩ | h
          · cases h
          · exact Or.inr (hshift h)

/-- **Runs.** A segment lies within a run exactly when it is wanted. -/
theorem within_run_iff {segs : List (Bool × ℕ)} {j n : ℕ} {wanted : Bool}
    (hj : segs[j]? = some (wanted, n)) (hn : 0 < n) :
    (∃ run ∈ runs 0 0 false segs, run.1 ≤ position segs j ∧ position segs j + n ≤ run.2) ↔
      wanted = true := by
  refine ⟨fun ⟨run, hrun, hlo, hhi⟩ => ?_, fun h => ?_⟩
  · rcases wanted_of_mem_run (fun _ => rfl) hrun hlo (by omega) with ⟨h, -⟩ | ⟨i, m, hi, hx⟩
    · cases h
    · rw [Nat.zero_add] at hx
      rcases Nat.lt_trichotomy i j with h | rfl | h
      · exact absurd (position_add_le hi h) (by omega)
      · rw [hi] at hj
        cases hj
        rfl
      · exact absurd (position_add_le hj h) (by omega)
  · cases h
    have h : ∃ run ∈ runs 0 0 false segs,
        run.1 ≤ 0 + position segs j ∧ 0 + position segs j + n ≤ run.2 := within_run le_rfl hj
    rwa [Nat.zero_add] at h

/-- The runs as a set of positions. -/
theorem in_run_iff {segs : List (Bool × ℕ)} {x : ℕ} :
    (∃ run ∈ runs 0 0 false segs, run.1 ≤ x ∧ x < run.2) ↔
      ∃ j n, segs[j]? = some (true, n) ∧ position segs j ≤ x ∧ x < position segs j + n := by
  constructor
  · rintro ⟨run, hrun, hlo, hhi⟩
    rcases wanted_of_mem_run (fun _ => rfl) hrun hlo hhi with ⟨h, -⟩ | h
    · cases h
    · simpa only [Nat.zero_add] using h
  · rintro ⟨j, n, hj, hlo, hhi⟩
    obtain ⟨run, hrun, hlo', hhi'⟩ := @within_run segs 0 0 j n false (le_refl 0) hj
    exact ⟨run, hrun, by omega, by omega⟩

/-! ### The order of the runs -/

theorem run_bounds {segs : List (Bool × ℕ)} {start stop : ℕ} {isOpen : Bool} {run : ℕ × ℕ}
    (hle : start ≤ stop) (hrun : run ∈ runs start stop isOpen segs) :
    start ≤ run.1 ∧ run.2 ≤ stop + (segs.map Prod.snd).sum := by
  induction segs generalizing start stop isOpen with
  | nil =>
    cases isOpen with
    | false => cases hrun
    | true =>
      cases List.mem_singleton.1 hrun
      exact ⟨le_rfl, le_rfl⟩
  | cons seg segs ih =>
    obtain ⟨wanted, n⟩ := seg
    rw [List.map_cons, List.sum_cons, ← Nat.add_assoc]
    cases wanted with
    | true => exact ih (by omega) hrun
    | false =>
      have hlater : run ∈ runs (stop + n) (stop + n) false segs →
          start ≤ run.1 ∧ run.2 ≤ stop + n + (segs.map Prod.snd).sum := by
        intro h
        obtain ⟨hlo, hhi⟩ := ih le_rfl h
        exact ⟨by omega, hhi⟩
      cases isOpen with
      | false => exact hlater hrun
      | true =>
        rcases List.mem_cons.1 hrun with rfl | hrun
        · exact ⟨le_rfl, by dsimp only; omega⟩
        · exact hlater hrun

theorem run_nonempty {segs : List (Bool × ℕ)} {start stop : ℕ} {isOpen : Bool} {run : ℕ × ℕ}
    (hpos : ∀ seg ∈ segs, 0 < seg.2) (hle : start ≤ stop) (hopen : isOpen = true → start < stop)
    (hrun : run ∈ runs start stop isOpen segs) : run.1 < run.2 := by
  induction segs generalizing start stop isOpen with
  | nil =>
    cases isOpen with
    | false => cases hrun
    | true =>
      cases List.mem_singleton.1 hrun
      exact hopen rfl
  | cons seg segs ih =>
    obtain ⟨wanted, n⟩ := seg
    have hn : 0 < n := hpos _ List.mem_cons_self
    have ih := fun start stop isOpen => @ih start stop isOpen fun s hs =>
      hpos s (List.mem_cons_of_mem _ hs)
    cases wanted with
    | true => exact ih _ _ _ (by omega) (fun _ => by omega) hrun
    | false =>
      cases isOpen with
      | false => exact ih _ _ _ le_rfl (fun h => by cases h) hrun
      | true =>
        rcases List.mem_cons.1 hrun with rfl | hrun
        · exact hopen rfl
        · exact ih _ _ _ le_rfl (fun h => by cases h) hrun

/-- Between two runs there is a gap. -/
theorem runs_sorted {segs : List (Bool × ℕ)} {start stop : ℕ} {isOpen : Bool}
    (hpos : ∀ seg ∈ segs, 0 < seg.2) :
    (runs start stop isOpen segs).Pairwise fun run run' => run.2 < run'.1 := by
  induction segs generalizing start stop isOpen with
  | nil => cases isOpen <;> simp [runs]
  | cons seg segs ih =>
    obtain ⟨wanted, n⟩ := seg
    have hn : 0 < n := hpos _ List.mem_cons_self
    have ih := fun start stop isOpen => @ih start stop isOpen fun s hs =>
      hpos s (List.mem_cons_of_mem _ hs)
    cases wanted with
    | true => exact ih _ _ _
    | false =>
      cases isOpen with
      | false => exact ih _ _ _
      | true =>
        refine List.Pairwise.cons (fun run hrun => ?_) (ih _ _ _)
        have hlo := (run_bounds le_rfl hrun).1
        dsimp only
        omega

end P2Player.Runs
