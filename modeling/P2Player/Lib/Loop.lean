import Mathlib.Tactic

/-!
# Loops that come nearer to their end

The body of a loop either fails or leads to the next state, and a measure decreases in each iteration.  The
loop is run with so many iterations at most as the measure tells.

* `loop`: the run with a bound on the iterations;
* `Reaches`: some iterations lead from one state to another;
* `Reaches.loop_eq`: the loop then ends alike from both;
* `loop_eq_of_reaches`: how it ends when it reaches a state where it stops;
* `invariant_loop`, `not_running_of_loop`: what holds of the state in which it ends.
-/

namespace P2Player.Loop

variable {S : Type*}

/-- At most so many iterations, each while `running`. -/
def loop (running : S → Bool) (body : S → Option S) : ℕ → S → Option S
  | 0, s => some s
  | fuel + 1, s => if running s then (body s).bind (loop running body fuel) else some s

/-- Some iterations lead from the one state to the other. -/
def Reaches (running : S → Bool) (body : S → Option S) : S → S → Prop :=
  Relation.ReflTransGen fun s s' => running s ∧ body s = some s'

variable {running : S → Bool} {body : S → Option S} {s s' s'' : S} {fuel : ℕ}

theorem Reaches.refl (s : S) : Reaches running body s s := Relation.ReflTransGen.refl

theorem Reaches.trans (h : Reaches running body s s') (h' : Reaches running body s' s'') :
    Reaches running body s s'' :=
  Relation.ReflTransGen.trans h h'

/-- One iteration, and others. -/
theorem Reaches.head (hrun : running s) (hbody : body s = some s') (h : Reaches running body s' s'') :
    Reaches running body s s'' :=
  Relation.ReflTransGen.head ⟨hrun, hbody⟩ h

theorem loop_of_not_running (h : running s = false) : loop running body fuel s = some s := by
  cases fuel with
  | zero => rfl
  | succ fuel =>
    rw [loop, h]
    rfl

/-- What the body preserves holds at the end. -/
theorem invariant_loop {P : S → Prop} (hbody : ∀ s s', running s → body s = some s' → P s → P s')
    (h : loop running body fuel s = some s') (hs : P s) : P s' := by
  induction fuel generalizing s with
  | zero =>
    cases h
    exact hs
  | succ fuel ih =>
    rw [loop] at h
    cases hrun : running s with
    | false =>
      rw [hrun, if_neg Bool.false_ne_true] at h
      cases h
      exact hs
    | true =>
      rw [hrun, if_pos rfl] at h
      obtain ⟨t, ht, h⟩ := Option.bind_eq_some_iff.1 h
      exact ih h (hbody s t hrun ht hs)

section Measure

variable (measure : S → ℕ) (hpos : ∀ s, running s → 0 < measure s)
  (hdec : ∀ s s', running s → body s = some s' → measure s' < measure s)

include hpos hdec

/-- More iterations than the measure tells make no difference. -/
theorem loop_fuel {fuel' : ℕ} (h : measure s ≤ fuel) (h' : measure s ≤ fuel') :
    loop running body fuel s = loop running body fuel' s := by
  induction fuel generalizing fuel' s with
  | zero =>
    have hstop : running s = false := by
      by_contra hrun
      have := hpos s (by simpa using hrun)
      omega
    rw [loop_of_not_running hstop, loop_of_not_running hstop]
  | succ fuel ih =>
    cases hrun : running s with
    | false => rw [loop_of_not_running hrun, loop_of_not_running hrun]
    | true =>
      have hmeasure := hpos s hrun
      obtain ⟨fuel', rfl⟩ := Nat.exists_eq_add_of_le' (Nat.one_le_of_lt (hmeasure.trans_le h'))
      rw [loop, loop, if_pos hrun, if_pos hrun]
      cases hbody : body s with
      | none => rfl
      | some s' =>
        have hlt := hdec s s' hrun hbody
        exact ih (by omega) (by omega)

/-- The loop ends alike from two states of which one is reached from the other. -/
theorem Reaches.loop_eq (h : Reaches running body s s') :
    loop running body (measure s) s = loop running body (measure s') s' := by
  induction h using Relation.ReflTransGen.head_induction_on with
  | refl => rfl
  | head hstep _ ih =>
    obtain ⟨hrun, hbody⟩ := hstep
    have hlt := hdec _ _ hrun hbody
    rw [← ih, loop_fuel measure hpos hdec (Nat.le_refl _) (Nat.lt_succ_self _).le, loop, if_pos hrun, hbody,
      Option.bind_some]
    exact loop_fuel measure hpos hdec hlt.le le_rfl

theorem loop_eq_of_reaches (h : Reaches running body s s') (hstop : running s' = false) :
    loop running body (measure s) s = some s' := by
  rw [h.loop_eq measure hpos hdec, loop_of_not_running hstop]

/-- The bound does not end the loop. -/
theorem not_running_of_loop (hfuel : measure s ≤ fuel) (h : loop running body fuel s = some s') :
    running s' = false := by
  induction fuel generalizing s with
  | zero =>
    cases h
    by_contra hrun
    have := hpos s' (by simpa using hrun)
    omega
  | succ fuel ih =>
    rw [loop] at h
    cases hrun : running s with
    | false =>
      rw [hrun, if_neg Bool.false_ne_true] at h
      cases h
      exact hrun
    | true =>
      rw [hrun, if_pos rfl] at h
      obtain ⟨t, ht, h⟩ := Option.bind_eq_some_iff.1 h
      have hlt := hdec s t hrun ht
      exact ih (by omega) h

end Measure

end P2Player.Loop
