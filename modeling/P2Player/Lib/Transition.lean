import Mathlib.Tactic

/-!
# Runs of an executable transition system

A system is a function `step : S → A → Option S`: action `a` leads from `s` to the state it
returns, and is not enabled in `s` when it returns `none`.  An interleaving of several threads is
a list of actions, each naming the thread that moves.

* `run step s as`: the state after the actions `as`, when each of them is enabled;
* `Along step C s as`: every step of that run is taken from a state and by an action satisfying
  `C`; a run with no restriction is `Along` the condition that always holds;
* `Along.keeps`: what one step satisfying `C` preserves, a run along `C` preserves;
* `run_keeps`: what every step preserves, every run preserves;
* `run_refines`: a view on which each step acts as a function is what the actions make of it;
* `Always step I s as`: every state of that run satisfies `I`;
* `Along.always`: such an invariant holds always;
* `always_iff_along`: when the steps that keep `I` are those that satisfy `C`, it holds always exactly
  along `C`.
-/

namespace P2Player.Transition

variable {S A : Type*} {step : S → A → Option S} {C D : S → A → Prop}

/-- The state after a list of actions. -/
def run (step : S → A → Option S) : S → List A → Option S
  | s, [] => some s
  | s, a :: as => (step s a).bind fun s' => run step s' as

/-- Every step of the run meets the condition `C` on the state before it and its action. -/
def Along (step : S → A → Option S) (C : S → A → Prop) : S → List A → Prop
  | _, [] => True
  | s, a :: as => C s a ∧ ∀ s', step s a = some s' → Along step C s' as

@[simp] theorem run_nil (s : S) : run step s [] = some s := rfl

theorem run_cons (s : S) (a : A) (as : List A) :
    run step s (a :: as) = (step s a).bind fun s' => run step s' as := rfl

theorem run_cons_eq_some {s s'' : S} {a : A} {as : List A} :
    run step s (a :: as) = some s'' ↔ ∃ s', step s a = some s' ∧ run step s' as = some s'' := by
  rw [run_cons, Option.bind_eq_some_iff]

theorem run_append (s : S) (as bs : List A) :
    run step s (as ++ bs) = (run step s as).bind fun s' => run step s' bs := by
  induction as generalizing s with
  | nil => rfl
  | cons a as ih =>
    rw [List.cons_append, run_cons, run_cons]
    cases step s a with
    | none => rfl
    | some s' => exact ih s'

theorem run_append_of_eq {s s' : S} {as : List A} (h : run step s as = some s') (bs : List A) :
    run step s (as ++ bs) = run step s' bs := by
  rw [run_append, h]; rfl

@[simp] theorem along_nil (s : S) : Along step C s [] := trivial

/-- A guarded run is built step by step. -/
theorem along_cons {s s' : S} {a : A} {as : List A} (h : C s a) (hs : step s a = some s')
    (has : Along step C s' as) : Along step C s (a :: as) :=
  ⟨h, fun s₁ h₁ => by rw [hs] at h₁; cases h₁; exact has⟩

theorem Along.append {s s' : S} {as bs : List A} (h : Along step C s (as ++ bs))
    (hs : run step s as = some s') : Along step C s as ∧ Along step C s' bs := by
  induction as generalizing s with
  | nil => cases hs; exact ⟨trivial, h⟩
  | cons a as ih =>
    obtain ⟨s₁, h₁, hrun⟩ := run_cons_eq_some.1 hs
    refine ⟨⟨h.1, fun s₂ h₂ => ?_⟩, (ih (h.2 s₁ h₁) hrun).2⟩
    rw [h₁] at h₂; cases h₂
    exact (ih (h.2 s₁ h₁) hrun).1

theorem along_of_forall (hC : ∀ s a, C s a) (s : S) (as : List A) : Along step C s as := by
  induction as generalizing s with
  | nil => trivial
  | cons a as ih => exact ⟨hC s a, fun s' _ => ih s'⟩

theorem Along.and {s : S} {as : List A} (hC : Along step C s as) (hD : Along step D s as) :
    Along step (fun s a => C s a ∧ D s a) s as := by
  induction as generalizing s with
  | nil => trivial
  | cons a as ih => exact ⟨⟨hC.1, hD.1⟩, fun s' hs' => ih (hC.2 s' hs') (hD.2 s' hs')⟩

theorem along_of_forall_mem {P : A → Prop} {as : List A} (hP : ∀ a ∈ as, P a) (s : S) :
    Along step (fun _ a => P a) s as := by
  induction as generalizing s with
  | nil => trivial
  | cons a as ih =>
    exact ⟨hP a List.mem_cons_self, fun s' _ => ih (fun b hb => hP b (List.mem_cons_of_mem a hb)) s'⟩

/-- A run that is not along `C` has a first step that does not meet it, and a rest. -/
theorem exists_of_not_along {s s' : S} {as : List A} (h : ¬ Along step C s as)
    (hrun : run step s as = some s') :
    ∃ as₁ a as₂ s₁ s₂, as = as₁ ++ a :: as₂ ∧ Along step C s as₁ ∧ run step s as₁ = some s₁ ∧
      ¬ C s₁ a ∧ step s₁ a = some s₂ ∧ run step s₂ as₂ = some s' := by
  induction as generalizing s with
  | nil => exact absurd trivial h
  | cons a as ih =>
    obtain ⟨s₁, hstep, hrest⟩ := run_cons_eq_some.1 hrun
    by_cases hC : C s a
    · have hnot : ¬ Along step C s₁ as := fun hal => h (along_cons hC hstep hal)
      obtain ⟨as₁, b, as₂, s₂, s₃, rfl, hal, h₁, hb, h₂, h₃⟩ := ih hnot hrest
      exact ⟨a :: as₁, b, as₂, s₂, s₃, rfl, along_cons hC hstep hal,
        run_cons_eq_some.2 ⟨s₁, hstep, h₁⟩, hb, h₂, h₃⟩
    · exact ⟨[], a, as, s, s₁, rfl, trivial, rfl, hC, hstep, hrest⟩

/-- **Run rule.** An invariant kept by every step that meets `C` holds after every run whose
steps meet `C`. -/
theorem Along.keeps {I : S → Prop}
    (hstep : ∀ s a s', I s → C s a → step s a = some s' → I s')
    {s s' : S} {as : List A} (h0 : I s) (hC : Along step C s as) (hrun : run step s as = some s') :
    I s' := by
  induction as generalizing s with
  | nil => cases hrun; exact h0
  | cons a as ih =>
    obtain ⟨s₁, h₁, hrun⟩ := run_cons_eq_some.1 hrun
    exact ih (hstep s a s₁ h0 hC.1 h₁) (hC.2 s₁ h₁) hrun

/-- The run rule without a restriction. -/
theorem run_keeps {I : S → Prop} (hstep : ∀ s a s', I s → step s a = some s' → I s') {s s' : S}
    {as : List A} (h0 : I s) (hrun : run step s as = some s') : I s' :=
  Along.keeps (fun s a s' hi _ hs => hstep s a s' hi hs) h0
    (along_of_forall (C := fun _ _ => True) (fun _ _ => trivial) s as) hrun

/-- **Refinement rule.** When every step from a state that satisfies `I` acts on the view `f` as `g` does,
a run acts on it as the list of its actions. -/
theorem run_refines {T : Type*} {I : S → Prop} {f : S → T} {g : T → A → T}
    (hstep : ∀ s a s', I s → step s a = some s' → I s' ∧ f s' = g (f s) a) {s s' : S} {as : List A}
    (h0 : I s) (hrun : run step s as = some s') : I s' ∧ f s' = as.foldl g (f s) := by
  induction as generalizing s with
  | nil => cases hrun; exact ⟨h0, rfl⟩
  | cons a as ih =>
    obtain ⟨s₁, h₁, hrun⟩ := run_cons_eq_some.1 hrun
    obtain ⟨hI, hf⟩ := hstep s a s₁ h0 h₁
    rw [List.foldl_cons, ← hf]
    exact ih hI hrun

/-- Every state of the run satisfies `I`. -/
def Always (step : S → A → Option S) (I : S → Prop) : S → List A → Prop
  | s, [] => I s
  | s, a :: as => I s ∧ ∀ s', step s a = some s' → Always step I s' as

theorem Always.first {I : S → Prop} {s : S} {as : List A} (h : Always step I s as) : I s := by
  cases as with
  | nil => exact h
  | cons a as => exact h.1

theorem Always.last {I : S → Prop} {s s' : S} {as : List A} (h : Always step I s as)
    (hrun : run step s as = some s') : I s' := by
  induction as generalizing s with
  | nil => cases hrun; exact h
  | cons a as ih =>
    obtain ⟨s₁, h₁, hrun⟩ := run_cons_eq_some.1 hrun
    exact ih (h.2 s₁ h₁) hrun

theorem Always.mono {I J : S → Prop} (hIJ : ∀ s, I s → J s) {s : S} {as : List A}
    (h : Always step I s as) : Always step J s as := by
  induction as generalizing s with
  | nil => exact hIJ s h
  | cons a as ih => exact ⟨hIJ s h.1, fun s' hs' => ih (h.2 s' hs')⟩

theorem Always.of_append {I : S → Prop} {s s' : S} {as bs : List A}
    (h : Always step I s (as ++ bs)) (hs : run step s as = some s') : Always step I s' bs := by
  induction as generalizing s with
  | nil => cases hs; exact h
  | cons a as ih =>
    obtain ⟨s₁, h₁, hrun⟩ := run_cons_eq_some.1 hs
    exact ih (h.2 s₁ h₁) hrun

/-- **Invariance rule.** An invariant kept by every step that meets `C` holds always along `C`. -/
theorem Along.always {I : S → Prop}
    (hstep : ∀ s a s', I s → C s a → step s a = some s' → I s')
    {s : S} {as : List A} (h0 : I s) (hC : Along step C s as) : Always step I s as := by
  induction as generalizing s with
  | nil => exact h0
  | cons a as ih => exact ⟨h0, fun s' hs' => ih (hstep s a s' h0 hC.1 hs') (hC.2 s' hs')⟩

/-- **Exactness rule.** Where `J` is an invariant and `C` singles out the steps that keep `I`, a run
satisfies `I` always exactly when its steps satisfy `C`. -/
theorem always_iff_along {I J : S → Prop} (hJ : ∀ s a s', J s → step s a = some s' → J s')
    (hstep : ∀ s a s', J s → I s → step s a = some s' → (I s' ↔ C s a))
    {s s' : S} {as : List A} (h0 : J s) (hI : I s) (hrun : run step s as = some s') :
    Always step I s as ↔ Along step C s as := by
  induction as generalizing s with
  | nil => exact iff_of_true hI trivial
  | cons a as ih =>
    obtain ⟨s₁, h₁, hrun⟩ := run_cons_eq_some.1 hrun
    have hiff := hstep s a s₁ h0 hI h₁
    constructor
    · intro h
      have hI₁ := (h.2 s₁ h₁).first
      exact along_cons (hiff.1 hI₁) h₁ ((ih (hJ s a s₁ h0 h₁) hI₁ hrun).1 (h.2 s₁ h₁))
    · intro h
      have hI₁ := hiff.2 h.1
      refine ⟨hI, fun s₂ h₂ => ?_⟩
      obtain rfl := Option.some.inj (h₁.symm.trans h₂)
      exact (ih (hJ s a s₁ h0 h₁) hI₁ hrun).2 (h.2 s₁ h₁)

end P2Player.Transition
