import Mathlib.Tactic

/-!
# Programs with a state, exceptions and a loop

The body of a loop is a program `EStateM Exit σ α`: it changes a state `σ` and either returns a
value or leaves its normal course by a `continue`, a `break` or an exception.  The state after it is
kept in each case.

* `Exit`: the ways to leave the body of a loop;
* `Triple P m Q E`: from a state in `P`, the program `m` returns in `Q` or exits in `E`;
* `Quiet f m`: the program `m` keeps the part `f` of the state and exits by exceptions only;
* `Moves r m`: however the program `m` ends, it has moved the state along the preorder `r`;
* `whileLoop`: a `while` loop, with the inputs of its iterations as a list;
* `entered`: the iterations of a loop, with the state at the beginning of each;
* `entered_keeps`: the invariant rule for the iterations;
* `whileLoop_keeps`: the invariant rule for the state behind the loop.
-/

namespace P2Player.Program

/-- How the body of a loop is left before its end. -/
inductive Exit
  | again
  | leave
  | threw
  deriving DecidableEq

variable {σ τ α β : Type} {P P' : σ → Prop} {Q Q' : α → σ → Prop} {R : β → σ → Prop}
  {E E' : Exit → σ → Prop}

/-- A value that may be missing, with an exception for the missing one. -/
def ask : Option α → EStateM Exit σ α
  | some a => pure a
  | none => throw .threw

/-- A conditional statement without an alternative. -/
def onlyIf (c : Prop) [Decidable c] (m : EStateM Exit σ Unit) : EStateM Exit σ Unit :=
  if c then m else pure ()

/-! ### Runs of programs -/

section Run

variable {ε : Type} (s : σ)

theorem run_pure (a : α) : (pure a : EStateM ε σ α) s = .ok a s := rfl

theorem run_get : (get : EStateM ε σ σ) s = .ok s s := rfl

theorem run_modify (g : σ → σ) : (modify g : EStateM ε σ PUnit) s = .ok ⟨⟩ (g s) := rfl

theorem run_bind (m : EStateM ε σ α) (k : α → EStateM ε σ β) :
    (m >>= k) s = match m s with
      | .ok a s' => k a s'
      | .error e s' => .error e s' := by
  show EStateM.bind m k s = _
  unfold EStateM.bind
  cases m s <;> rfl

end Run

/-! ### What a program returns -/

/-- The value that a program returns; `none` when it exits. -/
def valueOf (m : EStateM Exit σ α) (s : σ) : Option α :=
  match m s with
  | .ok a _ => some a
  | .error _ _ => none

section ValueOf

variable (s : σ)

theorem valueOf_pure (a : α) : valueOf (pure a : EStateM Exit σ α) s = some a := rfl

theorem valueOf_ite {c : Prop} [Decidable c] (m m' : EStateM Exit σ α) :
    valueOf (if c then m else m') s = if c then valueOf m s else valueOf m' s := by
  split_ifs <;> rfl

theorem valueOf_get_bind (k : σ → EStateM Exit σ β) : valueOf (get >>= k) s = valueOf (k s) s := rfl

theorem valueOf_ask_bind (o : Option α) (k : α → EStateM Exit σ β) :
    valueOf (ask o >>= k) s = o.bind fun a => valueOf (k a) s := by
  cases o <;> rfl

theorem valueOf_modify_bind (g : σ → σ) (k : PUnit → EStateM Exit σ β) :
    valueOf (modify g >>= k) s = valueOf (k ⟨⟩) (g s) := rfl

theorem pure_ite_ask (c : Prop) [Decidable c] (a : α) (o : Option α) :
    (if c then pure a else ask o : EStateM Exit σ α) = ask (if c then some a else o) := by
  split_ifs <;> rfl

theorem ask_ite_pure (c : Prop) [Decidable c] (o : Option α) (a : α) :
    (if c then ask o else pure a : EStateM Exit σ α) = ask (if c then o else some a) := by
  split_ifs <;> rfl

end ValueOf

/-! ### Preconditions and postconditions -/

/-- From a state in `P` the program returns in `Q` or exits in `E`. -/
def Triple (P : σ → Prop) (m : EStateM Exit σ α) (Q : α → σ → Prop) (E : Exit → σ → Prop) : Prop :=
  ∀ s, P s → match m s with
    | .ok a s' => Q a s'
    | .error e s' => E e s'

theorem Triple.conseq (h : Triple P m Q E) (hP : ∀ s, P' s → P s) (hQ : ∀ a s, Q a s → Q' a s)
    (hE : ∀ e s, E e s → E' e s) : Triple P' m Q' E' := by
  intro s hs
  have hm := h s (hP s hs)
  cases hr : m s with
  | ok a s' => rw [hr] at hm; exact hQ a s' hm
  | error e s' => rw [hr] at hm; exact hE e s' hm

/-- Two things that are known of a program. -/
theorem Triple.and (h : Triple P m Q E) (h' : Triple P' m Q' E') :
    Triple (fun s => P s ∧ P' s) m (fun a s => Q a s ∧ Q' a s) fun e s => E e s ∧ E' e s := by
  rintro s ⟨hs, hs'⟩
  have hm := h s hs
  have hm' := h' s hs'
  cases hr : m s with
  | ok a s' => rw [hr] at hm hm'; exact ⟨hm, hm'⟩
  | error e s' => rw [hr] at hm hm'; exact ⟨hm, hm'⟩

/-- A program that depends on the part `f` of the state is understood from one value of this part at
a time. -/
theorem triple_of_part {γ : Type} (f : σ → γ) {m : EStateM Exit σ α}
    (h : ∀ s, P s → Triple (fun s' => f s' = f s) m Q E) : Triple P m Q E :=
  fun s hs => h s hs s rfl

theorem triple_pure (a : α) (h : ∀ s, P s → Q a s) : Triple P (pure a) Q E := h

theorem triple_throw (e : Exit) (h : ∀ s, P s → E e s) : Triple P (throw e) Q E := h

theorem triple_modify (f : σ → σ) {Q : PUnit → σ → Prop} (h : ∀ s, P s → Q ⟨⟩ (f s)) :
    Triple P (modify f) Q E := h

theorem Triple.bind {m : EStateM Exit σ α} {f : α → EStateM Exit σ β} (hm : Triple P m Q E)
    (hf : ∀ a, Triple (Q a) (f a) R E) : Triple P (m >>= f) R E := by
  intro s hs
  have hms := hm s hs
  show match EStateM.bind m f s with | .ok a s' => R a s' | .error e s' => E e s'
  unfold EStateM.bind
  cases hr : m s with
  | ok a s' => rw [hr] at hms; exact hf a s' hms
  | error e s' => rw [hr] at hms; exact hms

/-- A program that first reads the state, of which the part `f` is known. -/
theorem triple_get_bind {γ : Type} {f : σ → γ} {x : γ} {k : σ → EStateM Exit σ β}
    (h : ∀ s, f s = x → Triple (fun s' => f s' = x) (k s) R E) :
    Triple (fun s => f s = x) (get >>= k) R E :=
  fun s hs => h s hs s hs

theorem triple_ite {c : Prop} [Decidable c] {m m' : EStateM Exit σ α}
    (h : c → Triple P m Q E) (h' : ¬ c → Triple P m' Q E) :
    Triple P (if c then m else m') Q E := by
  split_ifs with hc
  · exact h hc
  · exact h' hc

theorem triple_onlyIf {c : Prop} [Decidable c] {m : EStateM Exit σ Unit} {Q : Unit → σ → Prop}
    (h : c → Triple P m Q E) (h' : ∀ s, P s → Q () s) : Triple P (onlyIf c m) Q E :=
  triple_ite h fun _ => triple_pure () h'

theorem triple_ask (o : Option α) (h : ∀ a s, o = some a → P s → Q a s)
    (hE : ∀ s, P s → E .threw s) : Triple P (ask o) Q E := by
  cases o with
  | none => exact triple_throw _ hE
  | some a => exact triple_pure a fun s => h a s rfl

/-! ### Programs from one value of a part of the state -/

section Part

variable {γ : Type} {f : σ → γ} {x y : γ}

theorem part_modify {g : σ → σ} {k : PUnit → EStateM Exit σ β} (hg : ∀ s, f s = x → f (g s) = y)
    (h : Triple (fun s => f s = y) (k ⟨⟩) R E) : Triple (fun s => f s = x) (modify g >>= k) R E :=
  fun s hs => h (g s) (hg s hs)

theorem part_ask {o : Option α} {k : α → EStateM Exit σ β} (hE : ∀ s, f s = x → E .threw s)
    (h : ∀ a, o = some a → Triple (fun s => f s = x) (k a) R E) :
    Triple (fun s => f s = x) (ask o >>= k) R E := by
  cases o with
  | none => exact hE
  | some a => exact h a rfl

end Part

/-! ### Programs that keep a part of the state -/

/-- The part `f` of the state stays, and the program exits by exceptions only. -/
def Quiet (f : σ → β) (m : EStateM Exit σ α) : Prop :=
  ∀ s, match m s with
    | .ok _ s' => f s' = f s
    | .error e s' => e = .threw ∧ f s' = f s

section Quiet

variable {γ : Type} {f : σ → γ} {m : EStateM Exit σ α}

theorem quiet_pure (a : α) : Quiet f (pure a : EStateM Exit σ α) := fun _ => rfl

theorem quiet_get : Quiet f (get : EStateM Exit σ σ) := fun _ => rfl

theorem quiet_threw : Quiet f (throw .threw : EStateM Exit σ α) := fun _ => ⟨rfl, rfl⟩

theorem quiet_modify {g : σ → σ} (h : ∀ s, f (g s) = f s) :
    Quiet f (modify g : EStateM Exit σ PUnit) := h

theorem Quiet.bind {k : α → EStateM Exit σ β} (hm : Quiet f m) (hk : ∀ a, Quiet f (k a)) :
    Quiet f (m >>= k) := by
  intro s
  have hms := hm s
  show match EStateM.bind m k s with
    | .ok _ s' => f s' = f s
    | .error e s' => e = .threw ∧ f s' = f s
  unfold EStateM.bind
  cases hr : m s with
  | error e s' => rw [hr] at hms; exact hms
  | ok a s' =>
    rw [hr] at hms
    have hks := hk a s'
    dsimp only
    cases hr' : k a s' with
    | ok b s'' => rw [hr'] at hks; exact hks.trans hms
    | error e s'' => rw [hr'] at hks; exact ⟨hks.1, hks.2.trans hms⟩

theorem quiet_ite {c : Prop} [Decidable c] {m m' : EStateM Exit σ α} (h : Quiet f m)
    (h' : Quiet f m') : Quiet f (if c then m else m') := by
  split_ifs <;> assumption

theorem quiet_ask (o : Option α) : Quiet f (ask o : EStateM Exit σ α) := by
  cases o with
  | none => exact quiet_threw
  | some a => exact quiet_pure a

theorem quiet_onlyIf {c : Prop} [Decidable c] {m : EStateM Exit σ Unit} (h : Quiet f m) :
    Quiet f (onlyIf c m) :=
  quiet_ite h (quiet_pure ())

theorem quiet_forM {l : List β} {k : β → EStateM Exit σ PUnit} (h : ∀ b, Quiet f (k b)) :
    Quiet f (l.forM k) := by
  induction l with
  | nil => exact quiet_pure _
  | cons b l ih => exact (h b).bind fun _ => ih

/-- A quiet program keeps what depends on the kept part only. -/
theorem Quiet.triple (h : Quiet f m) {I : γ → Prop} (hE : ∀ s, I (f s) → E .threw s) :
    Triple (fun s => I (f s)) m (fun _ s => I (f s)) E := by
  intro s hs
  have hm := h s
  cases hr : m s with
  | ok a s' =>
    rw [hr] at hm
    show I (f s')
    rw [hm]; exact hs
  | error e s' =>
    rw [hr] at hm
    obtain ⟨rfl, hf⟩ := hm
    apply hE
    rw [hf]; exact hs

end Quiet

/-! ### Programs that move the state along a relation -/

/-- However the program ends, its last state is related to its first one. -/
def Moves (r : σ → σ → Prop) (m : EStateM Exit σ α) : Prop :=
  ∀ s, match m s with
    | .ok _ s' => r s s'
    | .error _ s' => r s s'

section Moves

variable {r : σ → σ → Prop} {m : EStateM Exit σ α}

theorem Moves.mono {r' : σ → σ → Prop} (h : Moves r m) (hr : ∀ s s', r s s' → r' s s') :
    Moves r' m := by
  intro s
  have hm := h s
  cases hres : m s with
  | ok a s' => rw [hres] at hm; exact hr s s' hm
  | error e s' => rw [hres] at hm; exact hr s s' hm

/-- What is kept along the relation is kept by the program. -/
theorem Moves.triple (h : Moves r m) {I : σ → Prop} (hI : ∀ s s', r s s' → I s → I s') :
    Triple I m (fun _ => I) fun _ => I := by
  intro s hs
  have hm := h s
  cases hres : m s with
  | ok a s' => rw [hres] at hm; exact hI s s' hm hs
  | error e s' => rw [hres] at hm; exact hI s s' hm hs

theorem moves_modify {g : σ → σ} (h : ∀ s, r s (g s)) :
    Moves r (modify g : EStateM Exit σ PUnit) := h

theorem moves_ite {c : Prop} [Decidable c] {m' : EStateM Exit σ α} (h : Moves r m)
    (h' : Moves r m') : Moves r (if c then m else m') := by
  split_ifs <;> assumption

variable [IsPreorder σ r]

theorem moves_pure (a : α) : Moves r (pure a : EStateM Exit σ α) := fun s => refl_of r s

theorem moves_get : Moves r (get : EStateM Exit σ σ) := fun s => refl_of r s

theorem moves_throw (e : Exit) : Moves r (throw e : EStateM Exit σ α) := fun s => refl_of r s

theorem Moves.bind {k : α → EStateM Exit σ β} (hm : Moves r m) (hk : ∀ a, Moves r (k a)) :
    Moves r (m >>= k) := by
  intro s
  have hms := hm s
  show match EStateM.bind m k s with
    | .ok _ s' => r s s'
    | .error _ s' => r s s'
  unfold EStateM.bind
  cases hres : m s with
  | error e s' => rw [hres] at hms; exact hms
  | ok a s' =>
    rw [hres] at hms
    have hks := hk a s'
    dsimp only
    cases hres' : k a s' with
    | ok b s'' => rw [hres'] at hks; exact trans_of r hms hks
    | error e s'' => rw [hres'] at hks; exact trans_of r hms hks

theorem moves_ask (o : Option α) : Moves r (ask o : EStateM Exit σ α) := by
  cases o with
  | none => exact moves_throw _
  | some a => exact moves_pure a

theorem moves_onlyIf {c : Prop} [Decidable c] {m : EStateM Exit σ Unit} (h : Moves r m) :
    Moves r (onlyIf c m) :=
  moves_ite h (moves_pure ())

theorem moves_forM {l : List β} {k : β → EStateM Exit σ PUnit} (h : ∀ b, Moves r (k b)) :
    Moves r (l.forM k) := by
  induction l with
  | nil => exact moves_pure _
  | cons b l ih => exact (h b).bind fun _ => ih

end Moves

/-! ### Loops -/

/-- A `while` loop.  The list has the inputs of the iterations that are looked at; the loop may go
on after the last of them. -/
def whileLoop (guard : τ → σ → Bool) (body : τ → EStateM Exit σ Unit) : List τ → σ → σ
  | [], s => s
  | t :: ts, s =>
    if guard t s then
      match body t s with
      | .ok _ s' => whileLoop guard body ts s'
      | .error .again s' => whileLoop guard body ts s'
      | .error .leave s' => s'
      | .error .threw s' => s'
    else s

/-- The loop goes on with `I` after a `continue`, and stops with `J`. -/
def exits (I J : σ → Prop) : Exit → σ → Prop
  | .again => I
  | .leave => J
  | .threw => J

/-! ### The iterations of a loop -/

/-- The iterations that a loop enters: the input of each, and the state at its beginning. -/
def entered (guard : τ → σ → Bool) (body : τ → EStateM Exit σ Unit) : List τ → σ → List (τ × σ)
  | [], _ => []
  | t :: ts, s =>
    if guard t s then
      (t, s) :: match body t s with
        | .ok _ s' => entered guard body ts s'
        | .error .again s' => entered guard body ts s'
        | .error .leave _ => []
        | .error .threw _ => []
    else []

section Entered

variable {guard : τ → σ → Bool} {body : τ → EStateM Exit σ Unit} {ts : List τ}

theorem entered_singleton {t : τ} {s : σ} (h : guard t s = true) :
    entered guard body [t] s = [(t, s)] := by
  rw [entered, if_pos h]
  rcases body t s with ⟨a, s'⟩ | ⟨e, s'⟩
  · rfl
  · cases e <;> rfl

/-- The iteration number `k` has the input number `k`. -/
theorem input_of_entered {s₀ s : σ} {k : ℕ} {t : τ}
    (h : (entered guard body ts s₀)[k]? = some (t, s)) : ts[k]? = some t := by
  induction ts generalizing s₀ k with
  | nil => cases h
  | cons t' ts ih =>
    unfold entered at h
    split_ifs at h with hg
    · cases k with
      | zero => cases h; rfl
      | succ k =>
        rw [List.getElem?_cons_succ] at h ⊢
        cases hr : body t' s₀ with
        | ok a s' => rw [hr] at h; exact ih h
        | error e s' =>
          rw [hr] at h
          cases e with
          | again => exact ih h
          | leave => cases h
          | threw => cases h
    · cases h

section Next

variable {t : τ} {s s' : σ}

/-- The iterations after the first one begin in the state in which that ended. -/
theorem entered_cons (hg : guard t s = true)
    (h : body t s = .ok () s' ∨ body t s = .error .again s') :
    entered guard body (t :: ts) s = (t, s) :: entered guard body ts s' := by
  rw [entered, if_pos hg]
  rcases h with h | h <;> rw [h]

theorem entered_cons_of_stop (hg : guard t s = true) {e : Exit} (h : body t s = .error e s')
    (he : e ≠ .again) : entered guard body (t :: ts) s = [(t, s)] := by
  rw [entered, if_pos hg, h]
  cases e with
  | again => exact absurd rfl he
  | leave => rfl
  | threw => rfl

theorem whileLoop_cons (hg : guard t s = true)
    (h : body t s = .ok () s' ∨ body t s = .error .again s') :
    whileLoop guard body (t :: ts) s = whileLoop guard body ts s' := by
  rw [whileLoop, if_pos hg]
  rcases h with h | h <;> rw [h]

theorem whileLoop_cons_of_stop (hg : guard t s = true) {e : Exit} (h : body t s = .error e s')
    (he : e ≠ .again) : whileLoop guard body (t :: ts) s = s' := by
  rw [whileLoop, if_pos hg, h]
  cases e with
  | again => exact absurd rfl he
  | leave => rfl
  | threw => rfl

end Next

/-- **The invariant rule for iterations**: what the body carries from the iteration number `k` to the
next one holds at the beginning of every iteration. -/
theorem entered_keeps {I : ℕ → σ → Prop} {s₀ : σ}
    (hbody : ∀ k t s, (entered guard body ts s₀)[k]? = some (t, s) → I k s → guard t s = true →
      Triple (fun s' => s' = s) (body t) (fun _ => I (k + 1)) (exits (I (k + 1)) fun _ => True))
    (hs : I 0 s₀) {k : ℕ} {t : τ} {s : σ}
    (h : (entered guard body ts s₀)[k]? = some (t, s)) : I k s ∧ guard t s = true := by
  induction ts generalizing I s₀ k with
  | nil => cases h
  | cons t' ts ih =>
    by_cases hg : guard t' s₀ = true
    swap
    · rw [entered, if_neg hg] at h
      cases h
    have hfirst := hbody 0 t' s₀ (by rw [entered, if_pos hg]; rfl) hs hg s₀ rfl
    have hgo : ∀ s', (body t' s₀ = .ok () s' ∨ body t' s₀ = .error .again s') → I 1 s' →
        I k s ∧ guard t s = true := by
      intro s' hres hs'
      rw [entered_cons hg hres] at h hbody
      cases k with
      | zero => cases h; exact ⟨hs, hg⟩
      | succ k =>
        rw [List.getElem?_cons_succ] at h
        refine ih (I := fun j => I (j + 1)) (fun j t s hj => ?_) hs' h
        exact hbody (j + 1) t s (by rw [List.getElem?_cons_succ]; exact hj)
    cases hres : body t' s₀ with
    | ok a s' => rw [hres] at hfirst; exact hgo s' (Or.inl hres) hfirst
    | error e s' =>
      rw [hres] at hfirst
      by_cases he : e = .again
      · subst he
        exact hgo s' (Or.inr hres) hfirst
      · rw [entered_cons_of_stop hg hres he] at h
        cases k with
        | zero => cases h; exact ⟨hs, hg⟩
        | succ k => cases h

/-- **The invariant rule**: what the body carries from one iteration to the next holds when the loop is
looked at, unless it was left in the middle of an iteration. -/
theorem whileLoop_keeps {I : ℕ → σ → Prop} {J : σ → Prop} {s₀ : σ} (hIJ : ∀ k s, I k s → J s)
    (hbody : ∀ k t s, (entered guard body ts s₀)[k]? = some (t, s) → I k s → guard t s = true →
      Triple (fun s' => s' = s) (body t) (fun _ => I (k + 1)) (exits (I (k + 1)) J))
    (hs : I 0 s₀) : J (whileLoop guard body ts s₀) := by
  induction ts generalizing I s₀ with
  | nil => exact hIJ 0 s₀ hs
  | cons t ts ih =>
    by_cases hg : guard t s₀ = true
    swap
    · rw [whileLoop, if_neg hg]
      exact hIJ 0 s₀ hs
    have hfirst := hbody 0 t s₀ (by rw [entered, if_pos hg]; rfl) hs hg s₀ rfl
    have hgo : ∀ s', (body t s₀ = .ok () s' ∨ body t s₀ = .error .again s') → I 1 s' →
        J (whileLoop guard body (t :: ts) s₀) := by
      intro s' hres hs'
      rw [entered_cons hg hres] at hbody
      rw [whileLoop_cons hg hres]
      refine ih (I := fun j => I (j + 1)) (fun j => hIJ (j + 1)) (fun j t s hj => ?_) hs'
      exact hbody (j + 1) t s (by rw [List.getElem?_cons_succ]; exact hj)
    cases hres : body t s₀ with
    | ok a s' => rw [hres] at hfirst; exact hgo s' (Or.inl hres) hfirst
    | error e s' =>
      rw [hres] at hfirst
      by_cases he : e = .again
      · subst he
        exact hgo s' (Or.inr hres) hfirst
      · rw [whileLoop_cons_of_stop hg hres he]
        cases e with
        | again => exact absurd rfl he
        | leave => exact hfirst
        | threw => exact hfirst

end Entered

end P2Player.Program
