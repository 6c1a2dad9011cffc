import Mathlib.Computability.Language
import Mathlib.Tactic

/-!
# Streams of messages

A stream is a sequence of messages without separators, a word of the Kleene star of the language of
messages.  When no message begins with another one, a reader that has read a word of the star is at a
boundary: what it reads from there on does not depend on what it has read.

* `Delimited`: no message is empty or begins with another one;
* `append_mem_kstar_iff`: a boundary stays one;
* `notMem_kstar_of_prefix`: within a message there is no boundary.
-/

namespace P2Player.Framing

open Computability

variable {α : Type*} {M : Language α} {m r x : List α}

/-- Messages that can be told apart as they are read. -/
structure Delimited (M : Language α) : Prop where
  nil_notMem : [] ∉ M
  eq_of_prefix : ∀ m ∈ M, ∀ m' ∈ M, m <+: m' → m = m'

/-- A stream is empty or begins with a message. -/
theorem mem_kstar_cases (h : x ∈ M∗) : x = [] ∨ ∃ m ∈ M, ∃ r ∈ M∗, m ++ r = x := by
  rw [← Language.one_add_self_mul_kstar_eq_kstar, Language.mem_add, Language.mem_one] at h
  exact h

theorem append_mem_kstar (hr : r ∈ M∗) (hx : x ∈ M∗) : r ++ x ∈ M∗ := by
  rw [← kstar_mul_kstar]
  exact Language.append_mem_mul hr hx

theorem mem_kstar_of_mem (hm : m ∈ M) : m ∈ M∗ := (le_kstar : M ≤ M∗) hm

/-- Behind a message the stream goes on with a message. -/
theorem Delimited.mem_kstar_of_append (h : Delimited M) (hm : m ∈ M) (hx : m ++ x ∈ M∗) : x ∈ M∗ := by
  rcases mem_kstar_cases hx with hnil | ⟨m', hm', r, hr, heq⟩
  · obtain ⟨rfl, -⟩ := List.append_eq_nil_iff.1 hnil
    exact absurd hm h.nil_notMem
  · have hsame : m' = m := by
      rcases List.prefix_or_prefix_of_prefix (List.prefix_append m' r)
        (heq ▸ List.prefix_append m x) with hpre | hpre
      · exact h.eq_of_prefix m' hm' m hm hpre
      · exact (h.eq_of_prefix m hm m' hm' hpre).symm
    subst hsame
    rwa [← List.append_cancel_left heq]

/-- From a boundary on, the boundaries are those of what follows. -/
theorem Delimited.append_mem_kstar_iff (h : Delimited M) (hr : r ∈ M∗) : r ++ x ∈ M∗ ↔ x ∈ M∗ := by
  refine ⟨fun hx => ?_, append_mem_kstar hr⟩
  obtain ⟨L, rfl, hL⟩ := Language.mem_kstar.1 hr
  clear hr
  induction L with
  | nil => exact hx
  | cons m L ih =>
    rw [List.flatten_cons, List.append_assoc] at hx
    exact ih (fun y hy => hL y (List.mem_cons_of_mem m hy))
      (h.mem_kstar_of_append (hL m List.mem_cons_self) hx)

/-- A proper part of a message is not a stream of messages. -/
theorem Delimited.notMem_kstar_of_prefix (h : Delimited M) (hm : m ∈ M) (hx : x <+: m) (hne : x ≠ [])
    (hlt : x ≠ m) : x ∉ M∗ := by
  intro hstar
  rcases mem_kstar_cases hstar with rfl | ⟨m', hm', r, -, rfl⟩
  · exact hne rfl
  · have hpre : m' <+: m := (List.prefix_append m' r).trans hx
    obtain rfl := h.eq_of_prefix m' hm' m hm hpre
    exact hlt (hx.eq_of_length_le (by simp))

end P2Player.Framing
