import Mathlib.Tactic

/-!
# Lifetimes of heap objects

Objects are named by their address, and no address is used twice.  A log lists the accesses to
them, the newest first; it is sound when no access, be it a use or a second `delete`, comes after
the object was deleted.
-/

namespace P2Player

variable {α : Type*}

/-- An access to a heap object. -/
inductive Access (α : Type*)
  | use (x : α)
  | delete (x : α)
  deriving DecidableEq

/-- The object accessed. -/
def Access.obj : Access α → α
  | .use x => x
  | .delete x => x

/-- The object has been deleted. -/
def Deleted (log : List (Access α)) (x : α) : Prop := .delete x ∈ log

/-- No access to an object follows its deletion. -/
def Sound : List (Access α) → Prop
  | [] => True
  | e :: older => ¬ Deleted older e.obj ∧ Sound older

@[simp] theorem sound_nil : Sound ([] : List (Access α)) := trivial

@[simp] theorem not_deleted_nil (x : α) : ¬ Deleted [] x := by simp [Deleted]

@[simp] theorem deleted_use_cons {log : List (Access α)} {x y : α} :
    Deleted (.use x :: log) y ↔ Deleted log y := by simp [Deleted]

@[simp] theorem deleted_delete_cons {log : List (Access α)} {x y : α} :
    Deleted (.delete x :: log) y ↔ y = x ∨ Deleted log y := by simp [Deleted]

@[simp] theorem sound_use_cons {log : List (Access α)} {x : α} :
    Sound (.use x :: log) ↔ ¬ Deleted log x ∧ Sound log := Iff.rfl

@[simp] theorem sound_delete_cons {log : List (Access α)} {x : α} :
    Sound (.delete x :: log) ↔ ¬ Deleted log x ∧ Sound log := Iff.rfl

/-- In a sound log every object is deleted at most once. -/
theorem Sound.count_delete_le_one [DecidableEq α] {log : List (Access α)} (h : Sound log) (x : α) :
    log.count (.delete x) ≤ 1 := by
  induction log with
  | nil => simp
  | cons e log ih =>
    rw [List.count_cons]
    split_ifs with he
    · obtain rfl := eq_of_beq he
      rw [List.count_eq_zero.2 (sound_delete_cons.1 h).1]
    · exact ih h.2

end P2Player
