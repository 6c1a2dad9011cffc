import P2Player.Lib.Slice

/-!
# Storing a file

`SaveFile` stores resume data and the session's state: it opens the file for writing, which creates
one that does not exist and keeps the content of one that does, and writes the vector at its
beginning.

* `Write`: how far the write gets;
* `saveFile`: the result and the file afterwards;
* `Stores`: a success leaves the vector, an error what was there before;
* `stores_iff`: a success must not meet a longer file, an error must stop within equal bytes;
* `getElem?_saveAll`: after any number of stores, a byte is from the last one that reached it.
-/

namespace P2Player.Native

/-- The content of a file, unless there is none. -/
abbrev FileContent := Option (List UInt8)

/-- What `file::writev` has written when it ends, at most `n` bytes: it returns their number, or -1
with an error. -/
inductive Write
  | returns (n : ℕ)
  | error (n : ℕ)

/-- The bytes of the buffer that are in the file afterwards. -/
def Write.bytes (v : List UInt8) : Write → List UInt8
  | .returns n => v.take n
  | .error n => v.take n

/-- The result of `file::writev`. -/
def Write.result (v : List UInt8) : Write → ℤ
  | .returns n => (v.take n).length
  | .error _ => -1

/-- `SaveFile`, when `file::open` fails or the write goes as given.  With `write_only` the file is not
truncated, and neither an open that succeeds nor a complete write sets the error code. -/
def saveFile (old : FileContent) (v : List UInt8) : Option Write → ℤ × FileContent
  | none => (-1, old)
  | some w =>
    let content := overwrite (old.getD []) 0 (w.bytes v)
    if w.result v ≠ v.length then (-3, some content) else (0, some content)

/-- After a success the file holds the vector; after an error it holds what it held before. -/
structure Stores (old : FileContent) (v : List UInt8) (result : ℤ × FileContent) : Prop where
  content : result.1 = 0 → result.2 = some v
  previous : result.1 ≠ 0 → ∀ p, old = some p → result.2 = some p

/-- All bytes are written and the file was not longer; or the write stops early, and there was no file
or it begins with the bytes that are written. -/
def Write.Harmless (old : FileContent) (v : List UInt8) (w : Write) : Prop :=
  if w.result v = v.length then (old.getD []).length ≤ v.length
  else ∀ p, old = some p → w.bytes v <+: p

/-! ### One store -/

theorem Write.bytes_of_complete {v : List UInt8} {w : Write} (h : w.result v = v.length) :
    w.bytes v = v := by
  cases w with
  | returns n =>
    have hlen : (v.take n).length = v.length := Int.ofNat_inj.1 h
    exact (List.take_prefix n v).eq_of_length hlen
  | error n => exact absurd h (by simp only [Write.result]; omega)

/-- **A store keeps its promise exactly when its write is harmless.** -/
theorem stores_iff (old : FileContent) (v : List UInt8) (outcome : Option Write) :
    Stores old v (saveFile old v outcome) ↔ ∀ w, outcome = some w → w.Harmless old v := by
  cases outcome with
  | none => exact ⟨fun _ w hw => (by cases hw), fun _ => ⟨fun h => (by cases h), fun _ p hp => hp⟩⟩
  | some w =>
    by_cases hw : w.result v = v.length
    · have hsave : saveFile old v (some w) = (0, some (overwrite (old.getD []) 0 v)) := by
        rw [saveFile, w.bytes_of_complete hw]
        exact if_neg (not_not.2 hw)
      rw [hsave]
      constructor
      · rintro ⟨hcontent, -⟩ w' hw'
        cases hw'
        rw [Write.Harmless, if_pos hw]
        exact overwrite_zero_eq_iff.1 (Option.some.inj (hcontent rfl))
      · intro h
        have hle := h w rfl
        rw [Write.Harmless, if_pos hw] at hle
        exact ⟨fun _ => congrArg some (overwrite_zero_eq_iff.2 hle), fun h0 => absurd rfl h0⟩
    · have hsave : saveFile old v (some w) =
          (-3, some (overwrite (old.getD []) 0 (w.bytes v))) := if_pos hw
      rw [hsave]
      constructor
      · rintro ⟨-, hprevious⟩ w' hw'
        cases hw'
        rw [Write.Harmless, if_neg hw]
        intro p hp
        have hsame := Option.some.inj (hprevious (show (-3 : ℤ) ≠ 0 by decide) p hp)
        rw [hp] at hsame
        exact overwrite_zero_eq_self_iff.1 hsame
      · intro h
        have hbegin := h w rfl
        rw [Write.Harmless, if_neg hw] at hbegin
        refine ⟨fun h0 => absurd h0 (show (-3 : ℤ) ≠ 0 by decide), fun _ p hp => ?_⟩
        subst hp
        exact congrArg some (overwrite_zero_eq_self_iff.2 (hbegin p rfl))

/-- Two bytes are followed by what is left of three longer ones. -/
theorem not_stores_shorter : ¬ Stores (some [1, 2, 3]) [4, 5] (saveFile (some [1, 2, 3]) [4, 5]
    (some (.returns 2))) := by
  rintro ⟨hcontent, -⟩
  exact absurd (hcontent rfl) (by decide)

/-! ### Many stores -/

/-- The file after one store after the other. -/
def saveAll (old : FileContent) (saves : List (List UInt8 × Option Write)) : FileContent :=
  saves.foldl (fun content save => (saveFile content save.1 save.2).2) old

/-- The bytes that a store has written. -/
def written (save : List UInt8 × Option Write) : List UInt8 :=
  (save.2.map fun w => w.bytes save.1).getD []

theorem getD_saveFile (old : FileContent) (v : List UInt8) (outcome : Option Write) :
    (saveFile old v outcome).2.getD [] = overwrite (old.getD []) 0 (written (v, outcome)) := by
  cases outcome with
  | none => exact (overwrite_zero (old.getD []) []).symm
  | some w =>
    rw [saveFile]
    split_ifs <;> rfl

/-- **Every byte of the file is from the last store that reached it, or was there before.** -/
theorem getElem?_saveAll (old : FileContent) (saves : List (List UInt8 × Option Write)) (i : ℕ) :
    ((saveAll old saves).getD [])[i]? =
      (((saves.reverse.map written) ++ [old.getD []]).find? fun d => i < d.length).bind
        fun d => d[i]? := by
  induction saves using List.reverseRecOn with
  | nil =>
    by_cases h : i < (old.getD []).length
    · simp [saveAll, h]
    · simp [saveAll, h]
  | append_singleton saves save ih =>
    have hlast : saveAll old (saves ++ [save]) = (saveFile (saveAll old saves) save.1 save.2).2 := by
      rw [saveAll, List.foldl_append]
      rfl
    rw [hlast, getD_saveFile, getElem?_overwrite_zero, List.reverse_append, List.reverse_singleton,
      List.singleton_append, List.map_cons, List.cons_append]
    by_cases h : i < (written save).length
    · rw [if_pos h, List.find?_cons_of_pos (by simpa using h)]
      rfl
    · rw [if_neg h, List.find?_cons_of_neg (by simpa using h), ih]

end P2Player.Native
