import P2Player.Java.Text

/-!
# Lists of strings in a property

`ConfigurationManager` keeps a list of strings as one comma-separated property.

* `collectionToString`, `getStringCollection`: `StringUtils`' two conversions;
* `getStringCollection_collectionToString`: the second undoes the first on strings that are not
  empty and have no comma.
-/

namespace P2Player.Java

/-- `StringUtils.collectionToString`: every string is followed by a comma, and the last comma is
deleted. -/
def collectionToString (strs : List JString) : JString :=
  if strs = [] then [] else (strs.flatMap fun str => str ++ [',']).dropLast

/-- `StringUtils.getStringCollection` of a property that is set: the tokens between commas. -/
def getStringCollection (str : JString) : List JString := (str.splitOn ',').filter (· ≠ [])

theorem flatMap_append_sep (c : Char) (str : JString) (strs : List JString) :
    (str :: strs).flatMap (fun s => s ++ [c]) = [c].intercalate (str :: strs) ++ [c] := by
  induction strs generalizing str with
  | nil => simp
  | cons t strs ih =>
    rw [List.flatMap_cons, ih, List.intercalate_cons_cons]
    simp only [List.append_assoc]

theorem collectionToString_eq (strs : List JString) :
    collectionToString strs = [','].intercalate strs := by
  cases strs with
  | nil => rfl
  | cons str strs =>
    rw [collectionToString, if_neg (List.cons_ne_nil _ _), flatMap_append_sep, List.dropLast_concat]

/-- **Reading a written list gives it back.** -/
theorem getStringCollection_collectionToString {strs : List JString}
    (h : ∀ s ∈ strs, ',' ∉ s ∧ s ≠ []) : getStringCollection (collectionToString strs) = strs := by
  rw [collectionToString_eq, getStringCollection]
  by_cases hnil : strs = []
  · subst hnil; rfl
  · rw [List.splitOn_intercalate ',' (fun s hs => (h s hs).1) hnil]
    apply List.filter_eq_self.2
    intro s hs
    simpa using (h s hs).2

end P2Player.Java
