import P2Player.Pieces.PiecesState

/-!
# Counting and searching in a `PiecesState`

* `getNumDone`: the pieces of the window that are done;
* `getFirstIncomplete`, `getLastIncomplete`: the ends of the window that are not done.

An exception is `none` in each of them.
-/

namespace P2Player.PiecesState

open Java

/-- `BitsSetTable256`, an entry being the last bit and the entry of the remaining bits. -/
def bitsSet : ℕ → ℕ → ℕ
  | 0, _ => 0
  | bits + 1, i => i % 2 + bitsSet bits (i / 2)

/-- The set bits of the first `n` bytes. -/
def countBits (xs : List UInt8) : ℕ → Option ℤ
  | 0 => some 0
  | n + 1 =>
    match countBits xs n, xs[n]? with
    | some counter, some b => some (toInt (counter + bitsSet 8 b.toNat))
    | _, _ => none

/-- `getNumDone`, which clears the bits of the first byte before the window. -/
def getNumDone (ps : PiecesState) : Option (ℤ × PiecesState) :=
  match ps.states with
  | none => none
  | some [] => none
  | some (b :: bs) =>
    let xs := (b &&& ps.mark) :: bs
    (countBits xs ps.stateLen.toNat).map fun counter => (counter, { ps with states := some xs })

/-- The loop of `getFirstIncomplete`, over the `n` indices from `i` on. -/
def searchUp (ps : PiecesState) : ℕ → ℤ → Option ℤ
  | 0, i => some i
  | n + 1, i => (ps.isDone i).bind fun b => if b then searchUp ps n (i + 1) else some i

/-- The loop of `getLastIncomplete`, over the `n` indices from `i` down. -/
def searchDown (ps : PiecesState) : ℕ → ℤ → Option ℤ
  | 0, i => some i
  | n + 1, i => (ps.isDone i).bind fun b => if b then searchDown ps n (i - 1) else some i

/-- `getFirstIncomplete(index)`. -/
def getFirstIncomplete (ps : PiecesState) (index : ℤ) : Option ℤ :=
  let n := toInt (ps.fromIdx + ps.len)
  if index < ps.fromIdx ∨ n ≤ index then none
  else (searchUp ps (n - index).toNat index).map fun i => if i = n then -1 else i

/-- The loop of `getLastIncomplete` from `index` on. -/
def lastIncompleteFrom (ps : PiecesState) (index : ℤ) : Option ℤ :=
  (searchDown ps (index + 1 - ps.fromIdx).toNat index).map fun i =>
    if i = ps.fromIdx - 1 then -1 else i

/-- `getLastIncomplete()`. -/
def getLastIncomplete (ps : PiecesState) : Option ℤ :=
  lastIncompleteFrom ps (toInt (ps.fromIdx + ps.len - 1))

/-- `getLastIncomplete(index)`. -/
def getLastIncompleteAt (ps : PiecesState) (index : ℤ) : Option ℤ :=
  if index < ps.fromIdx ∨ toInt (ps.fromIdx + ps.len) ≤ index then none
  else lastIncompleteFrom ps index

end P2Player.PiecesState
