import P2Player.Lib.Loop
import P2Player.Lib.Slice
import P2Player.Native.Bencode

/-!
# Reading bencoded entries

`lazy_bdecode` goes once through a buffer, with a stack of the lists and dictionaries that are open, and
builds a tree of pointers into the buffer.

* `LazyEntry`, `Frame`, `State`, `body`, `lazyBdecode`: the tree and how it is built; positions stand for
  pointers;
* `Memory`: where the buffer is, for the pointers that are compared; `capacity`: how arrays grow;
* `toEntry`, `dictFind`: how it is read;
* `lazyAt`: the tree of an entry that is written at a position;
* `lazyBdecode_bencode`: that tree is built;
* `toEntry_lazyBdecode`, `section_of_dictFind`: what was written is read again, and each member of a
  dictionary is found with the bytes that were written for it.
-/

namespace P2Player.Bencode

open Loop

/-- `lazy_entry`, with `m_begin` and `m_end`.  When a length leads out of the buffer, it is undefined what is
built; `astray` stands for that. -/
inductive LazyEntry
  | none
  | astray
  | dict (members : List (ℕ × LazyEntry)) (first last : ℕ)
  | list (items : List LazyEntry) (first last : ℕ)
  | string (start size first last : ℕ)
  | int (start size first last : ℕ)

/-- `m_begin`. -/
def LazyEntry.first : LazyEntry → ℕ
  | .none | .astray => 0
  | .dict _ first _ => first
  | .list _ first _ => first
  | .string _ _ first _ => first
  | .int _ _ first _ => first

/-- `m_end`. -/
def LazyEntry.last : LazyEntry → ℕ
  | .none | .astray => 0
  | .dict _ _ last => last
  | .list _ _ last => last
  | .string _ _ _ last => last
  | .int _ _ _ last => last

/-- `construct_string`. -/
def constructString (start length : ℕ) : LazyEntry :=
  .string start length (start - 1 - numDigits length) (start + length)

/-- `construct_int`. -/
def constructInt (start length : ℕ) : LazyEntry := .int start length (start - 1) (start + length + 1)

/-- A list or a dictionary on the stack; `name` is that of the member which is being read. -/
inductive Frame
  | dict (members : List (ℕ × LazyEntry)) (name first : ℕ)
  | list (items : List LazyEntry) (first : ℕ)

/-- An entry is complete, as the last one of its list or dictionary. -/
def Frame.add (e : LazyEntry) : Frame → Frame
  | .dict members name first => .dict (members ++ [(name, e)]) name first
  | .list items first => .list (items ++ [e]) first

/-- `set_end`. -/
def Frame.close (last : ℕ) : Frame → LazyEntry
  | .dict members _ first => .dict members first last
  | .list items first => .list items first last

/-- `int`. -/
def int32 (x : ℤ) : ℤ := x.bmod (2 ^ 32)

/-- `m_capacity` after `list_append` or `dict_append`, with the entries before.  An array of a size that has
overflown is not allocated, which gives `none`. -/
def grow (size capacity : ℕ) : Option ℕ :=
  if capacity = 0 then some 5
  else if size = capacity then
    let capacity := (int32 (capacity * 150)).tdiv 100
    if capacity ≤ size then none else some capacity.toNat
  else some capacity

/-- `m_capacity` of a list or dictionary to which so many entries were appended. -/
def capacity : ℕ → Option ℕ
  | 0 => some 0
  | size + 1 => (capacity size).bind (grow size)

/-- The addresses of a buffer of `n` bytes, whose lengths and sizes are `int`. -/
structure Memory (n : ℕ) where
  bits : ℕ
  base : ℕ
  fits : base + n < 2 ^ bits
  small : n < 2 ^ 31

/-- What becomes of a length. -/
inductive Length
  | refused
  | outside
  | taken (len : ℕ)

/-- `start + len + extra > end || *start != ':'`, where `start` is a pointer to `tail`.  The sum is a pointer
too, with as many bits. -/
def Memory.check {n : ℕ} (m : Memory n) (extra start : ℕ) (len : ℤ) (tail : List UInt8) : Length :=
  if ((m.base + n : ℕ) : ℤ) < (m.base + start + len + extra) % 2 ^ m.bits ∨ tail.head?.any (· ≠ byte ':') then
    .refused
  -- a sum that has overflown, or a length below zero
  else if len < 0 ∨ tail.length < len + extra then .outside
  else .taken len.toNat

/-- The pointer `start` with the bytes from there on, and the stack.  `ret` is complete when the stack is
empty; before its first byte is read the stack has just `ret`. -/
structure State where
  start : ℕ
  rest : List UInt8
  stack : List Frame
  ret : Option LazyEntry

def State.advance (s : State) (k : ℕ) : State :=
  { s with start := s.start + k, rest := s.rest.drop k }

/-- `stack.pop_back()`, with the entry that is complete. -/
def State.pop (e : LazyEntry) (s : State) : State :=
  match s.stack with
  | [] => { s with ret := some e }
  | f :: stack => { s with stack := f.add e :: stack }

/-- `set_end` and `stack.pop_back()` of a list or dictionary. -/
def State.close (f : Frame) (stack : List Frame) (s : State) : State :=
  { s with stack := stack }.pop (f.close s.start)

/-- A length has led out of the buffer. -/
def State.leave (s : State) : State := { s with rest := [], stack := [], ret := some .astray }

section Decode

variable {n : ℕ} (m : Memory n)

/-- The second `switch`, by the byte at `start`. -/
def construct (s : State) : Option State :=
  match s.rest with
  | [] => none
  | t :: _ =>
    let s := s.advance 1
    if t = byte 'd' then some { s with stack := .dict [] 0 (s.start - 1) :: s.stack }
    else if t = byte 'l' then some { s with stack := .list [] (s.start - 1) :: s.stack }
    else if t = byte 'i' then
      let length := (s.rest.takeWhile (· ≠ byte 'e')).length
      let e := constructInt s.start length
      let s := s.advance length
      if s.rest = [] then none else some ((s.advance 1).pop e)
    else if isDigit t then
      match parseInt (byte ':') (t.toNat - 48) s.rest with
      | (len, some tail) =>
        match m.check 1 (s.start + (s.rest.length - tail.length)) len tail with
        | .refused => none
        | .outside => some s.leave
        | .taken len =>
          let s := s.advance (s.rest.length - tail.length + 1)
          some ((s.advance len).pop (constructString s.start len))
      | (_, none) => none
    else none

/-- The body of the loop; the first `switch` reads the key of a member. -/
def body (depthLimit : ℕ) (s : State) : Option State :=
  if depthLimit < max 1 s.stack.length then none
  else
    match s.rest with
    | [] => none
    | t :: rest =>
      if rest = [] ∧ t ≠ byte 'e' then none
      else
        match s.stack with
        | .dict members name first :: stack =>
          if t = byte 'e' then some ((s.advance 1).close (.dict members name first) stack)
          else if isDigit t then
            match parseInt (byte ':') (t.toNat - 48) rest with
            | (len, some tail) =>
              match m.check 3 (s.start + 1 + (rest.length - tail.length)) len tail with
              | .refused => none
              | .outside => some s.leave
              | .taken len =>
                let s := s.advance (1 + (rest.length - tail.length) + 1)
                let key := s.advance len
                if s.rest = [] ∨ capacity (members.length + 1) = none ∨ key.rest = [] then none
                else construct m { key with stack := .dict members s.start first :: stack }
            | (_, none) => none
          else none
        | .list items first :: stack =>
          if t = byte 'e' then some ((s.advance 1).close (.list items first) stack)
          else if capacity (items.length + 1) = none then none
          else construct m s
        | [] => construct m s

/-- The condition of the loop, with the `break`. -/
def running (s : State) : Bool := !s.rest.isEmpty && s.ret.isNone

/-- What `ret` has become when the buffer ends: lists and dictionaries that are open have no end. -/
def State.result (s : State) : LazyEntry :=
  match s.ret, s.stack with
  | some e, _ => e
  | none, [] => .none
  | none, f :: stack => stack.foldl (fun e f => (f.add e).close 0) (f.close 0)

/-- `lazy_bdecode`, `none` for an error. -/
def lazyBdecode {buf : List UInt8} (m : Memory buf.length) (depthLimit : ℕ) : Option LazyEntry :=
  (loop running (body m depthLimit) buf.length ⟨0, buf, [], none⟩).map State.result

end Decode

/-! ### Reading the tree -/

/-- `int_value`. -/
def intValue (buf : List UInt8) (start size : ℕ) : ℤ :=
  let text := slice buf start size
  if text.head? = some (byte '-') then -(parseInt (byte 'e') 0 text.tail).1
  else (parseInt (byte 'e') 0 text).1

/-- `operator[]` of a `std::map`, with what is assigned to it. -/
def assign (key : List UInt8) (e : Entry) : List (List UInt8 × Entry) → List (List UInt8 × Entry)
  | [] => [(key, e)]
  | (k, e') :: d =>
    if key < k then (key, e) :: (k, e') :: d
    else if key = k then (key, e) :: d
    else (k, e') :: assign key e d

/-- The key of a member, which ends where its value begins. -/
def memberKey (buf : List UInt8) (name : ℕ) (e : LazyEntry) : List UInt8 := slice buf name (e.first - name)

mutual

/-- `entry::operator=(lazy_entry const&)`, `none` when it throws for an entry of another type.  What an
entry has already stays in it: the members of two dictionaries of one key come together. -/
def assignLazy (buf : List UInt8) (self : Entry) : LazyEntry → Option Entry
  | .none => some .undefined
  | .astray => none
  | .string start size _ _ =>
    match self with
    | .undefined | .string _ => some (.string (slice buf start size))
    | _ => none
  | .int start size _ _ =>
    match self with
    | .undefined | .int _ => some (.int (intValue buf start size))
    | _ => none
  | .list items _ _ =>
    match self with
    | .undefined => (pushBack buf [] items).map .list
    | .list l => (pushBack buf l items).map .list
    | _ => none
  | .dict members _ _ =>
    match self with
    | .undefined => (assignMembers buf [] members).map .dict
    | .dict d => (assignMembers buf d members).map .dict
    | _ => none

def pushBack (buf : List UInt8) (l : List Entry) : List LazyEntry → Option (List Entry)
  | [] => some l
  | e :: items => (assignLazy buf .undefined e).bind fun e' => pushBack buf (l ++ [e']) items

def assignMembers (buf : List UInt8) (d : List (List UInt8 × Entry)) :
    List (ℕ × LazyEntry) → Option (List (List UInt8 × Entry))
  | [] => some d
  | (name, e) :: members =>
    let key := memberKey buf name e
    (assignLazy buf ((d.lookup key).getD .undefined) e).bind fun e' =>
      assignMembers buf (assign key e' d) members

end

/-- An entry which is new, with what was read. -/
def toEntry (buf : List UInt8) (e : LazyEntry) : Option Entry := assignLazy buf .undefined e

/-- `string_equal`; the first string ends with a zero, the second one has a length. -/
def stringEqual : List UInt8 → List UInt8 → Bool
  | s, [] => s.isEmpty
  | [], _ :: _ => false
  | a :: s, c :: t => a = c && a ≠ 0 && stringEqual s t

/-- `dict_find`. -/
def dictFind (buf : List UInt8) (name : List UInt8) : LazyEntry → Option LazyEntry
  | .dict members _ _ => (members.find? fun m => stringEqual name (memberKey buf m.1 m.2)).map Prod.snd
  | _ => none

/-- The bytes of `data_section`. -/
def dataSection (buf : List UInt8) (e : LazyEntry) : List UInt8 := slice buf e.first (e.last - e.first)

/-! ### The tree -/

mutual

/-- The tree of an entry that is written at `pos`. -/
def lazyAt (pos : ℕ) : Entry → LazyEntry
  | .undefined => .none
  | .int i => constructInt (pos + 1) (integerToStr i).length
  | .string s => constructString (pos + (integerToStr s.length).length + 1) s.length
  | .list l => .list (lazyItems (pos + 1) l) pos (pos + 1 + (bencodeList l).length + 1)
  | .dict d => .dict (lazyMembers (pos + 1) d) pos (pos + 1 + (bencodeDict d).length + 1)

def lazyItems (pos : ℕ) : List Entry → List LazyEntry
  | [] => []
  | e :: l => lazyAt pos e :: lazyItems (pos + (bencode e).length) l

def lazyMembers (pos : ℕ) : List (List UInt8 × Entry) → List (ℕ × LazyEntry)
  | [] => []
  | (key, e) :: d =>
    (pos + (integerToStr key.length).length + 1, lazyAt (pos + (writeString key).length) e) ::
      lazyMembers (pos + (writeString key).length + (bencode e).length) d

end

/-! ### Arrays -/

/-- The capacities that an array has, one after the other. -/
def capacityAt (k : ℕ) : ℕ := (fun capacity => capacity * 150 / 100)^[k] 5

theorem grow_capacityAt : ∀ k < 38, grow (capacityAt k) (capacityAt k) = some (capacityAt (k + 1)) ∧
    capacityAt k < capacityAt (k + 1) := by
  decide +kernel

theorem capacityAt_last : capacityAt 38 = maxMembers := by
  decide +kernel

theorem exists_capacity {size : ℕ} (hpos : 0 < size) (h : size ≤ maxMembers) :
    ∃ k ≤ 38, capacity size = some (capacityAt k) ∧ size ≤ capacityAt k := by
  induction size, hpos using Nat.le_induction with
  | base => exact ⟨0, by omega, rfl, by decide⟩
  | succ size hpos ih =>
    obtain ⟨k, hk, hcapacity, hle⟩ := ih (by omega)
    rw [capacity, hcapacity, Option.bind_some]
    rcases hle.lt_or_eq with hlt | hfull
    · refine ⟨k, hk, ?_, hlt⟩
      rw [grow, if_neg (by omega), if_neg hlt.ne]
    · have hne : k ≠ 38 := fun he => by
        rw [he, capacityAt_last] at hfull
        omega
      obtain ⟨hgrow, hlt⟩ := grow_capacityAt k (by omega)
      rw [hfull]
      exact ⟨k + 1, by omega, hgrow, hlt⟩

theorem capacity_ne_none {size : ℕ} (h : size + 1 ≤ maxMembers) : capacity (size + 1) ≠ none := by
  obtain ⟨k, -, hk, -⟩ := exists_capacity (Nat.succ_pos size) h
  rw [hk]
  exact Option.some_ne_none _

section Check

variable {n : ℕ} {m : Memory n} {extra start : ℕ} {tail : List UInt8}

theorem check_of_le {len : ℕ} (hlength : start + tail.length = n) (hcolon : ∀ c ∈ tail.head?, c = byte ':')
    (h : len + extra ≤ tail.length) : m.check extra start len tail = .taken len := by
  have hfits := m.fits
  have hsum : ((m.base : ℤ) + start + len + extra) % 2 ^ m.bits = m.base + start + len + extra :=
    Int.emod_eq_of_lt (by omega) (by exact_mod_cast (by omega : m.base + start + len + extra < 2 ^ m.bits))
  have hhead : tail.head?.any (· ≠ byte ':') = false := by
    cases hc : tail.head? with
    | none => rfl
    | some c => simpa using hcolon c hc
  rw [Memory.check, hsum, hhead, if_neg (by simp; omega), if_neg (by omega), Int.toNat_natCast]

theorem le_of_check {len : ℤ} {k : ℕ} (h : m.check extra start len tail = .taken k) :
    len = k ∧ k + extra ≤ tail.length := by
  unfold Memory.check at h
  split_ifs at h with _ hlen
  cases h
  omega

end Check

section Run

variable {n : ℕ} {m : Memory n} {depthLimit : ℕ}

@[simp] theorem rest_pop (e : LazyEntry) (s : State) : (s.pop e).rest = s.rest := by
  unfold State.pop
  split <;> rfl

@[simp] theorem rest_close (f : Frame) (stack : List Frame) (s : State) :
    (s.close f stack).rest = s.rest := rest_pop ..

@[simp] theorem rest_advance (s : State) (k : ℕ) : (s.advance k).rest = s.rest.drop k := rfl

/-- What `construct` builds: a list or dictionary is opened, or a number or a string is read, whose length may
lead out of the buffer. -/
theorem construct_cases {s s' : State} (h : construct m s = some s') : ∃ t rest, s.rest = t :: rest ∧
    (((t = byte 'd' ∨ t = byte 'l') ∧ ∃ f, (f = .dict [] 0 s.start ∨ f = .list [] s.start) ∧
        s' = { s.advance 1 with stack := f :: s.stack }) ∨
      (∃ length < rest.length, s' = ((s.advance 1).advance length |>.advance 1).pop
        (constructInt (s.start + 1) length)) ∨
      ∃ len tail, isDigit t = true ∧ parseInt (byte ':') (t.toNat - 48) rest = (len, some tail) ∧
        (m.check 1 (s.start + 1 + (rest.length - tail.length)) len tail = .outside ∧ s' = (s.advance 1).leave ∨
          ∃ size, m.check 1 (s.start + 1 + (rest.length - tail.length)) len tail = .taken size ∧
            s' = (((s.advance 1).advance (rest.length - tail.length + 1)).advance size).pop
              (constructString (s.start + 1 + (rest.length - tail.length + 1)) size))) := by
  obtain ⟨start, rest, stack, ret⟩ := s
  unfold construct at h
  cases rest with
  | nil => cases h
  | cons t rest =>
    refine ⟨t, rest, rfl, ?_⟩
    dsimp only [State.advance] at h ⊢
    simp only [List.drop_succ_cons, List.drop_zero] at h ⊢
    split_ifs at h with hd hl hi hend hdigit
    · cases h
      exact .inl ⟨.inl hd, _, .inl rfl, rfl⟩
    · cases h
      exact .inl ⟨.inr hl, _, .inr rfl, rfl⟩
    · cases h
      rw [List.drop_eq_nil_iff] at hend
      exact .inr (.inl ⟨_, not_le.1 hend, rfl⟩)
    · split at h
      · rename_i len tail hparse
        refine .inr (.inr ⟨len, tail, hdigit, hparse, ?_⟩)
        split at h
        · cases h
        · rename_i hout
          cases h
          exact .inl ⟨hout, rfl⟩
        · rename_i size htaken
          cases h
          exact .inr ⟨size, htaken, rfl⟩
      · cases h

/-- At least one byte is read. -/
theorem rest_construct {s s' : State} (h : construct m s = some s') :
    ∃ k, s'.rest = s.rest.drop (k + 1) := by
  obtain ⟨t, rest, hrest, ⟨-, f, -, rfl⟩ | ⟨length, -, rfl⟩ | ⟨len, tail, -, -, h⟩⟩ := construct_cases h
  · exact ⟨0, rfl⟩
  · refine ⟨length + 1, ?_⟩
    rw [rest_pop, rest_advance, rest_advance, rest_advance, List.drop_drop, List.drop_drop, Nat.add_comm]
  · rcases h with ⟨-, rfl⟩ | ⟨size, -, rfl⟩
    · refine ⟨rest.length, ?_⟩
      rw [hrest]
      exact (List.drop_length (l := t :: rest)).symm
    · refine ⟨rest.length - tail.length + 1 + size, ?_⟩
      rw [rest_pop, rest_advance, rest_advance, rest_advance, List.drop_drop, List.drop_drop]
      congr 1
      omega

/-- What an iteration does: an entry is built, a list or dictionary is closed, or a key is read, whose length
may lead out of the buffer. -/
theorem body_cases {s s' : State} (h : body m depthLimit s = some s') :
    s.stack.length ≤ depthLimit ∧ ∃ t rest, s.rest = t :: rest ∧ (rest = [] → t = byte 'e') ∧
      ((∀ f ∈ s.stack.head?, ∃ items first, f = .list items first) ∧ construct m s = some s' ∨
        (∃ f stack, s.stack = f :: stack ∧ s' = (s.advance 1).close f stack) ∨
        ∃ members name first stack len tail, s.stack = .dict members name first :: stack ∧ isDigit t = true ∧
          parseInt (byte ':') (t.toNat - 48) rest = (len, some tail) ∧
          (m.check 3 (s.start + 1 + (rest.length - tail.length)) len tail = .outside ∧ s' = s.leave ∨
            ∃ size, m.check 3 (s.start + 1 + (rest.length - tail.length)) len tail = .taken size ∧
              construct m { (s.advance (1 + (rest.length - tail.length) + 1)).advance size with
                stack := .dict members (s.start + (1 + (rest.length - tail.length) + 1)) first :: stack } =
                  some s')) := by
  unfold body at h
  split_ifs at h with hdeep
  refine ⟨(le_max_right 1 _).trans (not_lt.1 hdeep), ?_⟩
  cases hrest : s.rest with
  | nil =>
    rw [hrest] at h
    cases h
  | cons t rest =>
    rw [hrest] at h
    dsimp only at h
    by_cases hend : rest = [] ∧ t ≠ byte 'e'
    · rw [if_pos hend] at h
      cases h
    rw [if_neg hend] at h
    refine ⟨t, rest, rfl, fun hnil => by_contra fun hne => hend ⟨hnil, hne⟩, ?_⟩
    cases hstack : s.stack with
    | nil =>
      rw [hstack] at h
      exact .inl ⟨nofun, h⟩
    | cons f stack =>
      rw [hstack] at h
      cases f with
      | list items first =>
        dsimp only at h
        split_ifs at h
        · cases h
          exact .inr (.inl ⟨_, _, rfl, rfl⟩)
        · exact .inl ⟨fun f hf => ⟨items, first, (Option.some.inj hf).symm⟩, h⟩
      | dict members name first =>
        dsimp only at h
        by_cases hclose : t = byte 'e'
        · rw [if_pos hclose] at h
          cases h
          exact .inr (.inl ⟨_, _, rfl, rfl⟩)
        rw [if_neg hclose] at h
        by_cases hdigit : isDigit t = true
        · rw [if_pos hdigit] at h
          split at h
          · rename_i len tail hparse
            refine .inr (.inr ⟨members, name, first, stack, len, tail, rfl, hdigit, hparse, ?_⟩)
            split at h
            · cases h
            · rename_i hout
              cases h
              exact .inl ⟨hout, rfl⟩
            · rename_i size htaken
              split_ifs at h
              exact .inr ⟨size, htaken, h⟩
          · cases h
        · rw [if_neg hdigit] at h
          cases h

theorem rest_body {s s' : State} (h : body m depthLimit s = some s') : ∃ k, s'.rest = s.rest.drop (k + 1) := by
  obtain ⟨-, t, rest, hrest, -, ⟨-, h⟩ | ⟨f, stack, -, rfl⟩ | ⟨_, _, _, _, _, _, -, -, -, h⟩⟩ := body_cases h
  · exact rest_construct h
  · exact ⟨0, by rw [rest_close, rest_advance]⟩
  · rcases h with ⟨-, rfl⟩ | ⟨size, -, h⟩
    · refine ⟨rest.length, ?_⟩
      rw [hrest]
      exact (List.drop_length (l := t :: rest)).symm
    · obtain ⟨k, hk⟩ := rest_construct h
      dsimp only at hk
      rw [rest_advance, rest_advance, List.drop_drop, List.drop_drop, ← Nat.add_assoc] at hk
      exact ⟨_, hk⟩

/-- A string that is written is read again. -/
theorem parseInt_writeString {s : List UInt8} (hs : s.length < 2 ^ 31) (r : List UInt8) :
    ∃ k ds, writeString s ++ r = UInt8.ofNat (48 + k) :: (ds ++ byte ':' :: (s ++ r)) ∧ k < 10 ∧
      ds.length + 1 = (integerToStr s.length).length ∧
        parseInt (byte ':') k (ds ++ byte ':' :: (s ++ r)) = ((s.length : ℤ), some (byte ':' :: (s ++ r))) := by
  obtain ⟨k, ds, hds, hk, -, -, hparse⟩ := integerToStr_natCast (byte ':') rfl
    (hs.trans (by decide))
  refine ⟨k, ds, ?_, hk, ?_, ?_⟩
  · rw [writeString, hds]
    simp
  · rw [hds, List.length_cons]
  · rw [hparse, parseInt, if_pos rfl]

theorem length_writeString (s : List UInt8) :
    (writeString s).length = (integerToStr s.length).length + 1 + s.length := by
  rw [writeString, List.length_append, List.length_cons]
  omega

/-- No character of a number is the `e` behind it. -/
theorem ne_of_mem_integerToStr {i : ℤ} (hi : -2 ^ 63 < i ∧ i < 2 ^ 63) {c : UInt8}
    (hc : c ∈ integerToStr i) : c ≠ byte 'e' := by
  have hdigit : ∀ c, isDigit c = true → c ≠ byte 'e' := fun c hc he => by
    rw [he] at hc
    exact absurd hc (by decide)
  rcases le_or_gt 0 i with hnonneg | hneg
  · obtain ⟨n, rfl⟩ := Int.eq_ofNat_of_zero_le hnonneg
    obtain ⟨k, ds, hds, hk, -, hdigits, -⟩ := integerToStr_natCast (byte 'e') rfl
      (show n < 2 ^ 63 by omega)
    rw [hds] at hc
    rcases List.mem_cons.1 hc with rfl | hc
    · exact hdigit _ (isDigit_ofNat hk)
    · exact hdigit c (hdigits c hc)
  · obtain ⟨n, rfl⟩ : ∃ n : ℕ, i = -n := ⟨i.natAbs, by omega⟩
    obtain ⟨k, ds, hds, hk, hdigits, -⟩ := integerToStr_neg (byte 'e') rfl
      (show 0 < n by omega) (show n < 2 ^ 63 by omega)
    rw [hds] at hc
    rcases List.mem_cons.1 hc with rfl | hc
    · decide
    · rcases List.mem_cons.1 hc with rfl | hc
      · exact hdigit _ (isDigit_ofNat hk)
      · exact hdigit c (hdigits c hc)

/-- What is written for an entry has two bytes at least, and does not look like an end. -/
theorem exists_bencode {e : Entry} (h : e.WellFormed) :
    ∃ t rest, bencode e = t :: rest ∧ rest ≠ [] ∧ t ≠ byte 'e' := by
  cases e with
  | undefined => exact absurd h (by simp [Entry.WellFormed])
  | int i => exact ⟨byte 'i', _, by rw [bencode]; rfl, by simp, by decide⟩
  | string s =>
    obtain ⟨k, ds, hds, hk, -⟩ := parseInt_writeString (show s.length < 2 ^ 31 by simpa [Entry.WellFormed] using h) []
    rw [List.append_nil] at hds
    refine ⟨_, _, by rw [bencode, hds], by simp, fun he => ?_⟩
    have hdigit := isDigit_ofNat hk
    rw [he] at hdigit
    exact absurd hdigit (by decide)
  | list l => exact ⟨byte 'l', _, by rw [bencode]; rfl, by simp, by decide⟩
  | dict d => exact ⟨byte 'd', _, by rw [bencode]; rfl, by simp, by decide⟩

theorem construct_string {s : List UInt8} (hs : s.length < 2 ^ 31) {pos : ℕ} {r : List UInt8}
    (hn : pos + (writeString s ++ r).length = n) (stack : List Frame) :
    construct m ⟨pos, writeString s ++ r, stack, none⟩ =
      some (State.pop (constructString (pos + (integerToStr s.length).length + 1) s.length)
        ⟨pos + (writeString s).length, r, stack, none⟩) := by
  obtain ⟨k, ds, hds, hk, hlen, hparse⟩ := parseInt_writeString hs r
  have hdigit := isDigit_ofNat hk
  have hne : ∀ c, isDigit c = false → UInt8.ofNat (48 + k) ≠ c := fun c hc he => by
    rw [he, hc] at hdigit
    cases hdigit
  have hdrop : (ds ++ byte ':' :: (s ++ r)).drop ((ds ++ byte ':' :: (s ++ r)).length -
      (byte ':' :: (s ++ r)).length + 1) = s ++ r := by
    simp
  have hleft : (ds ++ byte ':' :: (s ++ r)).length - (byte ':' :: (s ++ r)).length = ds.length := by simp
  have hcheck : m.check 1 (pos + 1 + ds.length) s.length (byte ':' :: (s ++ r)) = .taken s.length :=
    check_of_le (by rw [hds] at hn; simp at hn ⊢; omega) (fun c hc => (Option.some.inj hc).symm) (by simp)
  unfold construct
  rw [hds]
  dsimp only [State.advance]
  rw [if_neg (hne _ rfl), if_neg (hne _ rfl), if_neg (hne _ rfl), if_pos hdigit, toNat_ofNat hk,
    List.drop_one, List.tail_cons, hparse]
  dsimp only
  rw [hleft, hcheck]
  dsimp only
  rw [← hleft, hdrop, hleft, List.drop_left' rfl]
  have hstart : pos + 1 + (ds.length + 1) = pos + (integerToStr s.length).length + 1 := by omega
  have hend : pos + (writeString s).length = pos + (integerToStr s.length).length + 1 + s.length := by
    rw [length_writeString]
    omega
  rw [hstart, hend]

theorem construct_int {i : ℤ} (hi : -2 ^ 63 < i ∧ i < 2 ^ 63) (pos : ℕ) (r : List UInt8)
    (stack : List Frame) : construct m ⟨pos, bencode (.int i) ++ r, stack, none⟩ =
      some (State.pop (constructInt (pos + 1) (integerToStr i).length)
        ⟨pos + (bencode (.int i)).length, r, stack, none⟩) := by
  have htake : (integerToStr i ++ byte 'e' :: r).takeWhile (· ≠ byte 'e') = integerToStr i := by
    rw [List.takeWhile_append_of_pos fun c hc => by simpa using ne_of_mem_integerToStr hi hc]
    simp
  rw [bencode, List.cons_append, List.cons_append, List.append_assoc, List.singleton_append, construct]
  dsimp only [State.advance]
  rw [if_neg (by decide), if_neg (by decide), if_pos rfl, List.drop_one, List.tail_cons, htake,
    List.drop_left' rfl, if_neg (List.cons_ne_nil _ _), List.drop_one, List.tail_cons]
  simp only [List.length_cons, List.length_append, List.length_nil]
  congr 3
  omega

theorem body_item {stack : List Frame} (hdepth : stack.length + 1 ≤ depthLimit) {e : Entry}
    (he : e.WellFormed) (pos : ℕ) (r : List UInt8) {items : List LazyEntry}
    (hitems : items.length + 1 ≤ maxMembers) (first : ℕ) :
    body m depthLimit ⟨pos, bencode e ++ r, .list items first :: stack, none⟩ =
      construct m ⟨pos, bencode e ++ r, .list items first :: stack, none⟩ := by
  obtain ⟨t, rest, ht, hrest, hne⟩ := exists_bencode he
  have hmax : max 1 (stack.length + 1) = stack.length + 1 := by omega
  unfold body
  rw [ht]
  simp only [List.length_cons, hmax, hdepth.not_gt, ↓reduceIte, List.cons_append, List.append_eq_nil_iff,
    hrest, false_and, hne, capacity_ne_none hitems]

theorem body_first {e : Entry} (hdepth : 1 ≤ depthLimit) (he : e.WellFormed) (r : List UInt8) :
    body m depthLimit ⟨0, bencode e ++ r, [], none⟩ = construct m ⟨0, bencode e ++ r, [], none⟩ := by
  obtain ⟨t, rest, ht, hrest, hne⟩ := exists_bencode he
  unfold body
  rw [ht]
  simp only [List.length_nil, Nat.max_zero, hdepth.not_gt, ↓reduceIte, List.cons_append,
    List.append_eq_nil_iff, hrest, false_and]

theorem body_list_end {stack : List Frame} (hdepth : stack.length + 1 ≤ depthLimit) (pos : ℕ)
    (r : List UInt8) (items : List LazyEntry) (first : ℕ) :
    body m depthLimit ⟨pos, byte 'e' :: r, .list items first :: stack, none⟩ =
      some (State.pop (.list items first (pos + 1)) ⟨pos + 1, r, stack, none⟩) := by
  have hmax : max 1 (stack.length + 1) = stack.length + 1 := by omega
  unfold body
  simp only [List.length_cons, hmax, hdepth.not_gt, ↓reduceIte, ne_eq, not_true_eq_false, and_false]
  rfl

theorem body_dict_end {stack : List Frame} (hdepth : stack.length + 1 ≤ depthLimit) (pos : ℕ)
    (r : List UInt8) (members : List (ℕ × LazyEntry)) (name first : ℕ) :
    body m depthLimit ⟨pos, byte 'e' :: r, .dict members name first :: stack, none⟩ =
      some (State.pop (.dict members first (pos + 1)) ⟨pos + 1, r, stack, none⟩) := by
  have hmax : max 1 (stack.length + 1) = stack.length + 1 := by omega
  unfold body
  simp only [List.length_cons, hmax, hdepth.not_gt, ↓reduceIte, ne_eq, not_true_eq_false, and_false]
  rfl

theorem body_member {stack : List Frame} (hdepth : stack.length + 1 ≤ depthLimit) {key : List UInt8}
    (hkey : key.length < 2 ^ 31) {e : Entry} (he : e.WellFormed) {pos : ℕ} {r : List UInt8}
    (hn : pos + (writeString key ++ (bencode e ++ r)).length = n) {members : List (ℕ × LazyEntry)}
    (hmembers : members.length + 1 ≤ maxMembers) (name first : ℕ) :
    body m depthLimit ⟨pos, writeString key ++ (bencode e ++ r), .dict members name first :: stack, none⟩ =
      construct m ⟨pos + (writeString key).length, bencode e ++ r,
        .dict members (pos + (integerToStr key.length).length + 1) first :: stack, none⟩ := by
  obtain ⟨t, rest, ht, hrest, -⟩ := exists_bencode he
  obtain ⟨k, ds, hds, hk, hlen, hparse⟩ := parseInt_writeString hkey (bencode e ++ r)
  have hdigit := isDigit_ofNat hk
  have hne : UInt8.ofNat (48 + k) ≠ byte 'e' := fun he => by
    rw [he] at hdigit
    exact absurd hdigit (by decide)
  have hmax : max 1 (stack.length + 1) = stack.length + 1 := by omega
  have htwo : 2 ≤ (bencode e).length := by
    rw [ht, List.length_cons]
    exact Nat.succ_le_succ (List.length_pos_of_ne_nil hrest)
  have hrest' : ds ++ byte ':' :: (key ++ (bencode e ++ r)) ≠ [] := by simp
  have hleft : (ds ++ byte ':' :: (key ++ (bencode e ++ r))).length -
      (byte ':' :: (key ++ (bencode e ++ r))).length = ds.length := by
    simp
  have hcheck : m.check 3 (pos + 1 + ds.length) key.length (byte ':' :: (key ++ (bencode e ++ r))) =
      .taken key.length :=
    check_of_le (by rw [hds] at hn; simp at hn ⊢; omega) (fun c hc => (Option.some.inj hc).symm)
      (by simp; omega)
  have hdrop : (UInt8.ofNat (48 + k) :: (ds ++ byte ':' :: (key ++ (bencode e ++ r)))).drop
      (1 + ds.length + 1) = key ++ (bencode e ++ r) := by
    rw [List.drop_succ_cons, List.append_cons, List.drop_left' (by simp; omega)]
  unfold body
  rw [hds]
  dsimp only [State.advance]
  rw [List.length_cons, hmax, if_neg hdepth.not_gt, if_neg fun h => hrest' h.1, if_neg hne, if_pos hdigit,
    toNat_ofNat hk, hparse]
  dsimp only
  rw [hleft, hcheck]
  dsimp only
  rw [hdrop, List.drop_left' rfl, if_neg]
  · have hstart : pos + (1 + ds.length + 1) = pos + (integerToStr key.length).length + 1 := by omega
    have hend : pos + (writeString key).length =
        pos + (integerToStr key.length).length + 1 + key.length := by
      rw [length_writeString]
      omega
    rw [hstart, hend]
  · rw [ht]
    simp [capacity_ne_none hmembers]

mutual

/-- What is written for an entry is read as its tree. -/
theorem reaches_construct : (e : Entry) → e.WellFormed → ∀ (pos : ℕ) (r : List UInt8) (stack : List Frame),
    pos + (bencode e ++ r).length = n → stack.length + e.nesting ≤ depthLimit →
      ∃ s, construct m ⟨pos, bencode e ++ r, stack, none⟩ = some s ∧
        Reaches running (body m depthLimit) s
          (State.pop (lazyAt pos e) ⟨pos + (bencode e).length, r, stack, none⟩)
  | .undefined, he, _, _, _, _, _ => absurd he (by simp [Entry.WellFormed])
  | .int i, he, pos, r, stack, _, _ => by
    rw [Entry.WellFormed] at he
    refine ⟨_, construct_int he pos r stack, ?_⟩
    rw [lazyAt]
    exact .refl _
  | .string s, he, pos, r, stack, hn, _ => by
    rw [Entry.WellFormed] at he
    rw [bencode] at hn ⊢
    rw [lazyAt]
    exact ⟨_, construct_string he hn stack, .refl _⟩
  | .list l, he, pos, r, stack, hn, hdepth => by
    rw [Entry.WellFormed] at he
    rw [Entry.nesting] at hdepth
    rw [bencode, List.append_assoc, List.singleton_append, List.cons_append, List.length_cons] at hn
    have hitems := reaches_items l he.2 (pos + 1) (byte 'e' :: r) [] pos stack (by omega)
      (by rw [List.length_nil, Nat.zero_add]; exact he.1) (by omega)
    refine ⟨⟨pos + 1, bencodeList l ++ byte 'e' :: r, .list [] pos :: stack, none⟩, ?_,
      hitems.trans (.head rfl (body_list_end (by omega) ..) ?_)⟩
    · rw [bencode]
      simp [construct, State.advance, show byte 'l' ≠ byte 'd' by decide]
    · have hend : pos + 1 + (bencodeList l).length + 1 = pos + (bencode (.list l)).length := by
        rw [bencode, List.length_append, List.length_cons, List.length_singleton]
        omega
      rw [lazyAt, List.nil_append, hend]
      exact .refl _
  | .dict d, he, pos, r, stack, hn, hdepth => by
    rw [Entry.WellFormed] at he
    rw [Entry.nesting] at hdepth
    rw [bencode, List.append_assoc, List.singleton_append, List.cons_append, List.length_cons] at hn
    obtain ⟨name, hmembers⟩ := reaches_members d he.2.2 (pos + 1) (byte 'e' :: r) [] 0 pos stack (by omega)
      (by rw [List.length_nil, Nat.zero_add]; exact he.1) (by omega)
    refine ⟨⟨pos + 1, bencodeDict d ++ byte 'e' :: r, .dict [] 0 pos :: stack, none⟩, ?_,
      hmembers.trans (.head rfl (body_dict_end (by omega) ..) ?_)⟩
    · rw [bencode]
      simp [construct, State.advance]
    · have hend : pos + 1 + (bencodeDict d).length + 1 = pos + (bencode (.dict d)).length := by
        rw [bencode, List.length_append, List.length_cons, List.length_singleton]
        omega
      rw [lazyAt, List.nil_append, hend]
      exact .refl _

theorem reaches_items : (l : List Entry) → WellFormedList l → ∀ (pos : ℕ) (r : List UInt8)
    (items : List LazyEntry) (first : ℕ) (stack : List Frame), pos + (bencodeList l ++ r).length = n →
    items.length + l.length ≤ maxMembers → stack.length + 1 + nestingList l ≤ depthLimit →
      Reaches running (body m depthLimit) ⟨pos, bencodeList l ++ r, .list items first :: stack, none⟩
        ⟨pos + (bencodeList l).length, r, .list (items ++ lazyItems pos l) first :: stack, none⟩
  | [], _, pos, r, items, first, stack, _, _, _ => by
    rw [bencodeList, lazyItems, List.append_nil]
    exact .refl _
  | e :: l, he, pos, r, items, first, stack, hn, hmax, hdepth => by
    rw [WellFormedList] at he
    rw [nestingList] at hdepth
    rw [bencodeList, List.append_assoc] at hn
    rw [List.length_cons] at hmax
    obtain ⟨s, hs, hreaches⟩ := reaches_construct e he.1 pos (bencodeList l ++ r)
      (.list items first :: stack) hn (by rw [List.length_cons]; omega)
    have hrest := reaches_items l he.2 (pos + (bencode e).length) r (items ++ [lazyAt pos e]) first stack
      (by rw [List.length_append] at hn; omega)
      (by rw [List.length_append, List.length_singleton]; omega) (by omega)
    have hbody := body_item (m := m) (show stack.length + 1 ≤ depthLimit by omega) he.1 pos
      (bencodeList l ++ r) (show items.length + 1 ≤ maxMembers by omega) first
    rw [bencodeList, lazyItems, List.append_assoc, List.length_append, ← Nat.add_assoc, List.append_cons]
    refine .head ?_ (hbody.trans hs) (hreaches.trans hrest)
    obtain ⟨t, rest, ht, -⟩ := exists_bencode he.1
    rw [ht]
    rfl

theorem reaches_members : (d : List (List UInt8 × Entry)) → WellFormedDict d → ∀ (pos : ℕ) (r : List UInt8)
    (members : List (ℕ × LazyEntry)) (name first : ℕ) (stack : List Frame),
    pos + (bencodeDict d ++ r).length = n → members.length + d.length ≤ maxMembers →
    stack.length + 1 + nestingDict d ≤ depthLimit →
      ∃ name', Reaches running (body m depthLimit)
        ⟨pos, bencodeDict d ++ r, .dict members name first :: stack, none⟩
        ⟨pos + (bencodeDict d).length, r,
          .dict (members ++ lazyMembers pos d) name' first :: stack, none⟩
  | [], _, pos, r, members, name, first, stack, _, _, _ => by
    refine ⟨name, ?_⟩
    rw [bencodeDict, lazyMembers, List.append_nil]
    exact .refl _
  | (key, e) :: d, he, pos, r, members, name, first, stack, hn, hmax, hdepth => by
    rw [WellFormedDict] at he
    rw [nestingDict] at hdepth
    rw [bencodeDict, List.append_assoc, List.append_assoc] at hn
    rw [List.length_cons] at hmax
    have hn' : pos + (writeString key).length + (bencode e ++ (bencodeDict d ++ r)).length = n := by
      rw [List.length_append] at hn
      omega
    have hlen := length_writeString key
    obtain ⟨s, hs, hreaches⟩ := reaches_construct e he.2.1 (pos + (writeString key).length)
      (bencodeDict d ++ r) (.dict members (pos + (integerToStr key.length).length + 1) first :: stack) hn'
      (by rw [List.length_cons]; omega)
    obtain ⟨name', hrest⟩ := reaches_members d he.2.2
      (pos + (writeString key).length + (bencode e).length) r (members ++
        [(pos + (integerToStr key.length).length + 1, lazyAt (pos + (writeString key).length) e)])
      (pos + (integerToStr key.length).length + 1) first stack
      (by rw [List.length_append] at hn'; omega)
      (by rw [List.length_append, List.length_singleton]; omega) (by omega)
    have hbody := body_member (m := m) (show stack.length + 1 ≤ depthLimit by omega) he.1 he.2.1 hn
      (show members.length + 1 ≤ maxMembers by omega) name first
    rw [bencodeDict, lazyMembers, List.append_assoc, List.append_assoc, List.length_append,
      List.length_append, ← Nat.add_assoc, ← Nat.add_assoc, List.append_cons]
    refine ⟨name', .head ?_ (hbody.trans hs) (hreaches.trans hrest)⟩
    obtain ⟨k, ds, hds, -⟩ := parseInt_writeString he.1 (bencode e ++ (bencodeDict d ++ r))
    rw [hds]
    rfl

end

end Run

theorem length_rest_of_running {s : State} (h : running s) : 0 < s.rest.length := by
  unfold running at h
  rw [Bool.and_eq_true, Bool.not_eq_true', List.isEmpty_eq_false_iff] at h
  exact List.length_pos_of_ne_nil h.1

theorem length_rest_body {n depthLimit : ℕ} {m : Memory n} {s s' : State} (hrun : running s)
    (h : body m depthLimit s = some s') : s'.rest.length < s.rest.length := by
  obtain ⟨k, hk⟩ := rest_body h
  have hpos := length_rest_of_running hrun
  rw [hk, List.length_drop]
  omega

/-- The limit of the loop is the length of the buffer, which decreases in each iteration. -/
theorem lazyBdecode_bencode {depthLimit : ℕ} {e : Entry} (he : e.WellFormed) (hpos : 1 ≤ depthLimit)
    (hdepth : e.nesting ≤ depthLimit) {r : List UInt8} (m : Memory (bencode e ++ r).length) :
    lazyBdecode m depthLimit = some (lazyAt 0 e) := by
  obtain ⟨s, hs, hreaches⟩ := reaches_construct (m := m) e he 0 r [] (Nat.zero_add _)
    (by simpa using hdepth)
  have hrun : running ⟨0, bencode e ++ r, [], none⟩ := by
    obtain ⟨t, rest, ht, -⟩ := exists_bencode he
    rw [ht]
    rfl
  have hstop : running (State.pop (lazyAt 0 e) ⟨0 + (bencode e).length, r, [], none⟩) = false :=
    Bool.and_false _
  have hend := loop_eq_of_reaches (fun s => s.rest.length) (fun s => length_rest_of_running)
    (fun s s' => length_rest_body) (.head hrun ((body_first hpos he r).trans hs) hreaches) hstop
  rw [lazyBdecode, hend]
  rfl

/-! ### What is read -/

theorem first_lazyAt {e : Entry} (he : e.WellFormed) (pos : ℕ) : (lazyAt pos e).first = pos := by
  cases e with
  | undefined => exact absurd he (by simp [Entry.WellFormed])
  | int i => rfl
  | string s =>
    rw [Entry.WellFormed] at he
    obtain ⟨k, ds, hds, -, hlen, -⟩ := integerToStr_natCast (byte ':') rfl (he.trans (by decide))
    rw [lazyAt, constructString, LazyEntry.first, hds, List.length_cons, hlen]
    omega
  | list l => rw [lazyAt, LazyEntry.first]
  | dict d => rw [lazyAt, LazyEntry.first]

/-- The number which is read from what was written for it. -/
theorem intValue_of_slice {i : ℤ} (hi : -2 ^ 63 < i ∧ i < 2 ^ 63) {buf : List UInt8} {start size : ℕ}
    (h : slice buf start size = integerToStr i) : intValue buf start size = i := by
  have hdigits : ∀ {k : ℕ} {ds : List UInt8} {n : ℕ}, k < 10 →
      (∀ rest, parseInt (byte 'e') k (ds ++ rest) = parseInt (byte 'e') n rest) →
        (parseInt (byte 'e') 0 (UInt8.ofNat (48 + k) :: ds)).1 = n := fun {k ds n} hk hparse => by
    have hnil := hparse []
    rw [List.append_nil] at hnil
    rw [parseInt_digit rfl hk, zero_mul, zero_add, int64_natCast (by omega), hnil, parseInt]
  unfold intValue
  rw [h]
  rcases le_or_gt 0 i with hnonneg | hneg
  · obtain ⟨n, rfl⟩ := Int.eq_ofNat_of_zero_le hnonneg
    obtain ⟨k, ds, hds, hk, -, -, hparse⟩ := integerToStr_natCast (byte 'e') rfl (show n < 2 ^ 63 by omega)
    have hne : UInt8.ofNat (48 + k) ≠ byte '-' := fun he => by
      have hdigit := isDigit_ofNat hk
      rw [he] at hdigit
      exact absurd hdigit (by decide)
    simp only [hds, List.head?_cons, Option.some.injEq, hne, ↓reduceIte, hdigits hk hparse]
  · obtain ⟨n, rfl⟩ : ∃ n : ℕ, i = -n := ⟨i.natAbs, by omega⟩
    obtain ⟨k, ds, hds, hk, -, hparse⟩ := integerToStr_neg (byte 'e') rfl
      (show 0 < n by omega) (show n < 2 ^ 63 by omega)
    simp only [hds, List.head?_cons, ↓reduceIte, List.tail_cons, hdigits hk hparse]

/-- A key that comes behind all others is put at the end. -/
theorem assign_of_lt {key : List UInt8} (e : Entry) :
    ∀ {d : List (List UInt8 × Entry)}, (∀ m ∈ d, m.1 < key) → assign key e d = d ++ [(key, e)]
  | [], _ => rfl
  | (k, e') :: d, h => by
    obtain ⟨hk, hd⟩ := List.forall_mem_cons.1 h
    have hlt : ¬ key < k := List.lt_asymm hk
    have hne : ¬ key = k := fun he => List.lt_irrefl k (he ▸ hk)
    rw [assign, if_neg hlt, if_neg hne, assign_of_lt e hd, List.cons_append]

theorem lookup_of_lt {key : List UInt8} {d : List (List UInt8 × Entry)} (h : ∀ m ∈ d, m.1 < key) :
    d.lookup key = none :=
  List.lookup_eq_none_iff.2 fun m hm => bne_iff_ne.2 fun he => List.lt_irrefl key (by simpa [he] using h m hm)

section Read

variable {buf : List UInt8}

theorem slice_of_drop {a b r : List UInt8} {pos : ℕ} (h : buf.drop pos = a ++ (b ++ r)) :
    slice buf (pos + a.length) b.length = b := by
  rw [slice, ← List.drop_drop, h, List.drop_left, List.take_left]

theorem drop_of_drop {a r : List UInt8} {pos : ℕ} (h : buf.drop pos = a ++ r) :
    buf.drop (pos + a.length) = r := by
  rw [← List.drop_drop, h, List.drop_left]

theorem slice_of_cons {c : UInt8} {b r : List UInt8} {pos : ℕ} (h : buf.drop pos = c :: (b ++ r)) :
    slice buf (pos + 1) b.length = b := slice_of_drop (a := [c]) h

theorem drop_of_cons {c : UInt8} {r : List UInt8} {pos : ℕ} (h : buf.drop pos = c :: r) :
    buf.drop (pos + 1) = r := drop_of_drop (a := [c]) h

theorem memberKey_of_drop {key : List UInt8} {e : Entry} (he : e.WellFormed) {pos : ℕ} {r : List UInt8}
    (h : buf.drop pos = writeString key ++ r) :
    memberKey buf (pos + (integerToStr key.length).length + 1) (lazyAt (pos + (writeString key).length) e) =
      key := by
  have hsize : pos + (writeString key).length - (pos + (integerToStr key.length).length + 1) = key.length := by
    rw [length_writeString]
    omega
  rw [writeString, List.append_assoc, List.cons_append, List.append_cons] at h
  have hkey := slice_of_drop h
  rw [List.length_append, List.length_singleton, ← Nat.add_assoc] at hkey
  rw [memberKey, first_lazyAt he, hsize, hkey]

mutual

theorem assignLazy_lazyAt : (e : Entry) → e.WellFormed → ∀ {pos : ℕ} {r : List UInt8},
    buf.drop pos = bencode e ++ r → assignLazy buf .undefined (lazyAt pos e) = some e
  | .undefined, he, _, _, _ => absurd he (by simp [Entry.WellFormed])
  | .int i, he, pos, r, h => by
    rw [Entry.WellFormed] at he
    rw [bencode, List.append_assoc, List.cons_append] at h
    rw [lazyAt, constructInt, assignLazy, intValue_of_slice he (slice_of_cons h)]
  | .string s, he, pos, r, h => by
    rw [bencode, writeString, List.append_assoc, List.cons_append, List.append_cons] at h
    have hs := slice_of_drop h
    rw [List.length_append, List.length_singleton, ← Nat.add_assoc] at hs
    rw [lazyAt, constructString, assignLazy, hs]
  | .list l, he, pos, r, h => by
    rw [Entry.WellFormed] at he
    rw [bencode, List.append_assoc, List.cons_append] at h
    rw [lazyAt, assignLazy, pushBack_lazyItems l he.2 [] (drop_of_cons h), Option.map_some,
      List.nil_append]
  | .dict d, he, pos, r, h => by
    rw [Entry.WellFormed] at he
    rw [bencode, List.append_assoc, List.cons_append] at h
    rw [lazyAt, assignLazy, assignMembers_lazyMembers d he.2.2 [] he.2.1 (drop_of_cons h), Option.map_some,
      List.nil_append]

theorem pushBack_lazyItems : (l : List Entry) → WellFormedList l → ∀ (l' : List Entry) {pos : ℕ}
    {r : List UInt8}, buf.drop pos = bencodeList l ++ r → pushBack buf l' (lazyItems pos l) = some (l' ++ l)
  | [], _, l', _, _, _ => by rw [lazyItems, pushBack, List.append_nil]
  | e :: l, he, l', pos, r, h => by
    rw [WellFormedList] at he
    rw [bencodeList, List.append_assoc] at h
    rw [lazyItems, pushBack, assignLazy_lazyAt e he.1 h, Option.bind_some,
      pushBack_lazyItems l he.2 (l' ++ [e]) (drop_of_drop h), List.append_assoc, List.singleton_append]

/-- Each key comes behind those that are read already. -/
theorem assignMembers_lazyMembers : (d : List (List UInt8 × Entry)) → WellFormedDict d →
    ∀ (d' : List (List UInt8 × Entry)), ((d' ++ d).map Prod.fst).Pairwise (· < ·) → ∀ {pos : ℕ}
      {r : List UInt8}, buf.drop pos = bencodeDict d ++ r →
        assignMembers buf d' (lazyMembers pos d) = some (d' ++ d)
  | [], _, d', _, _, _, _ => by rw [lazyMembers, assignMembers, List.append_nil]
  | (key, e) :: d, he, d', hsorted, pos, r, h => by
    rw [WellFormedDict] at he
    rw [bencodeDict, List.append_assoc, List.append_assoc] at h
    have hvalue := drop_of_drop h
    have hlt : ∀ m ∈ d', m.1 < key := fun m hm => by
      rw [List.map_append, List.pairwise_append] at hsorted
      exact hsorted.2.2 _ (List.mem_map_of_mem hm) _ List.mem_cons_self
    have hrest := assignMembers_lazyMembers d he.2.2 (d' ++ [(key, e)])
      (by rwa [List.append_assoc, List.singleton_append]) (drop_of_drop hvalue)
    rw [lazyMembers, assignMembers, memberKey_of_drop he.2.1 h, lookup_of_lt hlt, Option.getD_none,
      assignLazy_lazyAt e he.2.1 hvalue, Option.bind_some, assign_of_lt e hlt, hrest, List.append_assoc,
      List.singleton_append]

end

end Read

/-- What was written for an entry is read as that entry, with whatever comes behind it. -/
theorem toEntry_lazyBdecode {depthLimit : ℕ} {e : Entry} (he : e.WellFormed) (hpos : 1 ≤ depthLimit)
    (hdepth : e.nesting ≤ depthLimit) {r : List UInt8} (m : Memory (bencode e ++ r).length) :
    (lazyBdecode m depthLimit).bind (toEntry (bencode e ++ r)) = some e := by
  rw [lazyBdecode_bencode he hpos hdepth m, Option.bind_some]
  exact assignLazy_lazyAt e he rfl

theorem toEntry_lazyBdecode_nested :
    ∃ m : Memory (bencode (.dict [([1], .list [.int (-5), .string []]), ([1, 0], .string [7])]) ++ [9]).length,
      (lazyBdecode m 2).bind
        (toEntry (bencode (.dict [([1], .list [.int (-5), .string []]), ([1, 0], .string [7])]) ++ [9])) =
          some (.dict [([1], .list [.int (-5), .string []]), ([1, 0], .string [7])]) :=
  ⟨⟨32, 2 ^ 20, by decide, by decide⟩,
    toEntry_lazyBdecode (e := .dict [([1], .list [.int (-5), .string []]), ([1, 0], .string [7])])
      (by simp [Entry.WellFormed, WellFormedDict, WellFormedList, maxMembers]) (by decide) (by decide) _⟩

theorem last_lazyAt {e : Entry} (he : e.WellFormed) (pos : ℕ) :
    (lazyAt pos e).last = pos + (bencode e).length := by
  cases e with
  | undefined => exact absurd he (by simp [Entry.WellFormed])
  | int i =>
    rw [lazyAt, constructInt, LazyEntry.last, bencode, List.length_append, List.length_cons,
      List.length_singleton]
    omega
  | string s =>
    rw [lazyAt, constructString, LazyEntry.last, bencode, length_writeString]
    omega
  | list l =>
    rw [lazyAt, LazyEntry.last, bencode, List.length_append, List.length_cons, List.length_singleton]
    omega
  | dict d =>
    rw [lazyAt, LazyEntry.last, bencode, List.length_append, List.length_cons, List.length_singleton]
    omega

theorem dataSection_lazyAt {buf : List UInt8} {e : Entry} (he : e.WellFormed) {pos : ℕ} {r : List UInt8}
    (h : buf.drop pos = bencode e ++ r) : dataSection buf (lazyAt pos e) = bencode e := by
  have hdata := slice_of_drop (a := []) h
  rwa [dataSection, first_lazyAt he, last_lazyAt he, Nat.add_sub_cancel_left]

/-- No byte of the name is zero, thus the name ends where it should. -/
theorem stringEqual_eq : ∀ {name : List UInt8}, (0 : UInt8) ∉ name → ∀ key, stringEqual name key = (name == key)
  | [], _, [] => rfl
  | [], _, _ :: _ => rfl
  | _ :: _, _, [] => rfl
  | a :: s, h, c :: t => by
    obtain ⟨ha, hs⟩ := List.ne_and_not_mem_of_not_mem_cons h
    rw [stringEqual, stringEqual_eq hs, decide_eq_true ha.symm, Bool.and_true, List.cons_beq_cons]
    rfl

theorem find_lazyMembers {buf name : List UInt8} (hname : (0 : UInt8) ∉ name) :
    ∀ {d : List (List UInt8 × Entry)}, WellFormedDict d → ∀ {pos : ℕ} {r : List UInt8},
      buf.drop pos = bencodeDict d ++ r →
        (((lazyMembers pos d).find? fun m => stringEqual name (memberKey buf m.1 m.2)).map Prod.snd).map
          (dataSection buf) = (d.lookup name).map bencode
  | [], _, _, _, _ => by
    rw [lazyMembers]
    rfl
  | (key, e) :: d, he, pos, r, h => by
    rw [WellFormedDict] at he
    rw [bencodeDict, List.append_assoc, List.append_assoc] at h
    have hvalue := drop_of_drop h
    have hrest := find_lazyMembers hname he.2.2 (drop_of_drop hvalue)
    rw [lazyMembers, List.find?_cons, memberKey_of_drop he.2.1 h, stringEqual_eq hname, List.lookup_cons]
    cases name == key with
    | true => exact congrArg some (dataSection_lazyAt he.2.1 hvalue)
    | false => exact hrest

/-- A member of a dictionary is found, with all the bytes that were written for it and no others. -/
theorem section_of_dictFind {depthLimit : ℕ} {d : List (List UInt8 × Entry)} (he : (Entry.dict d).WellFormed)
    (hdepth : (Entry.dict d).nesting ≤ depthLimit) {name : List UInt8} (hname : (0 : UInt8) ∉ name)
    {r : List UInt8} (m : Memory (bencode (.dict d) ++ r).length) :
    ((lazyBdecode m depthLimit).bind (dictFind (bencode (.dict d) ++ r) name)).map
      (dataSection (bencode (.dict d) ++ r)) = (d.lookup name).map bencode := by
  have hpos : 1 ≤ depthLimit := by
    rw [Entry.nesting] at hdepth
    omega
  have hdrop : (bencode (.dict d) ++ r).drop (0 + 1) = bencodeDict d ++ ([byte 'e'] ++ r) := by
    rw [bencode, List.append_assoc, List.cons_append, List.drop_succ_cons, List.drop_zero]
  rw [lazyBdecode_bencode he hpos hdepth m, Option.bind_some, lazyAt, dictFind]
  rw [Entry.WellFormed] at he
  exact find_lazyMembers hname he.2.2 hdrop

theorem section_of_dictFind_second :
    ∃ m : Memory (bencode (.dict [([1], .int 3), ([1, 2], .list [.int 4])]) ++ []).length,
      ((lazyBdecode m 2).bind
        (dictFind (bencode (.dict [([1], .int 3), ([1, 2], .list [.int 4])]) ++ []) [1, 2])).map
          (dataSection (bencode (.dict [([1], .int 3), ([1, 2], .list [.int 4])]) ++ [])) =
        ([([1], .int 3), ([1, 2], .list [.int 4])].lookup [1, 2]).map bencode :=
  ⟨⟨32, 2 ^ 20, by decide, by decide⟩,
    section_of_dictFind (d := [([1], .int 3), ([1, 2], .list [.int 4])])
      (by simp [Entry.WellFormed, WellFormedDict, WellFormedList, maxMembers]) (by decide) (by decide) _⟩

end P2Player.Bencode
