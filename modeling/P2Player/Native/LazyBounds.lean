import P2Player.Native.LazyBdecode

/-!
# Buffers from other peers

Most buffers that are read come from the network.  Whatever is in them, the tree that is built points into
the buffer, and lists and dictionaries are nested no deeper than allowed, as they are read by recursion.

* `LazyEntry.Inside`: what holds of a tree for a buffer of `n` bytes and `limit` levels;
* `Frame.Inside`, `StackInside`, `Inv`: the same for what is built so far;
* `ShortLengths`: no length has so many digits that a pointer overflows;
* `inv_construct`, `inv_body`: an iteration keeps it;
* `inside_of_lazyBdecode`: it holds of every tree that is built.
-/

namespace P2Player.Bencode

open Loop

mutual

/-- Strings, numbers and names are in a buffer of `n` bytes, with at most `limit` levels of lists and
dictionaries. -/
def LazyEntry.Inside (n limit : ℕ) : LazyEntry → Prop
  | .none | .astray => False
  | .string start size first _ => first ≤ start ∧ start + size ≤ n
  | .int start size first _ => first ≤ start ∧ start + size < n
  | .list items first _ => first < n ∧ 1 ≤ limit ∧ InsideItems n (limit - 1) items
  | .dict members first _ => first < n ∧ 1 ≤ limit ∧ InsideMembers n (limit - 1) members

def InsideItems (n limit : ℕ) : List LazyEntry → Prop
  | [] => True
  | e :: items => e.Inside n limit ∧ InsideItems n limit items

def InsideMembers (n limit : ℕ) : List (ℕ × LazyEntry) → Prop
  | [] => True
  | (name, e) :: members => name ≤ e.first ∧ e.Inside n limit ∧ InsideMembers n limit members

end

/-- A list or dictionary that is open, with all that is complete in it. -/
def Frame.Inside (n limit : ℕ) : Frame → Prop
  | .list items first => first < n ∧ InsideItems n (limit - 1) items
  | .dict members _ first => first < n ∧ InsideMembers n (limit - 1) members

def Frame.first : Frame → ℕ
  | .list _ first => first
  | .dict _ _ first => first

/-- What comes next at `pos` is behind the name that it has. -/
def Frame.Before (pos : ℕ) : Frame → Prop
  | .list _ _ => True
  | .dict _ name _ => name ≤ pos

/-- Each frame has as many levels left as there are not below it. -/
def StackInside (n limit : ℕ) : List Frame → Prop
  | [] => True
  | f :: stack => f.Inside n (limit - stack.length) ∧ (∀ g ∈ stack.head?, g.Before f.first) ∧
      StackInside n limit stack

/-- Between two iterations.  When the buffer is at its end, the entry is complete or not too deep. -/
structure Inv (n limit : ℕ) (s : State) : Prop where
  length : s.start + s.rest.length = n
  stack : StackInside n limit s.stack
  ret : ∀ e ∈ s.ret, e.Inside n limit
  open_ : s.rest ≠ [] ∨ s.ret.isSome ∨ s.stack ≠ [] ∧ s.stack.length ≤ limit

section Items

variable {n limit : ℕ}

theorem insideItems_append {e : LazyEntry} (he : e.Inside n limit) :
    ∀ {items : List LazyEntry}, InsideItems n limit items → InsideItems n limit (items ++ [e])
  | [], _ => ⟨he, trivial⟩
  | _ :: _, h => ⟨h.1, insideItems_append he h.2⟩

theorem insideMembers_append {name : ℕ} {e : LazyEntry} (hname : name ≤ e.first) (he : e.Inside n limit) :
    ∀ {members : List (ℕ × LazyEntry)}, InsideMembers n limit members →
      InsideMembers n limit (members ++ [(name, e)])
  | [], _ => ⟨hname, he, trivial⟩
  | (_, _) :: _, h => ⟨h.1, h.2.1, insideMembers_append hname he h.2.2⟩

theorem inside_add {f : Frame} {e : LazyEntry} (hf : f.Inside n limit) (hbefore : f.Before e.first)
    (he : e.Inside n (limit - 1)) : (f.add e).Inside n limit := by
  cases f with
  | list items first => exact ⟨hf.1, insideItems_append he hf.2⟩
  | dict members name first => exact ⟨hf.1, insideMembers_append hbefore he hf.2⟩

theorem inside_close {f : Frame} (hf : f.Inside n limit) (hlimit : 1 ≤ limit) (last : ℕ) :
    (f.close last).Inside n limit := by
  cases f with
  | list items first => exact ⟨hf.1, hlimit, hf.2⟩
  | dict members name first => exact ⟨hf.1, hlimit, hf.2⟩

theorem Frame.Before.mono {f : Frame} {pos pos' : ℕ} (h : f.Before pos) (hpos : pos ≤ pos') :
    f.Before pos' := by
  cases f with
  | list items first => trivial
  | dict members name first => exact Nat.le_trans h hpos

@[simp] theorem first_close (f : Frame) (last : ℕ) : (f.close last).first = f.first := by
  cases f <;> rfl

@[simp] theorem first_add (f : Frame) (e : LazyEntry) : (f.add e).first = f.first := by
  cases f <;> rfl

variable {start : ℕ} {rest : List UInt8} {stack : List Frame}

/-- An entry is complete. -/
theorem inv_pop {e : LazyEntry} (hlength : start + rest.length = n) (hstack : StackInside n limit stack)
    (hlimit : stack.length ≤ limit) (he : e.Inside n (limit - stack.length))
    (hbefore : ∀ f ∈ stack.head?, f.Before e.first) :
    Inv n limit (State.pop e ⟨start, rest, stack, none⟩) := by
  cases stack with
  | nil =>
    refine ⟨hlength, trivial, fun e' he' => ?_, .inr (.inl rfl)⟩
    cases he'
    exact he
  | cons f stack =>
    obtain ⟨hf, hfirst, hbelow⟩ := hstack
    rw [List.length_cons, ← Nat.sub_sub] at he
    refine ⟨hlength, ⟨inside_add hf (hbefore f rfl) he, fun g hg => ?_, hbelow⟩, nofun,
      .inr (.inr ⟨List.cons_ne_nil _ _, hlimit⟩)⟩
    rw [first_add]
    exact hfirst g hg

/-- A list or dictionary is opened. -/
theorem inv_push {f : Frame} (hlength : start + rest.length = n) (hstack : StackInside n limit stack)
    (hrest : rest ≠ []) (hf : f.Inside n (limit - stack.length))
    (hbefore : ∀ g ∈ stack.head?, g.Before f.first) : Inv n limit ⟨start, rest, f :: stack, none⟩ :=
  ⟨hlength, ⟨hf, hbefore, hstack⟩, nofun, .inl hrest⟩

/-- A list or dictionary is closed. -/
theorem inv_close {f : Frame} (hlength : start + rest.length = n) (hstack : StackInside n limit (f :: stack))
    (hlimit : (f :: stack).length ≤ limit) : Inv n limit (State.close f stack ⟨start, rest, f :: stack, none⟩) := by
  obtain ⟨hf, hfirst, hbelow⟩ := hstack
  rw [List.length_cons] at hlimit
  refine inv_pop hlength hbelow (by omega) (inside_close hf (by omega) _) fun g hg => ?_
  rw [first_close]
  exact hfirst g hg

end Items

/-! ### Numbers -/

theorem toNat_of_isDigit {c : UInt8} (h : isDigit c = true) : 48 ≤ c.toNat ∧ c.toNat ≤ 57 := by
  rw [isDigit, Bool.and_eq_true, decide_eq_true_iff, decide_eq_true_iff] at h
  exact ⟨UInt8.le_iff_toNat_le.1 h.1, UInt8.le_iff_toNat_le.1 h.2⟩

/-- At most `k` digits stand in a row before a colon or the end. -/
def ShortLengths (k : ℕ) (buf : List UInt8) : Prop :=
  ∀ ds tail, ds ++ tail <:+ buf → (∀ c ∈ ds, isDigit c = true) → (∀ c ∈ tail.head?, c = byte ':') →
    ds.length ≤ k

theorem ShortLengths.of_suffix {k : ℕ} {buf rest : List UInt8} (h : ShortLengths k buf) (hrest : rest <:+ buf) :
    ShortLengths k rest := fun ds tail hsuffix => h ds tail (hsuffix.trans hrest)

theorem exists_digits {delimiter : UInt8} {rest tail : List UInt8} {val len : ℤ}
    (h : parseInt delimiter val rest = (len, some tail)) :
    ∃ ds, rest = ds ++ tail ∧ (∀ c ∈ ds, isDigit c = true) ∧ ∀ c ∈ tail.head?, c = delimiter := by
  induction rest generalizing val with
  | nil =>
    cases h
    exact ⟨[], rfl, nofun, nofun⟩
  | cons c rest ih =>
    rw [parseInt] at h
    split_ifs at h with hc hdigit
    · cases h
      exact ⟨[], rfl, nofun, fun c' hc' => (Option.some.inj hc').symm.trans hc⟩
    · obtain ⟨ds, hds, hdigits, htail⟩ := ih h
      exact ⟨c :: ds, by rw [hds, List.cons_append], List.forall_mem_cons.2 ⟨hdigit, hdigits⟩, htail⟩
    · cases h

/-- Up to 18 digits do not overflow. -/
theorem parseInt_lt {delimiter : UInt8} (hdel : isDigit delimiter = false) {ds tail : List UInt8}
    (hdigits : ∀ c ∈ ds, isDigit c = true) (htail : ∀ c ∈ tail.head?, c = delimiter) {val len : ℤ} {k : ℕ}
    (hnonneg : 0 ≤ val) (hval : val < 10 ^ k) (hk : k + ds.length ≤ 18)
    (h : parseInt delimiter val (ds ++ tail) = (len, some tail)) : 0 ≤ len ∧ len < 10 ^ (k + ds.length) := by
  induction ds generalizing val k with
  | nil =>
    have hlen : len = val := by
      cases tail with
      | nil =>
        cases h
        rfl
      | cons c tail =>
        rw [List.nil_append, parseInt, if_pos (htail c rfl)] at h
        cases h
        rfl
    exact hlen ▸ ⟨hnonneg, hval⟩
  | cons c ds ih =>
    obtain ⟨hdigit, hdigits⟩ := List.forall_mem_cons.1 hdigits
    have hne : c ≠ delimiter := fun he => by
      rw [he, hdel] at hdigit
      cases hdigit
    have hd := toNat_of_isDigit hdigit
    rw [List.length_cons] at hk
    have hpow : (10 : ℤ) ^ (k + 1) ≤ 10 ^ 18 := pow_le_pow_right₀ (by decide) (by omega)
    rw [pow_succ] at hpow
    rw [List.cons_append, parseInt, if_neg hne, if_pos hdigit, int64,
      Int.bmod_eq_of_le (by omega) (by omega)] at h
    have hlen := ih hdigits (k := k + 1) (by omega) (by rw [pow_succ]; omega) (by omega) h
    rwa [List.length_cons, Nat.add_comm ds.length, ← Nat.add_assoc]

/-- A length whose first digit is `t`. -/
theorem exists_of_shortLengths {k : ℕ} (hk : k ≤ 18) {t : UInt8} {rest tail : List UInt8}
    (hshort : ShortLengths k (t :: rest)) (ht : isDigit t = true) {len : ℤ}
    (h : parseInt (byte ':') (t.toNat - 48) rest = (len, some tail)) :
    ∃ ds, rest = ds ++ tail ∧ 0 ≤ len ∧ len < 10 ^ (1 + ds.length) ∧ len < 10 ^ k := by
  obtain ⟨ds, rfl, hdigits, htail⟩ := exists_digits h
  have hle : (t :: ds).length ≤ k :=
    hshort (t :: ds) tail (List.suffix_refl _) (List.forall_mem_cons.2 ⟨ht, hdigits⟩) htail
  have hd := toNat_of_isDigit ht
  rw [List.length_cons] at hle
  obtain ⟨hnonneg, hlt⟩ := parseInt_lt (k := 1) rfl hdigits htail (by omega) (by omega) (by omega) h
  have hpow : (10 : ℤ) ^ (1 + ds.length) ≤ 10 ^ k := pow_le_pow_right₀ (by decide) (by omega)
  exact ⟨ds, rfl, hnonneg, hlt, hlt.trans_le hpow⟩

/-- No pointer overflows for it. -/
theorem check_ne_outside {n k : ℕ} {m : Memory n} (hroom : m.base + n + 10 ^ k + 3 ≤ 2 ^ m.bits)
    {extra start : ℕ} (hextra : extra ≤ 3) {tail : List UInt8} (hlength : start + tail.length = n) {len : ℤ}
    (hnonneg : 0 ≤ len) (hlen : len < 10 ^ k) : m.check extra start len tail ≠ .outside := by
  have hroom' : (m.base : ℤ) + n + 10 ^ k + 3 ≤ 2 ^ m.bits := by exact_mod_cast hroom
  have hsum : ((m.base : ℤ) + start + len + extra) % 2 ^ m.bits = m.base + start + len + extra :=
    Int.emod_eq_of_lt (by omega) (by omega)
  unfold Memory.check
  rw [hsum]
  split_ifs with hrefused hshort
  · nofun
  · rw [not_or] at hrefused
    omega
  · nofun

theorem numDigits_le {v k : ℕ} (hk : 1 ≤ k) (hv : v < 10 ^ k) : numDigits v ≤ k := by
  induction k, hk using Nat.le_induction generalizing v with
  | base => rw [numDigits, if_pos (by simpa using hv)]
  | succ k hk ih =>
    rw [numDigits]
    split_ifs
    · omega
    · have := ih (v := v / 10) (by rw [pow_succ] at hv; omega)
      omega

/-! ### The loop -/

theorem ret_of_running {s : State} (h : running s) : s.ret = none := by
  rw [running, Bool.and_eq_true] at h
  exact Option.isNone_iff_eq_none.1 h.2

section Loop

variable {n limit start k : ℕ} {m : Memory n} {rest : List UInt8} {stack : List Frame} {s : State}
  (hk : k ≤ 18) (hroom : m.base + n + 10 ^ k + 3 ≤ 2 ^ m.bits)

include hk hroom

/-- The entry at `start` is built. -/
theorem inv_construct (hlength : start + rest.length = n) (hstack : StackInside n limit stack)
    (hlimit : stack.length ≤ limit) (hbefore : ∀ f ∈ stack.head?, f.Before start)
    (hnext : ∀ t, rest = [t] → t = byte 'e') (hshort : ShortLengths k rest)
    (h : construct m ⟨start, rest, stack, none⟩ = some s) : Inv n limit s := by
  obtain ⟨t, rest', hrest, ⟨ht, f, hf, rfl⟩ | ⟨length, hin, rfl⟩ | ⟨len, tail, hdigit, hparse, h⟩⟩ :=
    construct_cases h
  all_goals
    dsimp only at hrest
    subst hrest
    rw [List.length_cons] at hlength
  · have hopen : rest' ≠ [] := fun he => by
      rw [hnext t (by rw [he])] at ht
      exact absurd ht (by decide)
    change Inv n limit ⟨start + 1, rest', f :: stack, none⟩
    refine inv_push (by omega) hstack hopen ?_ ?_
    · rcases hf with rfl | rfl <;> exact ⟨by dsimp only; omega, trivial⟩
    · rcases hf with rfl | rfl <;> exact hbefore
  · refine inv_pop ?_ hstack hlimit ⟨Nat.sub_le _ _, ?_⟩ hbefore
    · simp only [State.advance, List.length_drop, List.length_cons]
      omega
    · dsimp only
      omega
  · obtain ⟨ds, rfl, hnonneg, hlt, hltk⟩ := exists_of_shortLengths hk hshort hdigit hparse
    rw [List.length_append] at hlength
    rcases h with ⟨hout, -⟩ | ⟨size, htaken, rfl⟩
    · refine absurd hout (check_ne_outside hroom (by omega) ?_ hnonneg hltk)
      dsimp only
      rw [List.length_append]
      omega
    · obtain ⟨rfl, hsize⟩ := le_of_check htaken
      have hdigits := numDigits_le (v := size) (k := 1 + ds.length) (by omega) (by exact_mod_cast hlt)
      refine inv_pop ?_ hstack hlimit ⟨?_, ?_⟩ ?_
      · simp only [State.advance, List.length_drop, List.length_cons, List.length_append]
        omega
      · omega
      · simp only [List.length_append]
        omega
      · refine fun f hf => (hbefore f hf).mono ?_
        simp only [constructString, LazyEntry.first, List.length_append]
        omega

/-- An iteration. -/
theorem inv_body {s s' : State} (hret : s.ret = none) (hs : Inv n limit s) (hshort : ShortLengths k s.rest)
    (h : body m limit s = some s') : Inv n limit s' := by
  obtain ⟨hlimit, t, rest', hrest, hend, hcases⟩ := body_cases h
  obtain ⟨start, rest, stack, ret⟩ := s
  cases hret
  obtain ⟨hlength, hstack, -, -⟩ := hs
  dsimp only at hlimit hrest hlength hstack hshort
  subst hrest
  rw [List.length_cons] at hlength
  rcases hcases with ⟨hkey, h⟩ | ⟨f, stack', rfl, rfl⟩ |
    ⟨members, name, first, stack', len, tail, rfl, hdigit, hparse, h⟩
  · refine inv_construct hk hroom hlength hstack hlimit (fun f hf => ?_) (fun t' ht' => ?_) hshort h
    · obtain ⟨items, first, rfl⟩ := hkey f hf
      trivial
    · cases ht'
      exact hend rfl
  · exact inv_close (by simp; omega) hstack hlimit
  · obtain ⟨ds, rfl, hnonneg, -, hltk⟩ := exists_of_shortLengths hk hshort hdigit hparse
    rw [List.length_append] at hlength
    rcases h with ⟨hout, -⟩ | ⟨size, htaken, h⟩
    · refine absurd hout (check_ne_outside hroom le_rfl ?_ hnonneg hltk)
      dsimp only
      rw [List.length_append]
      omega
    · obtain ⟨rfl, hsize⟩ := le_of_check htaken
      dsimp only [State.advance] at h
      refine inv_construct hk hroom ?_ ?_ ?_ ?_ ?_ ?_ h
      · simp only [List.length_drop, List.length_cons, List.length_append]
        omega
      · exact hstack
      · exact hlimit
      · intro f hf
        cases hf
        exact Nat.le_add_right _ _
      · intro t' ht'
        have hone := congrArg List.length ht'
        simp only [List.length_drop, List.length_cons, List.length_append, List.length_nil] at hone
        omega
      · exact hshort.of_suffix ((List.drop_suffix _ _).trans (List.drop_suffix _ _))

omit hk hroom

/-- All that is open when the buffer ends. -/
theorem inside_foldl {e : LazyEntry} (hstack : StackInside n limit stack) (hlimit : stack.length ≤ limit)
    (he : e.Inside n (limit - stack.length)) (hbefore : ∀ f ∈ stack.head?, f.Before e.first) :
    (stack.foldl (fun e f => (f.add e).close 0) e).Inside n limit := by
  induction stack generalizing e with
  | nil => exact he
  | cons f stack ih =>
    obtain ⟨hf, hfirst, hbelow⟩ := hstack
    rw [List.length_cons] at hlimit he
    refine ih hbelow (by omega) (inside_close (inside_add hf (hbefore f rfl) ?_) (by omega) 0) fun g hg => ?_
    · rwa [Nat.sub_sub]
    · rw [first_close, first_add]
      exact hfirst g hg

theorem inside_result {s : State} (hs : Inv n limit s) (hstop : running s = false) :
    s.result.Inside n limit := by
  obtain ⟨start, rest, stack, ret⟩ := s
  cases ret with
  | some e => exact hs.ret e rfl
  | none =>
    have hrest : rest = [] := by simpa [running] using hstop
    have hopen := hs.open_
    simp only [hrest, ne_eq, not_true_eq_false, Option.isSome_none, Bool.false_eq_true, false_or] at hopen
    have hstack := hs.stack
    cases stack with
    | nil => exact absurd rfl hopen.1
    | cons f stack =>
      obtain ⟨hf, hfirst, hbelow⟩ := hstack
      have hlimit := hopen.2
      rw [List.length_cons] at hlimit
      refine inside_foldl hbelow (by omega) (inside_close hf (by omega) 0) fun g hg => ?_
      rw [first_close]
      exact hfirst g hg

end Loop

/-- Whatever is in the buffer, all that the tree points to is inside, and it is not too deep. -/
theorem inside_of_lazyBdecode {buf : List UInt8} (hbuf : buf ≠ []) {k : ℕ} (hk : k ≤ 18)
    (hshort : ShortLengths k buf) {m : Memory buf.length} (hroom : m.base + buf.length + 10 ^ k + 3 ≤ 2 ^ m.bits)
    {limit : ℕ} {e : LazyEntry} (h : lazyBdecode m limit = some e) : e.Inside buf.length limit := by
  obtain ⟨s, hs, rfl⟩ := Option.map_eq_some_iff.1 h
  have hinv : Inv buf.length limit s ∧ ShortLengths k s.rest := by
    refine invariant_loop (P := fun s => Inv buf.length limit s ∧ ShortLengths k s.rest)
      (fun s s' hrun hbody hs => ⟨inv_body hk hroom (ret_of_running hrun) hs.1 hs.2 hbody, ?_⟩) hs
      ⟨⟨Nat.zero_add _, trivial, nofun, .inl hbuf⟩, hshort⟩
    obtain ⟨k', hrest⟩ := rest_body hbody
    exact hs.2.of_suffix (hrest ▸ List.drop_suffix _ _)
  have hstop : running s = false := not_running_of_loop (fun s => s.rest.length)
    (fun s => length_rest_of_running)
    (fun s s' hrun (hbody : body m limit s = some s') => length_rest_body hrun hbody) (Nat.le_refl buf.length) hs
  exact inside_result hinv.1 hstop

/-- A dictionary and a list that are left open, near the end of the addresses of a program with 32 bits. -/
theorem inside_of_lazyBdecode_open :
    ∃ (m : Memory ("d1:ali7e".toList.map byte).length) (e : LazyEntry),
      lazyBdecode m 2 = some e ∧ e.Inside 8 2 := by
  have hshort : ShortLengths 9 ("d1:ali7e".toList.map byte) := fun ds tail hsuffix _ _ => by
    have hle := hsuffix.length_le
    rw [List.length_append] at hle
    exact (Nat.le_of_add_right_le hle).trans (by decide)
  let m : Memory ("d1:ali7e".toList.map byte).length := ⟨32, 3 * 2 ^ 30, by decide, by decide⟩
  obtain ⟨e, he⟩ := Option.isSome_iff_exists.1 (show (lazyBdecode m 2).isSome by decide +kernel)
  exact ⟨m, e, he, inside_of_lazyBdecode (by decide) (by decide) hshort (by decide) he⟩

end P2Player.Bencode
