import P2Player.Native.PriorityList

/-!
# The order in which pieces are picked, in every run

Joining and leaving peers, the priorities that the user sets, and the pieces that are started, finished and
lost change the priorities of the pieces.  Where one piece changes, the list is adapted; where many do, it is
marked as dirty, and `update_pieces` makes it anew, by counting, before it is used the next time.

* `updatePieces`: the list by counting; `sorted_updatePieces`: it is sorted;
* `step`: the calls that change the priorities, `inv_step`: they keep a list that is not dirty sorted;
* `inOrder_of_run`: in every run the pieces are in the order of their priorities;
* `reverseOrder_of_run`: the order in which `pick_pieces` goes through them with `reverse`.
-/

namespace P2Player.PriorityList

open Transition Sections

variable {n : ℕ}

/-! ### `update_pieces` -/

/-- What `std::random_shuffle` makes of a list. -/
structure Shuffle (n : ℕ) where
  apply : List (Fin n) → List (Fin n)
  perm : ∀ l, (apply l).Perm l

/-- The first loop counts the pieces of each priority, and gives each piece its place among them. -/
def countPiece (prio : Fin n → Option ℕ) (acc : List ℕ × (Fin n → Option ℕ)) (x : Fin n) :
    List ℕ × (Fin n → Option ℕ) :=
  match prio x with
  | none => acc
  | some p =>
    let boundaries := acc.1 ++ List.replicate (p + 1 - acc.1.length) 0
    (boundaries.set p (boundaries.getD p 0 + 1), Function.update acc.2 x (some (boundaries.getD p 0)))

/-- The counts become boundaries. -/
def accumulate (index : ℕ) : List ℕ → List ℕ
  | [] => []
  | count :: counts => (index + count) :: accumulate (index + count) counts

/-- The second loop writes each piece to its place. -/
def writePiece (prio : Fin n → Option ℕ) (boundaries : List ℕ) (pos : Fin n → Option ℕ)
    (pieces : List (Option (Fin n))) (x : Fin n) : List (Option (Fin n)) :=
  match prio x with
  | none => pieces
  | some p =>
    pieces.set ((if p = 0 then 0 else boundaries.getD (p - 1) 0) + (pos x).getD 0) (some x)

/-- The pieces of each priority are shuffled. -/
def shuffleAll (shuffle : Shuffle n) (start : ℕ) : List ℕ → List (Fin n) → List (Fin n)
  | [], pieces => pieces
  | b :: bs, pieces =>
    if start = b then shuffleAll shuffle start bs pieces
    else
      shuffleAll shuffle b bs
        (pieces.take start ++ shuffle.apply ((pieces.take b).drop start) ++ pieces.drop b)

/-- The last loop records the places. -/
def indexPieces (index : ℕ) : List (Fin n) → (Fin n → Option ℕ) → Fin n → Option ℕ
  | [], pos => pos
  | x :: pieces, pos => indexPieces (index + 1) pieces (Function.update pos x (some index))

/-- `update_pieces`.  The places that `resize` makes are all written to. -/
def updatePieces (prio : Fin n → Option ℕ) (shuffle : Shuffle n) (l : PieceList n) : PieceList n :=
  let zeros := List.replicate (max 1 l.boundaries.length) 0
  let counted := (List.finRange n).foldl (countPiece prio) (zeros, l.table.pos)
  let boundaries := accumulate 0 counted.1
  let written := (List.finRange n).foldl (writePiece prio boundaries counted.2)
    (List.replicate (boundaries.getLastD 0) none)
  let pieces := shuffleAll shuffle 0 boundaries written.reduceOption
  ⟨⟨pieces, indexPieces 0 pieces counted.2⟩, boundaries⟩

section Counting

variable {prio : Fin n → Option ℕ} {xs : List (Fin n)} {pos : Fin n → Option ℕ}

/-- The pieces of priority `p` among the pieces `xs`. -/
def bucket (prio : Fin n → Option ℕ) (xs : List (Fin n)) (p : ℕ) : List (Fin n) :=
  xs.filter fun x => prio x = some p

/-- What is counted after the pieces `xs`. -/
structure Counted (prio : Fin n → Option ℕ) (xs : List (Fin n)) (acc : List ℕ × (Fin n → Option ℕ)) :
    Prop where
  count : ∀ p, acc.1.getD p 0 = (bucket prio xs p).length
  place : ∀ x ∈ xs, ∀ p, prio x = some p →
    p < acc.1.length ∧ ∃ k, acc.2 x = some k ∧ (bucket prio xs p)[k]? = some x

theorem getD_append_replicate (l : List ℕ) (k p : ℕ) :
    (l ++ List.replicate k 0).getD p 0 = l.getD p 0 := by
  rw [List.getD_eq_getElem?_getD, List.getD_eq_getElem?_getD, List.getElem?_append]
  split_ifs with hp
  · rfl
  · rw [List.getElem?_replicate, List.getElem?_eq_none (by omega : l.length ≤ p)]
    split_ifs
    · rfl
    · rfl

theorem bucket_concat (x : Fin n) (p : ℕ) :
    bucket prio (xs ++ [x]) p = bucket prio xs p ++ if prio x = some p then [x] else [] := by
  unfold bucket
  rw [List.filter_append, List.filter_cons, List.filter_nil]
  simp only [decide_eq_true_eq]

theorem Counted.countPiece {acc : List ℕ × (Fin n → Option ℕ)} (h : Counted prio xs acc) (x : Fin n) :
    Counted prio (xs ++ [x]) (countPiece prio acc x) := by
  unfold PriorityList.countPiece
  cases hp : prio x with
  | none =>
    refine ⟨fun p => ?_, fun y hy p hyp => ?_⟩
    · rw [bucket_concat, if_neg (by simp [hp]), List.append_nil]
      exact h.count p
    · rcases List.mem_append.1 hy with hy | hy
      · rw [bucket_concat, if_neg (by simp [hp]), List.append_nil]
        exact h.place y hy p hyp
      · rw [List.mem_singleton.1 hy, hp] at hyp
        cases hyp
  | some q =>
    dsimp only
    generalize hb : acc.1 ++ List.replicate (q + 1 - acc.1.length) 0 = b
    have hlen : acc.1.length ≤ b.length ∧ q < b.length := by
      rw [← hb, List.length_append, List.length_replicate]
      omega
    have hcount : ∀ p, b.getD p 0 = (bucket prio xs p).length := fun p => by
      rw [← hb, getD_append_replicate]
      exact h.count p
    refine ⟨fun p => ?_, fun y hy p hyp => ?_⟩
    · rw [bucket_concat, List.length_append, hp, List.getD_eq_getElem?_getD, List.getElem?_set]
      by_cases hqp : q = p
      · rw [if_pos hqp, if_pos hlen.2, if_pos (by rw [hqp]), ← hqp, hcount]
        rfl
      · rw [if_neg hqp, if_neg (by simpa using hqp), ← List.getD_eq_getElem?_getD, hcount]
        rfl
    · rw [List.length_set, bucket_concat]
      dsimp only
      by_cases hyx : y = x
      · rw [hyx, hp, Option.some_inj] at hyp
        rw [hyx, Function.update_self, hp, hyp, if_pos rfl, ← hyp]
        exact ⟨hlen.2, _, rfl, by rw [hcount, List.getElem?_concat_length]⟩
      · obtain ⟨hlt, k, hk, hget⟩ := h.place y (by simpa [hyx] using hy) p hyp
        rw [Function.update_of_ne hyx]
        refine ⟨by omega, k, hk, ?_⟩
        rw [List.getElem?_append_left (List.getElem?_eq_some_iff.1 hget).1, hget]

theorem counted_foldl {acc : List ℕ × (Fin n → Option ℕ)} (h : Counted prio [] acc)
    (xs : List (Fin n)) : Counted prio xs (xs.foldl (countPiece prio) acc) := by
  induction xs using List.reverseRecOn with
  | nil => exact h
  | append_singleton xs x ih =>
    rw [List.foldl_append]
    exact ih.countPiece x

/-- A piece without a priority is not counted. -/
theorem countPiece_foldl_of_none (prio : Fin n → Option ℕ) (z : Fin n) (hz : prio z = none) (xs : List (Fin n))
    (acc : List ℕ × (Fin n → Option ℕ)) : (xs.foldl (countPiece prio) acc).2 z = acc.2 z := by
  induction xs generalizing acc with
  | nil => rfl
  | cons x xs ih =>
    rw [List.foldl_cons, ih, countPiece]
    cases hx : prio x with
    | none => rfl
    | some p => exact Function.update_of_ne (fun he => by rw [he, hx] at hz; cases hz) ..

/-- The sections that the counts stand for. -/
def buckets (prio : Fin n → Option ℕ) (m : ℕ) : List (List (Fin n)) :=
  (List.range m).map (bucket prio (List.finRange n))

theorem getElem?_buckets (prio : Fin n → Option ℕ) {m p : ℕ} (hp : p < m) :
    (buckets prio m)[p]? = some (bucket prio (List.finRange n) p) := by
  rw [buckets, List.getElem?_map, List.getElem?_range hp]
  rfl

theorem accumulate_map_length (index : ℕ) (S : List (List (Fin n))) :
    accumulate index (S.map List.length) = ends index S := by
  induction S generalizing index with
  | nil => rfl
  | cons s S ih => rw [List.map_cons, accumulate, ih, ends_cons]

theorem mem_bucket {x : Fin n} {p : ℕ} : x ∈ bucket prio (List.finRange n) p ↔ prio x = some p := by
  rw [bucket, List.mem_filter, decide_eq_true_eq]
  exact and_iff_right (List.mem_finRange x)

theorem nodup_buckets (m : ℕ) : (buckets prio m).flatten.Nodup := by
  refine List.nodup_flatten.2 ⟨fun l hl => ?_, ?_⟩
  · obtain ⟨p, -, rfl⟩ := List.mem_map.1 hl
    exact (List.nodup_finRange n).filter _
  · refine List.pairwise_map.2 (List.pairwise_lt_range.imp fun {p q} hpq => ?_)
    intro x hx hx'
    have hp := (mem_bucket.1 hx).symm.trans (mem_bucket.1 hx')
    exact hpq.ne (Option.some.inj hp)

section Written

variable {acc : List ℕ × (Fin n → Option ℕ)} (h : Counted prio (List.finRange n) acc)

include h

theorem Counted.eq_map : acc.1 = (buckets prio acc.1.length).map List.length := by
  refine List.ext_getElem (by simp [buckets]) fun p hp hp' => ?_
  have hcount := h.count p
  rw [List.getD_eq_getElem?_getD, List.getElem?_eq_getElem hp, Option.getD_some] at hcount
  rw [hcount, List.getElem_map]
  simp [buckets]

theorem Counted.sorted : Sorted prio (buckets prio acc.1.length) := by
  intro x p
  constructor
  · intro hx
    have hlt := (h.place x (List.mem_finRange x) p hx).1
    exact ⟨_, getElem?_buckets prio hlt, mem_bucket.2 hx⟩
  · rintro ⟨l, hl, hx⟩
    have hlt := (List.getElem?_eq_some_iff.1 hl).1
    rw [getElem?_buckets prio (by simpa [buckets] using hlt), Option.some_inj] at hl
    exact mem_bucket.1 (hl ▸ hx)

/-- The place that is computed for a piece is where it is in the sections. -/
theorem Counted.getElem?_place {x : Fin n} {p : ℕ} (hx : prio x = some p) :
    (buckets prio acc.1.length).flatten[(if p = 0 then 0 else
      (accumulate 0 acc.1).getD (p - 1) 0) + (acc.2 x).getD 0]? = some x := by
  obtain ⟨hlt, k, hk, hget⟩ := h.place x (List.mem_finRange x) p hx
  have hlen : (buckets prio acc.1.length).length = acc.1.length := by simp [buckets]
  have hstart : (if p = 0 then 0 else (accumulate 0 acc.1).getD (p - 1) 0) =
      ((buckets prio acc.1.length).take p).flatten.length := by
    split_ifs with hp
    · rw [hp, List.take_zero, List.flatten_nil, List.length_nil]
    · have hends : accumulate 0 acc.1 = ends 0 (buckets prio acc.1.length) := by
        rw [← accumulate_map_length, ← h.eq_map]
      rw [hends, List.getD_eq_getElem?_getD, getElem?_ends (by omega), Option.getD_some, Nat.zero_add,
        Nat.sub_add_cancel (by omega)]
  have hsplit : (buckets prio acc.1.length).flatten = ((buckets prio acc.1.length).take p).flatten ++
      (bucket prio (List.finRange n) p ++ ((buckets prio acc.1.length).drop (p + 1)).flatten) := by
    have hp := List.getElem?_eq_some_iff.1 (getElem?_buckets prio hlt)
    rw [← List.flatten_cons, ← hp.2, List.getElem_cons_drop, ← List.flatten_append,
      List.take_append_drop]
  rw [hstart, hk, Option.getD_some, hsplit, List.getElem?_append_right (by omega), Nat.add_sub_cancel_left,
    List.getElem?_append_left (List.getElem?_eq_some_iff.1 hget).1, hget]

/-- What is written after the pieces `xs`. -/
theorem Counted.written_foldl (xs : List (Fin n)) :
    (xs.foldl (writePiece prio (accumulate 0 acc.1) acc.2)
      (List.replicate (buckets prio acc.1.length).flatten.length none)).length =
        (buckets prio acc.1.length).flatten.length ∧
    ∀ (i : ℕ) y, (buckets prio acc.1.length).flatten[i]? = some y → y ∈ xs →
      (xs.foldl (writePiece prio (accumulate 0 acc.1) acc.2)
        (List.replicate (buckets prio acc.1.length).flatten.length none))[i]? = some (some y) := by
  induction xs using List.reverseRecOn with
  | nil => exact ⟨List.length_replicate, fun _ _ _ hy => nomatch hy⟩
  | append_singleton xs x ih =>
    rw [List.foldl_append, List.foldl_cons, List.foldl_nil]
    generalize xs.foldl (writePiece prio (accumulate 0 acc.1) acc.2)
      (List.replicate (buckets prio acc.1.length).flatten.length none) = pieces at ih ⊢
    unfold writePiece
    cases hx : prio x with
    | none =>
      refine ⟨ih.1, fun i y hi hy => ih.2 i y hi ?_⟩
      rcases List.mem_append.1 hy with hy | hy
      · exact hy
      · -- a piece without a priority is in none of the sections
        obtain ⟨s, hs, hmem⟩ := List.mem_flatten.1 (List.mem_of_getElem? hi)
        obtain ⟨p, hp⟩ := List.mem_iff_getElem?.1 hs
        have hprio := (h.sorted y p).2 ⟨s, hp, hmem⟩
        rw [List.mem_singleton.1 hy, hx] at hprio
        cases hprio
    | some p =>
      dsimp only
      have hplace := h.getElem?_place hx
      generalize (if p = 0 then 0 else (accumulate 0 acc.1).getD (p - 1) 0) + (acc.2 x).getD 0 = k at hplace ⊢
      have hk := (List.getElem?_eq_some_iff.1 hplace).1
      refine ⟨by rw [List.length_set, ih.1], fun i y hi hy => ?_⟩
      by_cases hik : k = i
      · rw [hik, hi, Option.some_inj] at hplace
        rw [hik, hplace, List.getElem?_set_self (by omega)]
      · rw [List.getElem?_set_ne hik]
        refine ih.2 i y hi ((List.mem_append.1 hy).resolve_right fun hyx => hik ?_)
        rw [List.mem_singleton.1 hyx] at hi
        exact (List.getElem?_inj hk (nodup_buckets _)).1 (hplace.trans hi.symm)

/-- The second loop makes the sections one after another. -/
theorem Counted.written : ((List.finRange n).foldl (writePiece prio (accumulate 0 acc.1) acc.2)
    (List.replicate (buckets prio acc.1.length).flatten.length none)).reduceOption =
      (buckets prio acc.1.length).flatten := by
  obtain ⟨hlen, hget⟩ := h.written_foldl (List.finRange n)
  have hmap : (List.finRange n).foldl (writePiece prio (accumulate 0 acc.1) acc.2)
      (List.replicate (buckets prio acc.1.length).flatten.length none) =
        (buckets prio acc.1.length).flatten.map some := by
    refine List.ext_getElem? fun i => ?_
    rw [List.getElem?_map]
    cases hi : (buckets prio acc.1.length).flatten[i]? with
    | none => exact List.getElem?_eq_none (hlen.trans_le (List.getElem?_eq_none_iff.1 hi))
    | some y => exact hget i y hi (List.mem_finRange y)
  rw [hmap]
  exact List.filterMap_map.trans List.filterMap_some

end Written

theorem getLastD_ends (start : ℕ) (S : List (List (Fin n))) :
    (ends start S).getLastD start = start + S.flatten.length := by
  induction S generalizing start with
  | nil => rfl
  | cons s S ih =>
    rw [ends_cons, List.getLastD_cons, ih, List.flatten_cons, List.length_append, Nat.add_assoc]

theorem shuffleAll_spec (shuffle : Shuffle n) (P : List (Fin n)) (T : List (List (Fin n))) :
    ∃ T', shuffleAll shuffle P.length (ends P.length T) (P ++ T.flatten) = P ++ T'.flatten ∧
      List.Forall₂ List.Perm T T' := by
  induction T generalizing P with
  | nil => exact ⟨[], rfl, .nil⟩
  | cons s T ih =>
    rw [ends_cons, shuffleAll]
    split_ifs with hempty
    · obtain rfl := List.eq_nil_of_length_eq_zero (show s.length = 0 by omega)
      obtain ⟨T', hT', hperm⟩ := ih P
      exact ⟨[] :: T', by simpa using hT', .cons (.refl _) hperm⟩
    · obtain ⟨T', hT', hperm⟩ := ih (P ++ shuffle.apply s)
      have hlen : (P ++ s).length = P.length + s.length := List.length_append
      have hlen' : P.length + s.length = (P ++ shuffle.apply s).length := by
        rw [List.length_append, (shuffle.perm s).length_eq]
      refine ⟨shuffle.apply s :: T', ?_, .cons (shuffle.perm s).symm hperm⟩
      rw [List.flatten_cons, List.take_left' rfl, ← List.append_assoc P s, List.take_left' hlen,
        List.drop_left' hlen, List.drop_left' rfl, hlen', hT', List.flatten_cons, List.append_assoc]

theorem indexed_indexPieces {l : List (Fin n)} (hl : l.Nodup) (k : ℕ) (pos : Fin n → Option ℕ) :
    Indexed (indexPieces k l pos) k l ∧ ∀ z, z ∉ l → indexPieces k l pos z = pos z := by
  induction l generalizing k pos with
  | nil => exact ⟨indexed_nil, fun z _ => rfl⟩
  | cons x l ih =>
    obtain ⟨hx, hl⟩ := List.nodup_cons.1 hl
    obtain ⟨hindexed, hframe⟩ := ih hl (k + 1) (Function.update pos x (some k))
    refine ⟨indexed_cons.2 ⟨?_, hindexed⟩, fun z hz => ?_⟩
    · rw [indexPieces, hframe x hx, Function.update_self]
    · rw [List.mem_cons, not_or] at hz
      rw [indexPieces, hframe z hz.2, Function.update_of_ne hz.1]

/-- The list is made anew for any priorities, whatever it was before. -/
theorem sorted_updatePieces (prio : Fin n → Option ℕ) (shuffle : Shuffle n) (l : PieceList n) :
    (updatePieces prio shuffle l).Sorted prio ∧ Keeps l (updatePieces prio shuffle l) := by
  have hzeros : Counted prio [] (List.replicate (max 1 l.boundaries.length) 0, l.table.pos) :=
    ⟨fun p => getD_append_replicate [] _ p, fun x hx => nomatch hx⟩
  have hcounted := counted_foldl hzeros (List.finRange n)
  have hnone := fun z hz => countPiece_foldl_of_none prio z hz (List.finRange n)
    (List.replicate (max 1 l.boundaries.length) 0, l.table.pos)
  unfold updatePieces
  dsimp only
  generalize (List.finRange n).foldl (countPiece prio)
    (List.replicate (max 1 l.boundaries.length) 0, l.table.pos) = acc at hcounted hnone ⊢
  have hends : accumulate 0 acc.1 = ends 0 (buckets prio acc.1.length) := by
    rw [← accumulate_map_length, ← hcounted.eq_map]
  have hwritten := hcounted.written
  rw [hends] at hwritten
  rw [hends, getLastD_ends, Nat.zero_add, hwritten]
  obtain ⟨S, hS, hperm⟩ := shuffleAll_spec shuffle [] (buckets prio acc.1.length)
  rw [List.nil_append, List.nil_append, List.length_nil] at hS
  rw [hS]
  have hnodup := (flatten_perm hperm).nodup_iff.1 (nodup_buckets _)
  obtain ⟨hindexed, hframe⟩ := indexed_indexPieces hnodup 0 acc.2
  refine ⟨⟨S, rfl, ends_congr hperm, hindexed, hcounted.sorted.congr hperm⟩, fun z hz => ?_⟩
  refine (hframe z hz).trans (hnone z ?_)
  rw [Option.eq_none_iff_forall_ne_some]
  intro p hp
  refine hz ((flatten_perm hperm).mem_iff.1 (List.mem_flatten.2 ?_))
  obtain ⟨s, hs, hmem⟩ := (hcounted.sorted z p).1 hp
  exact ⟨s, List.mem_of_getElem? hs, hmem⟩

end Counting

/-! ### What changes the priorities -/

/-- The record of a piece is changed. -/
def State.setPiece (s : State n) (x : Fin n) (f : PiecePos → PiecePos) : State n :=
  { s with pieceMap := Function.update s.pieceMap x (f (s.pieceMap x)) }

/-- The `index` of a piece is set. -/
def State.setIndex (s : State n) (x : Fin n) (i : Option ℕ) : State n :=
  { s with list := s.list.setIndex x i }

/-- `add`, for a piece whose priority is not -1. -/
def State.add (s : State n) (x : Fin n) (rand : ℕ) : State n :=
  match s.priority x with
  | none => s
  | some p => { s with list := PriorityList.add x p rand s.list }

/-- `update` of a piece, with the priority it had. -/
def State.update (s : State n) (x : Fin n) (prev rand : ℕ) : State n :=
  match s.list.table.pos x with
  | none => s
  | some k => { s with list := PriorityList.update s.priority prev k rand s.list }

/-- A piece with a new priority is added, or moved. -/
def State.place (s : State n) (x : Fin n) (prev : Option ℕ) (rand : ℕ) : State n :=
  match prev with
  | none => s.add x rand
  | some p => s.update x p rand

/-- `init`. -/
def init (s : State n) : State n :=
  { s with
    list := { s.list with table := { s.list.table with pos := fun _ => some 0 } }
    pieceMap := fun x => { s.pieceMap x with peerCount := 0, downloading := false }
    dirty := true }

/-- `inc_refcount` of a piece. -/
def incRefcount (x : Fin n) (rand : ℕ) (s : State n) : State n :=
  let prev := s.priority x
  let s := s.setPiece x fun p => { p with peerCount := p.peerCount + 1 }
  if s.dirty then s
  else if prev = s.priority x then s
  else s.place x prev rand

/-- `dec_refcount` of a piece. -/
def decRefcount (x : Fin n) (rand : ℕ) (s : State n) : State n :=
  let prev := s.priority x
  let s := s.setPiece x fun p => { p with peerCount := p.peerCount - 1 }
  if s.dirty then s
  else
    match prev with
    | some p => s.update x p rand
    | none => s

/-- `inc_refcount` and `dec_refcount` of a bitfield. -/
def changeRefcounts (bitmask : Fin n → Bool) (f : Fin 1024 → Fin 1024) (s : State n) : State n :=
  { s with
    pieceMap := fun x =>
      if bitmask x then { s.pieceMap x with peerCount := f (s.pieceMap x).peerCount } else s.pieceMap x
    dirty := s.dirty || decide (∃ x, bitmask x) }

/-- `inc_refcount_all`. -/
def incRefcountAll (s : State n) : State n :=
  { s with seeds := s.seeds + 1, dirty := s.dirty || decide (s.seeds + 1 = 1) }

/-- `dec_refcount_all`. -/
def decRefcountAll (s : State n) : State n :=
  if 0 < s.seeds then { s with seeds := s.seeds - 1, dirty := s.dirty || decide (s.seeds - 1 = 0) }
  else
    { s with
      pieceMap := fun x => { s.pieceMap x with peerCount := (s.pieceMap x).peerCount - 1 }
      dirty := true }

/-- `set_piece_priority`. -/
def setPiecePriority (x : Fin n) (newPiecePriority : Fin 8) (rand : ℕ) (s : State n) : State n :=
  if newPiecePriority = (s.pieceMap x).piecePriority then s
  else
    let prev := s.priority x
    let s := s.setPiece x fun p => { p with piecePriority := newPiecePriority }
    if prev = s.priority x then s
    else if s.dirty then s
    else s.place x prev rand

/-- A piece goes into the download queue, unless it is there. -/
def startDownloading (x : Fin n) (rand : ℕ) (s : State n) : State n :=
  if (s.pieceMap x).downloading then s
  else
    let prev := s.priority x
    let s := s.setPiece x fun p => { p with downloading := true }
    match prev with
    | some p => if s.dirty then s else s.update x p rand
    | none => s

/-- `mark_as_downloading`, which only asserts that the piece is missing. -/
def markAsDownloading (x : Fin n) (rand : ℕ) (s : State n) : State n := startDownloading x rand s

/-- `mark_as_writing` returns for a piece that is there. -/
def markAsWriting (x : Fin n) (rand : ℕ) (s : State n) : State n :=
  if s.havePiece x then s else startDownloading x rand s

/-- `mark_as_finished`, the same. -/
def markAsFinished (x : Fin n) (rand : ℕ) (s : State n) : State n := markAsWriting x rand s

/-- A piece is taken out of the download queue: `restore_piece` and `write_failed`. -/
def stopDownloading (x : Fin n) (rand : ℕ) (s : State n) : State n :=
  let prev := s.priority x
  let s := s.setPiece x fun p => { p with downloading := false }
  if prev = s.priority x then s
  else if s.dirty then s
  else s.place x prev rand

/-- The same in `abort_download`. -/
def abortDownload (x : Fin n) (rand : ℕ) (s : State n) : State n :=
  let prev := s.priority x
  let s := s.setPiece x fun p => { p with downloading := false }
  if s.dirty then s
  else if prev = none ∧ s.priority x ≠ none then s.add x rand
  else
    match prev with
    | some p => s.update x p rand
    | none => s

/-- `we_have`.  The place is that before the piece is marked. -/
def weHave (x : Fin n) (s : State n) : State n :=
  let infoIndex := s.list.table.pos x
  let prev := s.priority x
  let s := s.setPiece x fun p => { p with downloading := false }
  if s.havePiece x then s
  else
    let s := s.setIndex x none
    match prev, infoIndex with
    | some p, some k => if s.dirty then s else { s with list := remove p k s.list }
    | _, _ => s

/-- `we_dont_have`. -/
def weDontHave (x : Fin n) (rand : ℕ) (s : State n) : State n :=
  if s.havePiece x then
    let s := s.setIndex x (some 0)
    if s.dirty then s
    else if s.priority x = none then s
    else s.add x rand
  else s

/-- `pick_pieces`, as far as it changes the list: it is made anew when it is dirty, and `reverse` rounds the
number of the boundaries up. -/
def pickPieces (shuffle : Shuffle n) (reverse : Bool) (s : State n) : State n :=
  let s := if s.dirty then { s with list := updatePieces s.priority shuffle s.list, dirty := false } else s
  if reverse then
    let size := (s.list.boundaries.length + 4 - 1) / 4 * 4
    { s with
      list := { s.list with
        boundaries := s.list.boundaries ++
          List.replicate (size - s.list.boundaries.length) (s.list.boundaries.getLastD 0) } }
  else s

/-- The calls that change the priorities. -/
inductive Action (n : ℕ)
  | init
  | incRefcount (x : Fin n) (rand : ℕ)
  | decRefcount (x : Fin n) (rand : ℕ)
  | incRefcounts (bitmask : Fin n → Bool)
  | decRefcounts (bitmask : Fin n → Bool)
  | incRefcountAll
  | decRefcountAll
  | setPiecePriority (x : Fin n) (newPiecePriority : Fin 8) (rand : ℕ)
  | markAsDownloading (x : Fin n) (rand : ℕ)
  | markAsWriting (x : Fin n) (rand : ℕ)
  | markAsFinished (x : Fin n) (rand : ℕ)
  | stopDownloading (x : Fin n) (rand : ℕ)
  | abortDownload (x : Fin n) (rand : ℕ)
  | weHave (x : Fin n)
  | weDontHave (x : Fin n) (rand : ℕ)
  | pickPieces (shuffle : Shuffle n) (reverse : Bool)

/-- One call.  `dec_refcount` asserts that a peer has the piece. -/
def step (s : State n) : Action n → Option (State n)
  | .init => some (init s)
  | .incRefcount x rand => some (incRefcount x rand s)
  | .decRefcount x rand => if 0 < (s.pieceMap x).peerCount then some (decRefcount x rand s) else none
  | .incRefcounts bitmask => some (changeRefcounts bitmask (· + 1) s)
  | .decRefcounts bitmask => some (changeRefcounts bitmask (· - 1) s)
  | .incRefcountAll => some (incRefcountAll s)
  | .decRefcountAll => some (decRefcountAll s)
  | .setPiecePriority x newPiecePriority rand => some (setPiecePriority x newPiecePriority rand s)
  | .markAsDownloading x rand => some (markAsDownloading x rand s)
  | .markAsWriting x rand => some (markAsWriting x rand s)
  | .markAsFinished x rand => some (markAsFinished x rand s)
  | .stopDownloading x rand => some (stopDownloading x rand s)
  | .abortDownload x rand => some (abortDownload x rand s)
  | .weHave x => some (weHave x s)
  | .weDontHave x rand => some (weDontHave x rand s)
  | .pickPieces shuffle reverse => some (pickPieces shuffle reverse s)

/-- The picker after the constructor and `init`. -/
def start (n : ℕ) : State n :=
  ⟨⟨⟨[], fun _ => some 0⟩, [0]⟩, fun _ => ⟨0, false, ⟨1, by decide⟩⟩, 0, true⟩

/-! ### Every run -/

variable {s s' : State n} {x : Fin n} {pr : Fin n → Option ℕ}

/-- A list that is not dirty is sorted by the priorities that the pieces have. -/
def Inv (s : State n) : Prop := s.dirty = false → s.list.Sorted s.priority

theorem havePiece_of_priority {p : ℕ} (h : s.priority x = some p) : s.havePiece x = false := by
  unfold State.priority PiecePos.priority at h
  cases hhave : s.havePiece x with
  | false => rfl
  | true =>
    rw [hhave, if_pos (.inr (.inl rfl))] at h
    cases h

/-- A change of the list does not change which pieces the torrent has. -/
theorem priority_of_keeps {l' : PieceList n} (h' : l'.Sorted pr) (hkeeps : Keeps s.list l')
    (hhave : ∀ z p, pr z = some p → s.havePiece z = false) :
    State.priority { s with list := l' } = s.priority := by
  obtain ⟨S', h'⟩ := h'
  have hhave : ∀ z, State.havePiece { s with list := l' } z = s.havePiece z := by
    intro z
    by_cases hz : z ∈ l'.table.items
    · obtain ⟨p, hp⟩ := h'.mem_items.1 hz
      rw [hhave z p hp, State.havePiece, Option.isNone_eq_false_iff, Option.isSome_iff_ne_none]
      exact h'.indexed.ne_none hz
    · exact congrArg Option.isNone (hkeeps z hz)
  funext z
  unfold State.priority
  rw [hhave]

/-- The pieces in the list are missing. -/
theorem havePiece_of_sorted (h : s.list.Sorted pr) {z : Fin n} {p : ℕ} (hp : pr z = some p) :
    s.havePiece z = false := by
  obtain ⟨S, h⟩ := h
  rw [State.havePiece, Option.isNone_eq_false_iff, Option.isSome_iff_ne_none]
  exact h.indexed.ne_none (h.mem_items.2 ⟨p, hp⟩)

theorem havePiece_of_update (h : s.list.Sorted pr) (hx : s.havePiece x = false) {q : Option ℕ} (z : Fin n)
    (p : ℕ) (hp : Function.update pr x q z = some p) : s.havePiece z = false := by
  by_cases hz : z = x
  · rw [hz, hx]
  · rw [Function.update_of_ne hz] at hp
    exact havePiece_of_sorted h hp

section Place

variable (h : s.list.Sorted pr) (hother : ∀ z, z ≠ x → s.priority z = pr z)

include h hother

theorem sorted_add (hx : pr x = none) (rand : ℕ) : (s.add x rand).list.Sorted (s.add x rand).priority := by
  unfold State.add
  cases hp : s.priority x with
  | none =>
    have hpr : s.priority = pr := by
      funext z
      by_cases hz : z = x
      · rw [hz, hp, hx]
      · exact hother z hz
    exact hpr.symm ▸ h
  | some p =>
    obtain ⟨S, hS⟩ := h
    obtain ⟨hsorted, hkeeps⟩ := listed_add hS hx p rand
    rw [priority_of_keeps hsorted hkeeps (havePiece_of_update ⟨S, hS⟩ (havePiece_of_priority hp))]
    have hpr : Function.update pr x (some p) = s.priority := by
      rw [Function.update_eq_iff]
      exact ⟨hp.symm, fun z hz => (hother z hz).symm⟩
    exact hpr ▸ hsorted

theorem sorted_update {p : ℕ} (hx : pr x = some p) (rand : ℕ) :
    (s.update x p rand).list.Sorted (s.update x p rand).priority := by
  obtain ⟨S, hS⟩ := h
  obtain ⟨k, -, hk, -⟩ := hS.between hx
  obtain ⟨hsorted, hkeeps⟩ := listed_update hS hx hk s.priority rand
  unfold State.update
  rw [hk]
  dsimp only
  rw [priority_of_keeps hsorted hkeeps
    (havePiece_of_update ⟨S, hS⟩ (havePiece_of_sorted ⟨S, hS⟩ hx))]
  have hpr : Function.update pr x (s.priority x) = s.priority := by
    rw [Function.update_eq_iff]
    exact ⟨rfl, fun z hz => (hother z hz).symm⟩
  rw [hpr] at hsorted
  exact hsorted

theorem sorted_place (rand : ℕ) :
    (s.place x (pr x) rand).list.Sorted (s.place x (pr x) rand).priority := by
  unfold State.place
  cases hx : pr x with
  | none => exact sorted_add h hother hx rand
  | some p => exact sorted_update h hother hx rand

end Place

theorem priority_setPiece_of_ne (s : State n) (x : Fin n) (f : PiecePos → PiecePos) (z : Fin n)
    (hz : z ≠ x) : (s.setPiece x f).priority z = s.priority z := by
  unfold State.priority State.setPiece
  dsimp only
  rw [Function.update_of_ne hz]
  rfl

theorem priority_setPiece_of_eq {f : PiecePos → PiecePos} (h : s.priority x = (s.setPiece x f).priority x) :
    (s.setPiece x f).priority = s.priority := by
  funext z
  by_cases hz : z = x
  · rw [hz, h]
  · exact priority_setPiece_of_ne s x f z hz

theorem inv_of_dirty (h : s.dirty = true) : Inv s := fun hd => by
  rw [h] at hd
  cases hd

/-- The record of a piece is changed without a change of its priority. -/
theorem Inv.setPiece_of_eq (h : Inv s) {f : PiecePos → PiecePos}
    (heq : s.priority x = (s.setPiece x f).priority x) : Inv (s.setPiece x f) := by
  intro hd
  rw [priority_setPiece_of_eq heq]
  exact h hd

/-- The record of a piece is changed, and the list is adapted. -/
theorem Inv.place (h : Inv s) (f : PiecePos → PiecePos) (hd : (s.setPiece x f).dirty = false) (rand : ℕ) :
    Inv ((s.setPiece x f).place x (s.priority x) rand) := by
  have hsorted : (s.setPiece x f).list.Sorted s.priority := h hd
  exact fun _ => sorted_place hsorted (priority_setPiece_of_ne s x f) rand

theorem Inv.update (h : Inv s) (f : PiecePos → PiecePos) (hd : (s.setPiece x f).dirty = false) {p : ℕ}
    (hp : s.priority x = some p) (rand : ℕ) : Inv ((s.setPiece x f).update x p rand) := by
  have hplace := h.place (x := x) f hd rand
  rwa [hp] at hplace

theorem inv_incRefcount (h : Inv s) (x : Fin n) (rand : ℕ) : Inv (incRefcount x rand s) := by
  unfold incRefcount
  dsimp only
  split_ifs with hd heq
  · exact inv_of_dirty hd
  · exact h.setPiece_of_eq heq
  · exact h.place _ (Bool.not_eq_true _ ▸ hd) rand

theorem priority_none_iff (s : State n) (x : Fin n) : s.priority x = none ↔
    (s.pieceMap x).piecePriority = 0 ∨ s.havePiece x ∨ (s.pieceMap x).peerCount.val + s.seeds = 0 := by
  unfold State.priority PiecePos.priority
  split_ifs <;> simp_all

theorem inv_decRefcount (h : Inv s) (x : Fin n) (rand : ℕ) (hcount : 0 < (s.pieceMap x).peerCount) :
    Inv (decRefcount x rand s) := by
  unfold decRefcount
  dsimp only
  split_ifs with hd
  · exact inv_of_dirty hd
  · rw [Bool.not_eq_true] at hd
    cases hp : s.priority x with
    | some p => exact h.update _ hd hp rand
    | none =>
      -- a piece that could not be picked cannot be picked with one peer less
      refine h.setPiece_of_eq (hp.trans (Eq.symm ?_))
      rw [priority_none_iff] at hp ⊢
      unfold State.setPiece State.havePiece at *
      simp only [Function.update_self]
      rcases hp with hp | hp | hp
      · exact .inl hp
      · exact .inr (.inl hp)
      · rw [Fin.lt_def] at hcount
        simp at hcount
        omega

theorem inv_setPiecePriority (h : Inv s) (x : Fin n) (newPiecePriority : Fin 8) (rand : ℕ) :
    Inv (setPiecePriority x newPiecePriority rand s) := by
  unfold setPiecePriority
  dsimp only
  split_ifs with hsame heq hd
  · exact h
  · exact h.setPiece_of_eq heq
  · exact inv_of_dirty hd
  · exact h.place _ (Bool.not_eq_true _ ▸ hd) rand

theorem inv_stopDownloading (h : Inv s) (x : Fin n) (rand : ℕ) : Inv (stopDownloading x rand s) := by
  unfold stopDownloading
  dsimp only
  split_ifs with heq hd
  · exact h.setPiece_of_eq heq
  · exact inv_of_dirty hd
  · exact h.place _ (Bool.not_eq_true _ ▸ hd) rand

theorem priority_downloading_eq_none (s : State n) (x : Fin n) (b : Bool) :
    (s.setPiece x fun p => { p with downloading := b }).priority x = none ↔ s.priority x = none := by
  rw [priority_none_iff, priority_none_iff]
  unfold State.setPiece State.havePiece
  simp only [Function.update_self]

theorem inv_startDownloading (h : Inv s) (x : Fin n) (rand : ℕ) : Inv (startDownloading x rand s) := by
  unfold startDownloading
  split_ifs with hskip
  · exact h
  · dsimp only
    cases hp : s.priority x with
    | none => exact h.setPiece_of_eq (hp.trans ((priority_downloading_eq_none s x true).2 hp).symm)
    | some p =>
      dsimp only
      split_ifs with hd
      · exact inv_of_dirty hd
      · exact h.update _ (Bool.not_eq_true _ ▸ hd) hp rand

theorem inv_markAsWriting (h : Inv s) (x : Fin n) (rand : ℕ) : Inv (markAsWriting x rand s) := by
  unfold markAsWriting
  split_ifs
  · exact h
  · exact inv_startDownloading h x rand

theorem inv_abortDownload (h : Inv s) (x : Fin n) (rand : ℕ) : Inv (abortDownload x rand s) := by
  unfold abortDownload
  dsimp only
  split_ifs with hd hadd
  · exact inv_of_dirty hd
  · have hplace := h.place (x := x) (fun p => { p with downloading := false })
      (Bool.not_eq_true _ ▸ hd) rand
    rwa [hadd.1] at hplace
  · cases hp : s.priority x with
    | none => exact h.setPiece_of_eq (hp.trans ((priority_downloading_eq_none s x false).2 hp).symm)
    | some p => exact h.update _ (Bool.not_eq_true _ ▸ hd) hp rand

theorem sorted_setIndex (h : s.list.Sorted pr) (hx : pr x = none) (i : Option ℕ) :
    (s.setIndex x i).list.Sorted pr := by
  obtain ⟨S, h⟩ := h
  refine ⟨S, h.items, h.bounds, h.indexed.update (fun hmem => ?_) i, h.sorted⟩
  obtain ⟨p, hp⟩ := h.mem_items.1 hmem
  rw [hx] at hp
  cases hp

theorem priority_setIndex_of_ne (s : State n) (x : Fin n) (i : Option ℕ) (z : Fin n) (hz : z ≠ x) :
    (s.setIndex x i).priority z = s.priority z := by
  unfold State.priority State.havePiece State.setIndex PieceList.setIndex
  dsimp only
  rw [Function.update_of_ne hz]

theorem priority_setIndex_none (s : State n) (x : Fin n) : (s.setIndex x none).priority x = none := by
  rw [priority_none_iff]
  refine .inr (.inl ?_)
  unfold State.havePiece State.setIndex PieceList.setIndex
  dsimp only
  rw [Function.update_self]
  rfl

theorem priority_setIndex_eq_update (s : State n) (x : Fin n) :
    (s.setIndex x none).priority = Function.update s.priority x none := by
  refine Eq.symm (Function.update_eq_iff.2 ⟨(priority_setIndex_none s x).symm, fun z hz => ?_⟩)
  exact (priority_setIndex_of_ne s x none z hz).symm

theorem inv_weHave (h : Inv s) (x : Fin n) : Inv (weHave x s) := by
  have hprio : ((s.setPiece x fun p => { p with downloading := false }).setIndex x none).priority =
      Function.update s.priority x none := by
    rw [priority_setIndex_eq_update]
    funext z
    by_cases hz : z = x
    · rw [hz, Function.update_self, Function.update_self]
    · rw [Function.update_of_ne hz, Function.update_of_ne hz, priority_setPiece_of_ne s x _ z hz]
  unfold weHave
  dsimp only
  rw [show (s.setPiece x fun p => { p with downloading := false }).havePiece x = s.havePiece x from rfl]
  by_cases hhave : s.havePiece x = true
  · rw [if_pos hhave]
    have hx : s.priority x = none := (priority_none_iff s x).2 (.inr (.inl hhave))
    exact h.setPiece_of_eq (hx.trans ((priority_downloading_eq_none s x false).2 hx).symm)
  · rw [if_neg hhave]
    obtain ⟨k, hk⟩ : ∃ k, s.list.table.pos x = some k := by
      rw [← Option.isSome_iff_exists, ← Option.isNone_eq_false_iff]
      exact Bool.not_eq_true _ ▸ hhave
    rw [hk]
    cases hp : s.priority x with
    | none =>
      intro hd
      rw [hprio]
      have hsame : Function.update s.priority x none = s.priority := by rw [← hp, Function.update_eq_self]
      rw [hsame]
      exact sorted_setIndex (s := s.setPiece x _) (h hd) hp none
    | some p =>
      dsimp only
      split_ifs with hd
      · exact inv_of_dirty hd
      · obtain ⟨S, hS⟩ := h (Bool.not_eq_true _ ▸ hd)
        obtain ⟨hsorted, hkeeps⟩ := listed_remove hS hp hk none
        intro _
        have hkept := priority_of_keeps (s := (s.setPiece x fun p =>
          { p with downloading := false }).setIndex x none) hsorted hkeeps fun z q hq => by
            rw [← hprio] at hq
            exact havePiece_of_priority hq
        exact (congrArg (PieceList.Sorted · _) (hkept.trans hprio)).mpr hsorted

theorem inv_weDontHave (h : Inv s) (x : Fin n) (rand : ℕ) : Inv (weDontHave x rand s) := by
  unfold weDontHave
  split_ifs with hhave
  · dsimp only
    have hx : s.priority x = none := (priority_none_iff s x).2 (.inr (.inl hhave))
    split_ifs with hd hnone
    · exact inv_of_dirty hd
    · intro hd
      have hpr : (s.setIndex x (some 0)).priority = s.priority := by
        funext z
        by_cases hz : z = x
        · rw [hz, hnone, hx]
        · exact priority_setIndex_of_ne s x _ z hz
      rw [hpr]
      exact sorted_setIndex (h hd) hx _
    · intro _
      exact sorted_add (sorted_setIndex (h (Bool.not_eq_true _ ▸ hd)) hx _)
        (priority_setIndex_of_ne s x _) hx rand
  · exact h

/-- Where no bit is set nothing changes, and otherwise the list becomes dirty. -/
theorem Inv.changeRefcounts (h : Inv s) (bitmask : Fin n → Bool) (f : Fin 1024 → Fin 1024) :
    Inv (changeRefcounts bitmask f s) := by
  intro hd
  have hd' : s.dirty = false ∧ ∀ x, bitmask x = false := by
    simpa [PriorityList.changeRefcounts] using hd
  have hprio : (PriorityList.changeRefcounts bitmask f s).priority = s.priority := by
    funext z
    unfold State.priority PriorityList.changeRefcounts
    dsimp only
    rw [if_neg (by rw [hd'.2]; exact Bool.false_ne_true)]
    rfl
  rw [hprio]
  exact h hd'.1

/-- How many seeds there are does not matter as long as there is one. -/
theorem Inv.seeds (h : Inv s) {seeds : ℕ} {dirty : Bool} (hd : dirty = false → s.dirty = false)
    (hseeds : dirty = false → (0 < s.seeds ↔ 0 < seeds)) : Inv { s with seeds := seeds, dirty := dirty } := by
  intro hdirty
  have hprio : State.priority { s with seeds := seeds, dirty := dirty } = s.priority := by
    funext z
    unfold State.priority PiecePos.priority
    have hz := hseeds hdirty
    have hiff : (s.pieceMap z).peerCount.val + seeds = 0 ↔ (s.pieceMap z).peerCount.val + s.seeds = 0 := by
      omega
    simp only [hiff]
    rfl
  rw [hprio]
  exact h (hd hdirty)

theorem inv_pickPieces (h : Inv s) (shuffle : Shuffle n) (reverse : Bool) :
    Inv (pickPieces shuffle reverse s) := by
  have hupdated : Inv (if s.dirty then
      { s with list := updatePieces s.priority shuffle s.list, dirty := false } else s) := by
    split_ifs with hd
    · intro _
      obtain ⟨hsorted, hkeeps⟩ := sorted_updatePieces s.priority shuffle s.list
      have hprio := priority_of_keeps hsorted hkeeps fun z p hp => havePiece_of_priority hp
      exact hprio.symm ▸ hsorted
    · exact h
  unfold pickPieces
  dsimp only
  generalize (if s.dirty then { s with list := updatePieces s.priority shuffle s.list, dirty := false }
    else s) = s₁ at hupdated ⊢
  split_ifs
  · intro hd
    obtain ⟨S, hS⟩ := hupdated hd
    refine ⟨S ++ List.replicate ((s₁.list.boundaries.length + 4 - 1) / 4 * 4 - s₁.list.boundaries.length) [],
      ?_, ?_, hS.indexed, hS.sorted.append_replicate _⟩
    · rw [List.flatten_append, List.flatten_replicate_nil, List.append_nil]
      exact hS.items
    · rw [ends_append, ends_replicate, ← hS.bounds]
      have hlast := getLastD_ends 0 S
      rw [← hS.bounds] at hlast
      exact congrArg (fun i => s₁.list.boundaries ++ List.replicate _ i) hlast
  · exact hupdated

theorem inv_step {a : Action n} (h : Inv s) (hs : step s a = some s') : Inv s' := by
  cases a with
  | init =>
    cases hs
    exact inv_of_dirty rfl
  | incRefcount x rand =>
    cases hs
    exact inv_incRefcount h x rand
  | decRefcount x rand =>
    unfold step at hs
    dsimp only at hs
    split_ifs at hs with hcount
    cases hs
    exact inv_decRefcount h x rand hcount
  | incRefcounts bitmask =>
    cases hs
    exact h.changeRefcounts bitmask _
  | decRefcounts bitmask =>
    cases hs
    exact h.changeRefcounts bitmask _
  | incRefcountAll =>
    cases hs
    refine h.seeds (fun hd => (Bool.or_eq_false_iff.1 hd).1) fun hd => ?_
    have hseeds := of_decide_eq_false (Bool.or_eq_false_iff.1 hd).2
    omega
  | decRefcountAll =>
    cases hs
    unfold decRefcountAll
    split_ifs with hseeds
    · refine h.seeds (fun hd => (Bool.or_eq_false_iff.1 hd).1) fun hd => ?_
      have hseeds := of_decide_eq_false (Bool.or_eq_false_iff.1 hd).2
      omega
    · exact inv_of_dirty rfl
  | setPiecePriority x newPiecePriority rand =>
    cases hs
    exact inv_setPiecePriority h x newPiecePriority rand
  | markAsDownloading x rand =>
    cases hs
    exact inv_startDownloading h x rand
  | markAsWriting x rand =>
    cases hs
    exact inv_markAsWriting h x rand
  | markAsFinished x rand =>
    cases hs
    exact inv_markAsWriting h x rand
  | stopDownloading x rand =>
    cases hs
    exact inv_stopDownloading h x rand
  | abortDownload x rand =>
    cases hs
    exact inv_abortDownload h x rand
  | weHave x =>
    cases hs
    exact inv_weHave h x
  | weDontHave x rand =>
    cases hs
    exact inv_weDontHave h x rand
  | pickPieces shuffle reverse =>
    cases hs
    exact inv_pickPieces h shuffle reverse

theorem inv_start : Inv (start n) := inv_of_dirty rfl

/-- What `check_invariant` asserts of the list, and what `pick_pieces` relies on. -/
structure InOrder (s : State n) : Prop where
  mem : ∀ x, x ∈ s.list.table.items ↔ s.priority x ≠ none
  nodup : s.list.table.items.Nodup
  sorted : s.list.table.items.Pairwise fun x y =>
    ∀ p q, s.priority x = some p → s.priority y = some q → p ≤ q
  place : ∀ x p, s.priority x = some p → ∃ k, s.list.table.pos x = some k ∧
    s.list.table.items[k]? = some x ∧
      (s.list.priorityRange p).1 ≤ k ∧ k < (s.list.priorityRange p).2
  downloading : ∀ x p, s.priority x = some p → ((s.pieceMap x).downloading ↔ p % 4 = 0)

/-- Each fourth priority is that of the pieces which are being downloaded. -/
theorem downloading_iff {p : ℕ} (h : s.priority x = some p) : (s.pieceMap x).downloading ↔ p % 4 = 0 := by
  unfold State.priority PiecePos.priority at h
  generalize s.pieceMap x = r at h ⊢
  have hlt := r.piecePriority.isLt
  by_cases hnone : r.piecePriority = 0 ∨ s.havePiece x ∨ r.peerCount.val + s.seeds = 0
  · rw [if_pos hnone] at h
    cases h
  · rw [if_neg hnone] at h
    rw [not_or, Fin.ext_iff] at hnone
    have hpos : r.piecePriority.val ≠ 0 := hnone.1
    have htop : r.piecePriority = 7 ↔ r.piecePriority.val = 7 := Fin.ext_iff
    cases hd : r.downloading with
    | false =>
      simp only [hd, Bool.false_eq_true, ↓reduceIte, htop] at h ⊢
      refine iff_of_false nofun ?_
      split_ifs at h
      · cases h
        decide
      · cases h
        omega
      · cases h
        omega
    | true =>
      simp only [hd, ↓reduceIte, htop] at h ⊢
      refine iff_of_true trivial ?_
      split_ifs at h
      · cases h
        rfl
      · cases h
        omega
      · cases h
        omega

theorem inOrder_of_sorted (h : s.list.Sorted s.priority) : InOrder s := by
  obtain ⟨S, h⟩ := h
  refine ⟨fun x => ?_, h.indexed.nodup, h.pairwise, fun x p hp => ?_, fun x p => downloading_iff⟩
  · rw [h.mem_items, Option.ne_none_iff_exists']
  · obtain ⟨k, stop, hk, hget, hstop, hlt, hle⟩ := h.between hp
    refine ⟨k, hk, hget, ?_, ?_⟩
    · unfold PieceList.priorityRange
      dsimp only
      split_ifs with hp
      · exact Nat.zero_le k
      · cases hb : s.list.boundaries[p - 1]? with
        | none => simp [hb]
        | some b =>
          rw [List.getD_eq_getElem?_getD, hb]
          exact hle (p - 1) (by omega) b hb
    · unfold PieceList.priorityRange
      dsimp only
      rw [List.getD_eq_getElem?_getD, hstop]
      exact hlt

/-- **The pieces are in the order of their priorities.**  In every run, when the list is not dirty, it has each
piece that can be picked exactly once, and each of them at the place that is recorded for it, within the
range of its priority. -/
theorem inOrder_of_run {as : List (Action n)} (hr : run step (start n) as = some s)
    (hd : s.dirty = false) : InOrder s :=
  inOrder_of_sorted (run_keeps (fun _ _ _ h hs => inv_step h hs) inv_start hr hd)

/-- Three pieces come to the list with a seed, and one of them moves up and is finished. -/
theorem inOrder_of_run_finished :
    ∃ s, run step (start 3) [.incRefcountAll, .pickPieces ⟨id, fun _ => .refl _⟩ false, .incRefcount 1 5,
      .setPiecePriority 2 7 0, .markAsDownloading 0 1, .incRefcount 0 2, .weHave 1] = some s ∧
        InOrder s := by
  have hr : run step (start 3) [.incRefcountAll, .pickPieces ⟨id, fun _ => .refl _⟩ false, .incRefcount 1 5,
      .setPiecePriority 2 7 0, .markAsDownloading 0 1, .incRefcount 0 2, .weHave 1] = some _ := rfl
  exact ⟨_, hr, inOrder_of_run hr (by decide)⟩

/-! ### The order of `pick_pieces` with `reverse` -/

/-- The priorities come in groups of four, and each group is gone through forward. -/
def reversePriority (i : ℕ) : ℕ := i / 4 * 4 + 4 - 1 - i % 4

/-- The pieces in the order in which `pick_pieces` goes through them with `reverse`. -/
def reverseOrder (l : PieceList n) : List (Fin n) :=
  (List.range l.boundaries.length).reverse.flatMap fun i =>
    let range := l.priorityRange (reversePriority i)
    (l.table.items.take range.2).drop range.1

theorem reversePriority_reversePriority (i : ℕ) : reversePriority (reversePriority i) = i := by
  unfold reversePriority
  omega

theorem reversePriority_lt {i m : ℕ} (hm : m % 4 = 0) (hi : i < m) : reversePriority i < m := by
  unfold reversePriority
  omega

theorem map_reversePriority_perm {m : ℕ} (hm : m % 4 = 0) :
    ((List.range m).reverse.map reversePriority).Perm (List.range m) := by
  have hinj : Function.Injective reversePriority :=
    Function.Involutive.injective reversePriority_reversePriority
  refine (List.perm_ext_iff_of_nodup ((List.nodup_reverse.2 List.nodup_range).map hinj)
    List.nodup_range).2 fun p => ?_
  rw [List.mem_map, List.mem_range]
  constructor
  · rintro ⟨i, hi, rfl⟩
    exact reversePriority_lt hm (List.mem_range.1 (List.mem_reverse.1 hi))
  · intro hp
    exact ⟨reversePriority p, List.mem_reverse.2 (List.mem_range.2 (reversePriority_lt hm hp)),
      reversePriority_reversePriority p⟩

/-- The pieces between the boundaries of a priority are those of its section. -/
theorem range_eq_section {l : PieceList n} {S : List (List (Fin n))}
    (h : Listed pr l.table l.boundaries S) {p : ℕ} (hp : p < S.length) :
    (l.table.items.take (l.priorityRange p).2).drop (l.priorityRange p).1 = S[p] := by
  have hget : S[p]? = some S[p] := List.getElem?_eq_getElem hp
  generalize S[p] = s' at hget ⊢
  obtain ⟨A, s, T, rfl, rfl⟩ := exists_split hp
  have hs : s = s' := by simpa using hget
  rw [priorityRange_eq h.bounds, h.items, List.flatten_append, List.flatten_cons, ← List.append_assoc,
    List.take_left' List.length_append, List.drop_left' rfl, hs]

theorem reverseOrder_spec {l : PieceList n} (h : l.Sorted pr) (hm : l.boundaries.length % 4 = 0) :
    (reverseOrder l).Perm l.table.items ∧ (reverseOrder l).Pairwise fun x y => ∀ p q, pr x = some p →
      pr y = some q → q / 4 < p / 4 ∨ q / 4 = p / 4 ∧ p ≤ q := by
  obtain ⟨S, h⟩ := h
  have hlen : l.boundaries.length = S.length := by rw [h.bounds, length_ends]
  rw [hlen] at hm
  have hprio : ∀ {i x q}, i < S.length →
      x ∈ (l.table.items.take (l.priorityRange (reversePriority i)).2).drop
        (l.priorityRange (reversePriority i)).1 → pr x = some q → q = reversePriority i := by
    intro i x q hi hx hq
    have hi' := reversePriority_lt hm hi
    rw [range_eq_section h hi'] at hx
    exact Option.some.inj (hq.symm.trans ((h.sorted x _).2 ⟨_, List.getElem?_eq_getElem hi', hx⟩))
  unfold reverseOrder
  dsimp only
  rw [hlen]
  refine ⟨?_, List.pairwise_flatMap.2 ⟨fun i hi => ?_, ?_⟩⟩
  · have hsections : (List.range S.length).map (fun p =>
        (l.table.items.take (l.priorityRange p).2).drop (l.priorityRange p).1) = S := by
      refine List.ext_getElem (by simp) fun p hp hp' => ?_
      rw [List.getElem_map, List.getElem_range, range_eq_section h hp']
    have hperm := (map_reversePriority_perm hm).flatMap_right fun p =>
      (l.table.items.take (l.priorityRange p).2).drop (l.priorityRange p).1
    rwa [List.flatMap_map, List.flatMap_def (l := List.range S.length), hsections, ← h.items] at hperm
  · refine List.pairwise_of_forall_mem_list fun x hx y hy p q hp hq => .inr ?_
    have hi := List.mem_range.1 (List.mem_reverse.1 hi)
    rw [hprio hi hx hp, hprio hi hy hq]
    exact ⟨rfl, le_rfl⟩
  · rw [List.pairwise_reverse]
    refine List.pairwise_lt_range.imp_of_mem fun {j i} hj hi hji x hx y hy p q hp hq => ?_
    rw [hprio (List.mem_range.1 hi) hx hp, hprio (List.mem_range.1 hj) hy hq]
    unfold reversePriority
    omega

/-- **The reverse order.**  In every run, `pick_pieces` with `reverse` goes through each piece that can be picked
exactly once, by groups of four priorities, from the last group to the first one, and forward within a group, so
that pieces which are being downloaded come first.  The group of a piece is the number of its peers, half of it
when the user's priority is 4 to 6, and the first group when that is 7. -/
theorem reverseOrder_of_run {as : List (Action n)} {shuffle : Shuffle n}
    (hr : run step (start n) (as ++ [.pickPieces shuffle true]) = some s) :
    (reverseOrder s.list).Nodup ∧ (∀ x, x ∈ reverseOrder s.list ↔ s.priority x ≠ none) ∧
      (reverseOrder s.list).Pairwise fun x y => ∀ p q, s.priority x = some p →
        s.priority y = some q → q / 4 < p / 4 ∨ q / 4 = p / 4 ∧ p ≤ q := by
  rw [run_append, Option.bind_eq_some_iff] at hr
  obtain ⟨s₀, hr₀, hlast⟩ := hr
  have hinv : Inv s := inv_step (run_keeps (fun _ _ _ h hs => inv_step h hs) inv_start hr₀)
    (by simpa [run_cons] using hlast)
  have hs : s = pickPieces shuffle true s₀ := by
    simpa [run_cons, step] using hlast.symm
  have hd : s.dirty = false := by
    rw [hs]
    unfold pickPieces
    simp only [↓reduceIte]
    split_ifs with hd
    · rfl
    · simpa using hd
  have hlen : s.list.boundaries.length % 4 = 0 := by
    rw [hs]
    unfold pickPieces
    simp only [↓reduceIte, List.length_append, List.length_replicate]
    omega
  obtain ⟨hperm, hpairwise⟩ := reverseOrder_spec (hinv hd) hlen
  have horder := inOrder_of_sorted (hinv hd)
  exact ⟨hperm.nodup_iff.2 horder.nodup, fun x => hperm.mem_iff.trans (horder.mem x), hpairwise⟩

/-- Three pieces with different numbers of peers. -/
theorem reverseOrder_of_run_three :
    ∃ s, run step (start 3) ([.incRefcount 0 0, .incRefcount 1 0, .incRefcounts (· = 1)] ++
        [.pickPieces ⟨id, fun _ => .refl _⟩ true]) = some s ∧
      (reverseOrder s.list).Nodup ∧ (∀ x, x ∈ reverseOrder s.list ↔ s.priority x ≠ none) ∧
        (reverseOrder s.list).Pairwise fun x y => ∀ p q, s.priority x = some p →
          s.priority y = some q → q / 4 < p / 4 ∨ q / 4 = p / 4 ∧ p ≤ q := by
  have hr : run step (start 3) ([.incRefcount 0 0, .incRefcount 1 0, .incRefcounts (· = 1)] ++
      [.pickPieces ⟨id, fun _ => .refl _⟩ true]) = some _ := rfl
  exact ⟨_, hr, reverseOrder_of_run hr⟩

end P2Player.PriorityList
