import P2Player.Lib.Eviction
import P2Player.Manager.Restart

/-!
# The bound of the cache

After a new torrent has been put into the map, `NumberCachePolicy.prepare` removes the least
recently used ones until `maxNumTorrent` are left.  A removal that fails leaves its torrent at the
head of the map, where the next attempt finds it again.

* `attempts`: the removals that `prepare` attempts, with how each ended;
* `prepared`: the state in which an add calls `prepare`;
* `CacheBound`: what `prepare` should do;
* `prepare_cacheBound_iff`: it does so exactly when no attempt but the last one fails.
-/

namespace P2Player.TorrentManager

open Java Native Transition Eviction

variable {B : Type*} {P : Parser B} {maxNumTorrent : ℤ} {s : State B}

/-- The removals that `removeOldest` attempts. -/
def State.attemptsOldest (s : State B) : ℕ → (ℕ → Removal) → List (JString × Removal)
  | 0, _ => []
  | num + 1, removals =>
    match s.hashCodes with
    | [] => []
    | hashCode :: _ =>
      (hashCode, removals 0) ::
        (s.removeTorrent hashCode (removals 0)).attemptsOldest num fun i => removals (i + 1)

/-- The removals that `prepare` attempts. -/
def State.attempts (s : State B) (maxNumTorrent : ℤ) (removals : ℕ → Removal) :
    List (JString × Removal) :=
  let size : ℤ := s.torrents.keys.length
  if maxNumTorrent < size then s.attemptsOldest (size - maxNumTorrent).toNat removals else []

/-- The number of torrents above the limit. -/
def State.excess (s : State B) (maxNumTorrent : ℤ) : ℕ :=
  (s.torrents.keys.length - maxNumTorrent).toNat

/-- The torrents other than the `maxNumTorrent` most recently used ones. -/
def State.others (s : State B) (maxNumTorrent : ℤ) : List JString :=
  s.hashCodes.take (s.excess maxNumTorrent)

/-- What `prepare` should do: at most `maxNumTorrent` torrents are left, or every torrent other than
the most recently used ones has been tried in vain; only the oldest torrents are gone, and the one
just added is not. -/
structure CacheBound (maxNumTorrent : ℤ) (before : State B) (added : JString)
    (attempts : List (JString × Removal)) (after : State B) : Prop where
  bounded : after.hashCodes.length ≤ maxNumTorrent ∨ ∀ k ∈ after.others maxNumTorrent,
    (∃ r, (k, r) ∈ attempts) ∧ ∀ r, (k, r) ∈ attempts → r ≠ .removed
  oldest : ∃ n ≤ before.excess maxNumTorrent, after.hashCodes = before.hashCodes.drop n
  newest : added ∈ after.hashCodes

/-- The state in which an add calls `prepare`, the torrent it has added and the answers to come. -/
def State.prepared (P : Parser B) (s : State B) :
    Action B → Option (State B × JString × (ℕ → Removal))
  | .addTorrentFile c answers =>
    (nativeAdd P true c answers.added).bind fun hashCode =>
      let s := s.initStream hashCode answers.initStream
      if s.torrents.lookup hashCode = none then
        some ({ s with
          torrents := s.torrents.insert hashCode true
          dir := Function.update s.dir (fileName hashCode true) (some c) }, hashCode,
          answers.removals)
      else none
  | .addTorrentURL c answers =>
    let s := { s with dir := Function.update s.dir tempName (some c) }
    (nativeAdd P true c answers.added).bind fun hashCode =>
      let s := s.initStream hashCode answers.initStream
      if s.torrents.lookup hashCode = none then
        some (State.renameTemp { s with torrents := s.torrents.insert hashCode true }
          (fileName hashCode true), hashCode, answers.removals)
      else none
  | .addTorrentURI c answers =>
    (nativeAdd P false c answers.added).bind fun hashCode =>
      let s := s.initStream hashCode answers.initStream
      if s.torrents.lookup hashCode = none then
        some ({ s with
          torrents := s.torrents.insert hashCode false
          dir := Function.update s.dir (fileName hashCode false) (some c) }, hashCode,
          answers.removals)
      else none
  | .removeTorrent _ _ => none

/-- An add that calls `prepare` ends with it, and its torrent is the most recently used one then. -/
theorem step_of_prepared {a : Action B} {s₁ : State B} {k : JString} {removals : ℕ → Removal}
    (h : s.prepared P a = some (s₁, k, removals)) :
    step P maxNumTorrent s a = some (s₁.prepare maxNumTorrent removals) ∧
      ∃ ks, s₁.hashCodes = ks ++ [k] := by
  have hnewest : ∀ {torrents : AList fun _ : JString => Bool} (k : JString) (kind : Bool),
      ∃ ks, (torrents.insert k kind).keys.reverse = ks ++ [k] := fun k kind =>
    ⟨_, by rw [AList.keys_insert, List.reverse_cons]⟩
  cases a with
  | addTorrentFile c answers =>
    obtain ⟨hashCode, hadd, h⟩ := Option.bind_eq_some_iff.1 h
    dsimp only at h
    split_ifs at h with hnew
    cases h
    refine ⟨?_, hnewest _ _⟩
    simp only [step, State.addTorrentFile, hadd, hnew]
  | addTorrentURL c answers =>
    obtain ⟨hashCode, hadd, h⟩ := Option.bind_eq_some_iff.1 h
    dsimp only at h
    split_ifs at h with hnew
    cases h
    refine ⟨?_, hnewest _ _⟩
    simp only [step, State.addTorrentURL, hadd, hnew]
  | addTorrentURI c answers =>
    obtain ⟨hashCode, hadd, h⟩ := Option.bind_eq_some_iff.1 h
    dsimp only at h
    split_ifs at h with hnew
    cases h
    refine ⟨?_, hnewest _ _⟩
    simp only [step, State.addTorrentURI, hadd, hnew]
  | removeTorrent => cases h

/-! ### The attempts are on the head of the map -/

/-- The removals that succeed. -/
def succeeds (removals : ℕ → Removal) (i : ℕ) : Bool := decide (removals i = .removed)

theorem length_hashCodes (s : State B) : s.hashCodes.length = s.torrents.keys.length :=
  List.length_reverse

theorem nodup_hashCodes (s : State B) : s.hashCodes.Nodup :=
  List.nodup_reverse.2 s.torrents.keys_nodup

/-- Removing the oldest torrent shortens the map, unless the removal fails. -/
theorem hashCodes_removeTorrent {k : JString} {ks : List JString} (h : s.hashCodes = k :: ks)
    (r : Removal) :
    (s.removeTorrent k r).hashCodes = if decide (r = .removed) = true then ks else k :: ks := by
  cases r with
  | notRemoved => exact h
  | thrown => exact h
  | removed =>
    have hkeys : s.torrents.keys = ks.reverse ++ [k] := by
      rw [← List.reverse_cons, ← h, State.hashCodes, List.reverse_reverse]
    have hk : k ∉ ks.reverse := by
      have hnodup := nodup_hashCodes s
      rw [h, List.nodup_cons] at hnodup
      rw [List.mem_reverse]; exact hnodup.1
    have hmem : k ∈ s.torrents := AList.mem_keys.2 (by rw [hkeys]; simp)
    obtain ⟨existFile, hlook⟩ := Option.isSome_iff_exists.1 (AList.lookup_isSome.2 hmem)
    rw [removeTorrent_of_some hlook]
    show (s.torrents.erase k).keys.reverse = ks
    rw [AList.keys_erase, hkeys, @List.erase_append_right _ instBEqOfDecidableEq _ _ _ _ hk]
    simp

theorem hashCodes_removeOldest (s : State B) (num : ℕ) (removals : ℕ → Removal) :
    (s.removeOldest num removals).hashCodes = evict (succeeds removals) num s.hashCodes := by
  induction num generalizing s removals with
  | zero => rfl
  | succ num ih =>
    unfold State.removeOldest
    cases h : s.hashCodes with
    | nil => exact h
    | cons k ks =>
      dsimp only
      rw [ih, hashCodes_removeTorrent h]
      rfl

theorem map_attemptsOldest (s : State B) (num : ℕ) (removals : ℕ → Removal) :
    (s.attemptsOldest num removals).map (fun x => (x.1, decide (x.2 = .removed))) =
      tried (succeeds removals) num s.hashCodes := by
  induction num generalizing s removals with
  | zero => rfl
  | succ num ih =>
    unfold State.attemptsOldest
    cases h : s.hashCodes with
    | nil => rfl
    | cons k ks =>
      dsimp only
      rw [List.map_cons, ih, hashCodes_removeTorrent h]
      rfl

theorem hashCodes_prepare (s : State B) (removals : ℕ → Removal) :
    (s.prepare maxNumTorrent removals).hashCodes =
      evict (succeeds removals) (s.excess maxNumTorrent) s.hashCodes := by
  unfold State.prepare
  dsimp only
  split_ifs with h
  · exact hashCodes_removeOldest s _ removals
  · have hzero : s.excess maxNumTorrent = 0 := by unfold State.excess; omega
    rw [hzero]; rfl

theorem map_attempts (s : State B) (removals : ℕ → Removal) :
    (s.attempts maxNumTorrent removals).map (fun x => (x.1, decide (x.2 = .removed))) =
      tried (succeeds removals) (s.excess maxNumTorrent) s.hashCodes := by
  unfold State.attempts
  dsimp only
  split_ifs with h
  · exact map_attemptsOldest s _ removals
  · have hzero : s.excess maxNumTorrent = 0 := by unfold State.excess; omega
    rw [hzero]; rfl

theorem mem_tried_attempts {s : State B} {removals : ℕ → Removal} {k : JString} {b : Bool} :
    (k, b) ∈ tried (succeeds removals) (s.excess maxNumTorrent) s.hashCodes ↔
      ∃ r, (k, r) ∈ s.attempts maxNumTorrent removals ∧ decide (r = .removed) = b := by
  rw [← map_attempts, List.mem_map]
  constructor
  · rintro ⟨⟨k', r⟩, hmem, heq⟩
    obtain ⟨rfl, rfl⟩ := Prod.mk.inj heq
    exact ⟨r, hmem, rfl⟩
  · rintro ⟨r, hmem, rfl⟩
    exact ⟨(k, r), hmem, rfl⟩

/-- A torrent was tried in vain. -/
theorem tried_in_vain_iff {s : State B} {removals : ℕ → Removal} {k : JString} :
    ((∃ r, (k, r) ∈ s.attempts maxNumTorrent removals) ∧
      ∀ r, (k, r) ∈ s.attempts maxNumTorrent removals → r ≠ .removed) ↔
    (k, false) ∈ tried (succeeds removals) (s.excess maxNumTorrent) s.hashCodes ∧
      (k, true) ∉ tried (succeeds removals) (s.excess maxNumTorrent) s.hashCodes := by
  rw [mem_tried_attempts, mem_tried_attempts]
  constructor
  · rintro ⟨⟨r, hr⟩, hall⟩
    refine ⟨⟨r, hr, decide_eq_false (hall r hr)⟩, ?_⟩
    rintro ⟨r', hr', hremoved⟩
    exact hall r' hr' (of_decide_eq_true hremoved)
  · rintro ⟨⟨r, hr, -⟩, hnone⟩
    exact ⟨⟨r, hr⟩, fun r' hr' hremoved => hnone ⟨r', hr', decide_eq_true hremoved⟩⟩

/-! ### The bound -/

/-- **The bound of the cache.** An add that calls `prepare` ends with at most `maxNumTorrent`
torrents, or with every torrent beyond the most recently used ones tried in vain, exactly when every
native removal of the call but the last one succeeds; only the oldest torrents go, never the new
one. -/
theorem prepare_cacheBound_iff (hm : 1 ≤ maxNumTorrent) {a : Action B} {s₁ : State B} {k : JString}
    {removals : ℕ → Removal} (ha : s.prepared P a = some (s₁, k, removals)) :
    (∃ s', step P maxNumTorrent s a = some s' ∧
      CacheBound maxNumTorrent s₁ k (s₁.attempts maxNumTorrent removals) s') ↔
    ∀ i, i + 1 < s₁.excess maxNumTorrent → removals i = .removed := by
  -- on the queue of keys this is the bound of `Eviction`
  obtain ⟨hstep, ks, hks⟩ : step P maxNumTorrent s a = some (s₁.prepare maxNumTorrent removals) ∧
      ∃ ks, s₁.hashCodes = ks ++ [k] := step_of_prepared ha
  have hlen : s₁.hashCodes.length - maxNumTorrent.toNat = s₁.excess maxNumTorrent := by
    have hkeys := length_hashCodes s₁
    unfold State.excess; omega
  have hcond := @all_tried_iff _ (succeeds removals) _ (nodup_hashCodes s₁) maxNumTorrent.toNat
  rw [hlen, ← hashCodes_prepare] at hcond
  have hothers : surplus maxNumTorrent.toNat (s₁.prepare maxNumTorrent removals).hashCodes =
      (s₁.prepare maxNumTorrent removals).others maxNumTorrent := by
    have hkeys := length_hashCodes (s₁.prepare maxNumTorrent removals)
    unfold surplus State.others State.excess
    congr 1
    omega
  rw [hothers] at hcond
  simp only [succeeds, decide_eq_true_eq] at hcond
  rw [← hcond]
  constructor
  · rintro ⟨s', hs', hbound⟩ k' hk'
    rw [hstep] at hs'
    cases hs'
    rcases hbound.bounded with hle | hall
    · -- then nothing is left beyond the most recently used torrents
      have hnil : (s₁.prepare maxNumTorrent removals).others maxNumTorrent = [] := by
        have hkeys := length_hashCodes (s₁.prepare maxNumTorrent removals)
        have hzero : (s₁.prepare maxNumTorrent removals).excess maxNumTorrent = 0 := by
          unfold State.excess; omega
        rw [State.others, hzero, List.take_zero]
      rw [hnil] at hk'
      cases hk'
    · exact tried_in_vain_iff.1 (hall k' hk')
  · intro hall
    refine ⟨_, hstep, Or.inr fun k' hk' => tried_in_vain_iff.2 (hall k' hk'), ?_, ?_⟩
    · exact ⟨_, successes_le _ _, by rw [hashCodes_prepare, evict_eq_drop]⟩
    · have hle := successes_le (succeeds removals) (s₁.excess maxNumTorrent)
      have hlast := congrArg List.length hks
      rw [List.length_append, List.length_singleton] at hlast
      rw [hashCodes_prepare, evict_eq_drop, hks, List.drop_append_of_le_length (by omega)]
      exact List.mem_append_right _ (List.mem_singleton.2 rfl)

/-- With room for one torrent, a second one evicts the first. -/
theorem prepare_cacheBound_iff_second :
    ∃ s s₁ : State Sha1Hash, ∃ k removals,
      run (step plainParser 1) init [.addTorrentURI (constHash 1) allSucceed] = some s ∧
      s.prepared plainParser (.addTorrentURI (constHash 2) allSucceed) = some (s₁, k, removals) ∧
      ∃ s', step plainParser 1 s (.addTorrentURI (constHash 2) allSucceed) = some s' ∧
        CacheBound 1 s₁ k (s₁.attempts 1 removals) s' :=
  ⟨_, _, _, _, rfl, rfl, (prepare_cacheBound_iff (by decide) rfl).2 fun _ _ => rfl⟩

/-- The native adds succeed and the native removals end in the same way. -/
def removalsEnd (r : Removal) : Answers := ⟨true, true, fun _ => r⟩

/-- An eviction during which the native layer lost its entry has failed, and there is one torrent
too many; at the next add both attempts are on the entry that is no longer there, and the second oldest
torrent is not tried. -/
theorem not_cacheBound_after_failure :
    ∃ s s₁ : State Sha1Hash, ∃ k removals,
      run (step plainParser 1) init [.addTorrentURI (constHash 1) allSucceed,
        .addTorrentURI (constHash 2) (removalsEnd .notRemoved)] = some s ∧
      s.prepared plainParser (.addTorrentURI (constHash 3) (removalsEnd .thrown)) =
        some (s₁, k, removals) ∧
      ¬ ∃ s', step plainParser 1 s (.addTorrentURI (constHash 3) (removalsEnd .thrown)) = some s' ∧
        CacheBound 1 s₁ k (s₁.attempts 1 removals) s' := by
  refine ⟨_, _, _, _, rfl, rfl, ?_⟩
  rintro ⟨s', hs', hbound⟩
  cases hs'
  rcases hbound.bounded with hle | hall
  · exact absurd hle (by decide +kernel)
  · obtain ⟨⟨r, hr⟩, -⟩ := hall (toHex (constHash 2)) (by decide +kernel)
    have htried : toHex (constHash 2) ∈ List.map Prod.fst _ := List.mem_map_of_mem hr
    exact absurd htried (by decide +kernel)

end P2Player.TorrentManager
