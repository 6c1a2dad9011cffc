import P2Player.Native.Torrents

/-!
# Who owns a TorrentInfo

A `TorrentInfo` is referred to by its entry in `gTorrents`, by the `stream_plugin` of the torrent
its queue was handed to, and by an asynchronous add that still carries the queue.  The catch blocks
and `removeTorrent` delete it on the word of the entry alone.

* `Referenced`: the references to an object;
* `Releases`: what a deletion has to respect;
* `Inv`: what is referenced is live, and one entry at most refers to an object;
* `ownership`: in every run whose deletions respect `Releases`, the entries and the plugins of the
  session refer to live objects, and no object is deleted twice or used after its deletion.
-/

namespace P2Player.Torrents

open Transition

variable {H : Type*}

/-- The object's queue is with the plugin of a torrent of the session, or on its way to one. -/
inductive Handed (s : State H) : ℕ → Prop
  | plugin {h : H} {i info : ℕ} {t : Torrent H} (hs : s.session h = some i)
      (ht : s.torrents i = some t) (hq : t.queue = some info) : Handed s info
  | pending {x : AddTorrentParams H × ℕ} (hx : x ∈ s.pending) : Handed s x.2

/-- The references to an object. -/
def Referenced (s : State H) (info : ℕ) : Prop := (∃ h, s.gTorrents h = some info) ∨ Handed s info

/-- What is referenced is live; an object has one entry at most, and no thread that shares the lock
loses the entry it read. -/
structure Inv (s : State H) : Prop where
  ref_lt : ∀ info, Referenced s info → info < s.nextInfo
  ref_live : ∀ info, Referenced s info → ¬ Deleted s.log info
  entry_inj : ∀ h h' info, s.gTorrents h = some info → s.gTorrents h' = some info → h = h'
  inside_entry : ∀ t op h info, s.thread t = .inside op h info →
    t ∈ s.sharing ∧ s.gTorrents h = some info
  deleted_lt : ∀ info, Deleted s.log info → info < s.nextInfo
  sound : Sound s.log

theorem inv_init : Inv (init : State H) := by
  refine ⟨?_, ?_, ?_, ?_, ?_, ?_⟩
  · rintro info (⟨h, hh⟩ | ⟨hs, -, -⟩ | hx)
    · simp [init] at hh
    · simp [init] at hs
    · simp [init] at hx
  all_goals simp [init]

theorem Inv.entry_live {s : State H} (hi : Inv s) {h : H} {info : ℕ}
    (hh : s.gTorrents h = some info) : ¬ Deleted s.log info :=
  hi.ref_live info (Or.inl ⟨h, hh⟩)

theorem Inv.use {s : State H} (hi : Inv s) {info : ℕ} (hr : Referenced s info) :
    Sound (.use info :: s.log) :=
  sound_use_cons.2 ⟨hi.ref_live info hr, hi.sound⟩

/-! ### The kinds of steps -/

/-- A step that creates and deletes no object, and makes no new reference. -/
theorem Inv.of_keep {s s' : State H} (hi : Inv s)
    (hent : ∀ h info, s'.gTorrents h = some info → s.gTorrents h = some info)
    (hhand : ∀ info, Handed s' info → Handed s info) (hnext : s'.nextInfo = s.nextInfo)
    (hin : ∀ t op h info, s'.thread t = .inside op h info →
      t ∈ s'.sharing ∧ s'.gTorrents h = some info)
    (hlog : ∀ info, Deleted s'.log info → Deleted s.log info) (hsound : Sound s'.log) :
    Inv s' := by
  have href : ∀ info, Referenced s' info → Referenced s info := by
    rintro info (⟨h, hh⟩ | hh)
    · exact Or.inl ⟨h, hent h info hh⟩
    · exact Or.inr (hhand info hh)
  exact {
    ref_lt := fun info hr => hnext ▸ hi.ref_lt info (href info hr)
    ref_live := fun info hr hd => hi.ref_live info (href info hr) (hlog info hd)
    entry_inj := fun h h' info hh hh' => hi.entry_inj h h' info (hent h info hh) (hent h' info hh')
    inside_entry := hin
    deleted_lt := fun info hd => hnext ▸ hi.deleted_lt info (hlog info hd)
    sound := hsound }

/-- The references depend on the session's tables only. -/
theorem Handed.congr {s' : State H} {info : ℕ} (h : Handed s' info) (s : State H)
    (hs : s'.session = s.session) (ht : s'.torrents = s.torrents)
    (hp : ∀ x ∈ s'.pending, x ∈ s.pending) : Handed s info := by
  cases h with
  | plugin h1 h2 h3 => exact .plugin (hs ▸ h1) (ht ▸ h2) h3
  | pending hx => exact .pending (hp _ hx)

theorem not_handed_of_empty {s : State H} (hs : ∀ h, s.session h = none) (hp : s.pending = [])
    (info : ℕ) : ¬ Handed s info := by
  rintro (⟨h1, -, -⟩ | hx)
  · rw [hs] at h1; cases h1
  · rw [hp] at hx; cases hx

/-- Replacing a torrent by one with the same queue makes no reference. -/
theorem Handed.of_update {s : State H} {i info : ℕ} {t t' : Torrent H}
    (h : Handed { s with torrents := Function.update s.torrents i (some t') } info)
    (ht : s.torrents i = some t) (hq : t'.queue = t.queue) : Handed s info := by
  cases h with
  | @plugin _ j _ _ h1 h2 h3 =>
    dsimp only at h1 h2
    by_cases hj : j = i
    · subst hj
      rw [Function.update_self, Option.some.injEq] at h2
      subst h2
      exact .plugin h1 ht (hq ▸ h3)
    · rw [Function.update_of_ne hj] at h2
      exact .plugin h1 h2 h3
  | pending hx => exact .pending hx

/-- A synchronous add that fails creates an object and deletes it. -/
theorem inv_addFailed {s : State H} (hi : Inv s) :
    Inv { s with
      nextInfo := s.nextInfo + 1
      alerts := s.alerts ++ [none]
      log := .delete s.nextInfo :: s.log } := by
  have href : ∀ info, Referenced { s with
      nextInfo := s.nextInfo + 1
      alerts := s.alerts ++ [none]
      log := .delete s.nextInfo :: s.log } info → Referenced s info := by
    rintro info (⟨h, hh⟩ | hh)
    · exact Or.inl ⟨h, hh⟩
    · exact Or.inr (hh.congr _ rfl rfl fun _ hx => hx)
  refine ⟨?_, ?_, hi.entry_inj, hi.inside_entry, ?_, ?_⟩
  · exact fun info hr => Nat.lt_succ_of_lt (hi.ref_lt info (href info hr))
  · intro info hr hd
    rcases deleted_delete_cons.1 hd with rfl | hd
    · exact absurd (hi.ref_lt _ (href _ hr)) (lt_irrefl _)
    · exact hi.ref_live info (href info hr) hd
  · intro info hd
    rcases deleted_delete_cons.1 hd with rfl | hd
    · exact Nat.lt_succ_self _
    · exact Nat.lt_succ_of_lt (hi.deleted_lt info hd)
  · exact sound_delete_cons.2
      ⟨fun hd => absurd (hi.deleted_lt _ hd) (lt_irrefl _), hi.sound⟩

theorem inside_of_update_idle {s : State H} {t t' : ℕ} {op : Operation} {h : H} {info : ℕ}
    (ht : Function.update s.thread t .idle t' = .inside op h info) :
    s.thread t' = .inside op h info := by
  by_cases htt : t' = t
  · subst htt; simp at ht
  · rwa [Function.update_of_ne htt] at ht

/-- The lookup of an operation that enters. -/
theorem inside_of_enter {s : State H} (hi : Inv s) {t : ℕ} {op : Operation} {h : H} {info : ℕ}
    (hh : s.gTorrents h = some info) {t' : ℕ} {op' : Operation} {h' : H} {info' : ℕ}
    (ht' : Function.update s.thread t (.inside op h info) t' = .inside op' h' info') :
    t' ∈ insert t s.sharing ∧ s.gTorrents h' = some info' := by
  by_cases htt : t' = t
  · subst htt
    simp only [Function.update_self, Thread.inside.injEq] at ht'
    obtain ⟨rfl, rfl, rfl⟩ := ht'
    exact ⟨Finset.mem_insert_self _ _, hh⟩
  · rw [Function.update_of_ne htt] at ht'
    exact (hi.inside_entry t' op' h' info' ht').imp_left Finset.mem_insert_of_mem

/-- The operations that stay when one leaves. -/
theorem inside_of_leave {s : State H} (hi : Inv s) {t : ℕ} {next : Thread H}
    (hnext : ∀ op h info, next ≠ .inside op h info) {t' : ℕ} {op' : Operation} {h' : H} {info' : ℕ}
    (ht' : Function.update s.thread t next t' = .inside op' h' info') :
    t' ∈ s.sharing.erase t ∧ s.gTorrents h' = some info' := by
  by_cases htt : t' = t
  · subst htt
    rw [Function.update_self] at ht'
    exact absurd ht' (hnext op' h' info')
  · rw [Function.update_of_ne htt] at ht'
    exact (hi.inside_entry t' op' h' info' ht').imp_left fun hmem => Finset.mem_erase.2 ⟨htt, hmem⟩

variable [DecidableEq H]

/-- A step that creates an object for the hash `h₀`, which had no entry. -/
theorem Inv.of_new {s s' : State H} (hi : Inv s) {h₀ : H} (h0 : s.gTorrents h₀ = none)
    (hent : s'.gTorrents = Function.update s.gTorrents h₀ (some s.nextInfo))
    (hhand : ∀ info, Handed s' info → Handed s info ∨ info = s.nextInfo)
    (hnext : s'.nextInfo = s.nextInfo + 1) (hthread : s'.thread = s.thread)
    (hsharing : s'.sharing = s.sharing) (hlog : s'.log = s.log) : Inv s' := by
  have hold : ∀ h info, s'.gTorrents h = some info →
      (h = h₀ ∧ info = s.nextInfo) ∨ s.gTorrents h = some info := by
    intro h info hh
    rw [hent] at hh
    by_cases hh₀ : h = h₀
    · subst hh₀; exact Or.inl ⟨rfl, by simpa using hh.symm⟩
    · exact Or.inr (by rwa [Function.update_of_ne hh₀] at hh)
  have href : ∀ info, Referenced s' info → Referenced s info ∨ info = s.nextInfo := by
    rintro info (⟨h, hh⟩ | hh)
    · rcases hold h info hh with ⟨-, rfl⟩ | hh
      · exact Or.inr rfl
      · exact Or.inl (Or.inl ⟨h, hh⟩)
    · exact (hhand info hh).imp_left Or.inr
  have hfresh : ∀ h, s.gTorrents h ≠ some s.nextInfo := fun h hh =>
    absurd (hi.ref_lt _ (Or.inl ⟨h, hh⟩)) (lt_irrefl _)
  refine ⟨?_, ?_, ?_, ?_, ?_, by rw [hlog]; exact hi.sound⟩
  · intro info hr
    rw [hnext]
    rcases href info hr with hr | rfl
    · exact Nat.lt_succ_of_lt (hi.ref_lt info hr)
    · exact Nat.lt_succ_self _
  · intro info hr hd
    rw [hlog] at hd
    rcases href info hr with hr | rfl
    · exact hi.ref_live info hr hd
    · exact absurd (hi.deleted_lt _ hd) (lt_irrefl _)
  · intro h h' info hh hh'
    rcases hold h info hh with ⟨rfl, rfl⟩ | hh <;> rcases hold h' _ hh' with ⟨rfl, he⟩ | hh'
    · rfl
    · exact absurd hh' (hfresh h')
    · exact absurd (he ▸ hh) (hfresh h)
    · exact hi.entry_inj h h' info hh hh'
  · intro t op h info ht
    rw [hthread] at ht
    obtain ⟨hmem, hh⟩ := hi.inside_entry t op h info ht
    refine ⟨hsharing ▸ hmem, ?_⟩
    rw [hent, Function.update_of_ne (by rintro rfl; rw [h0] at hh; cases hh), hh]
  · intro info hd
    rw [hlog] at hd
    rw [hnext]
    exact Nat.lt_succ_of_lt (hi.deleted_lt info hd)

/-- An exclusive section that erases the entry of `h₀` and deletes its object, to which no other
reference is left. -/
theorem Inv.of_delete {s s' : State H} (hi : Inv s) {h₀ : H} {info₀ : ℕ}
    (h0 : s.gTorrents h₀ = some info₀) (hshare : s.sharing = ∅)
    (hent : s'.gTorrents = Function.update s.gTorrents h₀ none)
    (hhand : ∀ info, Handed s' info → Handed s info ∧ info ≠ info₀)
    (hnext : s'.nextInfo = s.nextInfo)
    (hthread : ∀ t op h info, s'.thread t = .inside op h info → s.thread t = .inside op h info)
    (hlog : ∀ info, Deleted s'.log info → info = info₀ ∨ Deleted s.log info)
    (hsound : Sound s'.log) : Inv s' := by
  have hold : ∀ h info, s'.gTorrents h = some info → s.gTorrents h = some info ∧ info ≠ info₀ := by
    intro h info hh
    rw [hent] at hh
    by_cases hh₀ : h = h₀
    · subst hh₀; simp at hh
    · rw [Function.update_of_ne hh₀] at hh
      exact ⟨hh, fun he => hh₀ (hi.entry_inj h h₀ info₀ (he ▸ hh) h0)⟩
  have href : ∀ info, Referenced s' info → Referenced s info ∧ info ≠ info₀ := by
    rintro info (⟨h, hh⟩ | hh)
    · exact ⟨Or.inl ⟨h, (hold h info hh).1⟩, (hold h info hh).2⟩
    · exact ⟨Or.inr (hhand info hh).1, (hhand info hh).2⟩
  refine ⟨?_, ?_, ?_, ?_, ?_, hsound⟩
  · exact fun info hr => hnext ▸ hi.ref_lt info (href info hr).1
  · intro info hr hd
    obtain ⟨hr, hne⟩ := href info hr
    exact (hlog info hd).elim hne (hi.ref_live info hr)
  · exact fun h h' info hh hh' => hi.entry_inj h h' info (hold h info hh).1 (hold h' info hh').1
  · intro t op h info ht
    have hmem := (hi.inside_entry t op h info (hthread t op h info ht)).1
    simp [hshare] at hmem
  · intro info hd
    rw [hnext]
    rcases hlog info hd with rfl | hd
    · exact hi.ref_lt info (Or.inl ⟨h₀, h0⟩)
    · exact hi.deleted_lt info hd

/-! ### The references made by the session -/

/-- The session's `add_torrent` hands out at most the queue it is given. -/
theorem handed_addTorrent {s : State H} {params : AddTorrentParams H} {userdata info : ℕ}
    (h : Handed (s.addTorrent params userdata).2 info) : Handed s info ∨ info = userdata := by
  unfold State.addTorrent at h
  split at h
  · exact Or.inl h
  · cases h with
    | @plugin h' i _ t hs ht hq =>
      dsimp only at hs ht
      by_cases hi : i = s.nextTorrent
      · subst hi
        simp only [Function.update_self, Option.some.injEq] at ht
        subst ht
        simp only [createStreamPlugin] at hq
        split_ifs at hq
        exact Or.inr (by simpa using hq.symm)
      · rw [Function.update_of_ne hi] at ht
        by_cases hh : h' = params.infoHash
        · subst hh
          rw [Function.update_self, Option.some.injEq] at hs
          exact absurd hs.symm hi
        · rw [Function.update_of_ne hh] at hs
          exact Or.inl (.plugin hs ht hq)
    | pending hx => exact Or.inl (.pending hx)

theorem handed_removeTorrent {s : State H} {info info' : ℕ}
    (h : Handed (s.removeTorrent info) info') : Handed s info' := by
  unfold State.removeTorrent at h
  split at h
  · rename_i t _
    cases h with
    | @plugin h' i _ _ hs ht hq =>
      dsimp only at hs ht
      by_cases hh : h' = t.infoHash
      · subst hh; simp at hs
      · rw [Function.update_of_ne hh] at hs
        exact .plugin hs ht hq
    | pending hx => exact .pending hx
  · exact h

/-! ### Steps and runs -/

/-- A catch block that finds an entry finds the object it read before, and an object is deleted
only when its queue is handed to no torrent that stays in the session and to no add in flight. -/
def Releases (s : State H) : Action H → Prop
  | .catch t => ∀ op h info info', s.thread t = .failed op h info → op.deletesInfo = true →
      s.gTorrents h = some info' → info' = info ∧ ¬ Handed s info
  | .remove h => ∀ info, s.gTorrents h = some info → ¬ Handed (s.removeTorrent info) info
  | _ => True

/-- The exclusive section of a catch block that finds an entry. -/
theorem inv_catch {s : State H} (hi : Inv s) {t : ℕ} {op : Operation} {h : H} {info info' : ℕ}
    (ht : s.thread t = .failed op h info) (hh : s.gTorrents h = some info')
    (hshare : s.sharing = ∅) (hc : op.deletesInfo = true → info' = info ∧ ¬ Handed s info) :
    Inv { s with
      gTorrents := Function.update s.gTorrents h none
      thread := Function.update s.thread t .idle
      log := if op.deletesInfo then .delete info :: s.log else s.log } := by
  cases hdel : op.deletesInfo with
  | true =>
    obtain ⟨rfl, hnot⟩ := hc hdel
    refine hi.of_delete hh hshare rfl (fun info h' => ?_) rfl
      (fun _ _ _ _ h' => inside_of_update_idle h') (fun info hd => deleted_delete_cons.1 hd)
      (sound_delete_cons.2 ⟨hi.entry_live hh, hi.sound⟩)
    have h'' : Handed s info := h'.congr _ rfl rfl fun _ hx => hx
    exact ⟨h'', by rintro rfl; exact hnot h''⟩
  | false =>
    refine hi.of_keep (fun h' info' hh' => ?_) (fun info h => h.congr _ rfl rfl fun _ hx => hx) rfl
      (fun t' op' h' info' ht' => ?_) (fun _ h => h) hi.sound
    · by_cases hne : h' = h
      · subst hne; simp at hh'
      · simpa [Function.update_of_ne hne] using hh'
    · -- no thread shares the lock
      have hmem := (hi.inside_entry t' op' h' info' (inside_of_update_idle ht')).1
      simp [hshare] at hmem

/-- The session carries out an asynchronous add. -/
theorem handed_asyncAdd {s : State H} {k : ℕ} {params : AddTorrentParams H} {userdata info : ℕ}
    {alerts : List (Option ℕ)} (hk : s.pending[k]? = some (params, userdata))
    (h : Handed { (s.addTorrent params userdata).2 with
      pending := s.pending.eraseIdx k, alerts := alerts } info) : Handed s info := by
  have h' : Handed (s.addTorrent params userdata).2 info :=
    h.congr _ rfl rfl fun x hx => by simpa using List.mem_of_mem_eraseIdx hx
  rcases handed_addTorrent h' with h' | rfl
  · exact h'
  · exact .pending (List.mem_of_getElem? hk)

/-- **Step lemma.** Every step that respects `Releases` keeps the ownership invariant. -/
theorem inv_step (s : State H) (a : Action H) (s' : State H) (hi : Inv s) (hc : Releases s a)
    (hs : step s a = some s') : Inv s' := by
  cases steps_of_step hs with
  | unchanged => exact hi
  | add params hshare hnew =>
    exact hi.of_new hnew rfl (fun _ h => handed_addTorrent (h.congr _ rfl rfl fun _ => id)) rfl
      (by simp) (by simp) (by simp)
  | addFailed => exact inv_addFailed hi
  | addAsync params hshare hnew =>
    refine hi.of_new hnew rfl (fun info h => ?_) rfl rfl rfl rfl
    cases h with
    | plugin h1 h2 h3 => exact Or.inl (.plugin h1 h2 h3)
    | @pending x hx =>
      rcases List.mem_append.1 hx with hx | hx
      · exact Or.inl (.pending hx)
      -- the request that has just been posted carries the new pointer
      · rw [List.mem_singleton.1 hx]; exact Or.inr rfl
  | asyncAdd k params userdata hk =>
    exact hi.of_keep (by simp) (fun _ => handed_asyncAdd hk) (by simp)
      (by simpa using hi.inside_entry) (by simp) (by simpa using hi.sound)
  | asyncAddFailed k =>
    exact hi.of_keep (fun _ _ => id)
      (fun _ h => h.congr _ rfl rfl fun _ => List.mem_of_mem_eraseIdx) rfl hi.inside_entry
      (fun _ => id) hi.sound
  | popAlert _ k =>
    exact hi.of_keep (fun _ _ => id) (fun _ h => h.congr _ rfl rfl fun _ => id) rfl
      hi.inside_entry (fun _ => id) hi.sound
  | handleAlert k i t info hk hl hg =>
    exact hi.of_keep (fun _ _ => id) (fun _ h => h.congr _ rfl rfl fun _ => id) rfl
      hi.inside_entry (by simp) (hi.use (Or.inl ⟨_, hg⟩))
  | enter t op h info ht hh =>
    exact hi.of_keep (fun _ _ => id) (fun _ h => h.congr _ rfl rfl fun _ => id) rfl
      (fun _ _ _ _ => inside_of_enter hi hh) (fun _ => id) hi.sound
  | operate t op h info ht =>
    refine hi.of_keep (fun _ _ => id) (fun _ h => h.congr _ rfl rfl fun _ => id) rfl
      (fun _ _ _ _ => inside_of_leave hi fun op' h' info' hin => ?_) (by simp)
      (hi.use (Or.inl ⟨h, (hi.inside_entry t op h info ht).2⟩))
    split_ifs at hin
  | catchNone t =>
    exact hi.of_keep (fun _ _ => id) (fun _ h => h.congr _ rfl rfl fun _ => id) rfl
      (fun _ _ _ _ ht' => hi.inside_entry _ _ _ _ (inside_of_update_idle ht')) (fun _ => id) hi.sound
  | «catch» t op h info info' ht hshare hh =>
    exact inv_catch hi ht hh hshare fun hdel => hc op h info info' ht hdel hh
  | remove h info hshare hh =>
    have hlive : ¬ Deleted s.log info := hi.entry_live hh
    -- by `Releases` nobody was handed the pointer that is deleted here
    refine hi.of_delete hh hshare rfl (fun info' h' => ?_) (by simp) (by simp) (by simp) ?_
    · have h'' : Handed (s.removeTorrent info) info' := h'.congr _ rfl rfl fun _ => id
      exact ⟨handed_removeTorrent h'', by rintro rfl; exact hc _ hh h''⟩
    · exact sound_delete_cons.2 ⟨by simpa using hlive, hi.use (Or.inl ⟨h, hh⟩)⟩
  | torrent _ i t t' ht hq =>
    exact hi.of_keep (fun _ _ => id) (fun _ h => h.of_update ht hq) rfl hi.inside_entry
      (fun _ => id) hi.sound
  | tick h t info ht hq =>
    obtain ⟨i, hsi, hti⟩ := Option.bind_eq_some_iff.1 ht
    exact hi.of_keep (fun _ _ => id) (fun _ h => h.congr _ rfl rfl fun _ => id) rfl
      hi.inside_entry (by simp) (hi.use (Or.inr (.plugin hsi hti hq)))

/-- The invariant holds after every run that respects `Releases`. -/
theorem inv_run {as : List (Action H)} {s : State H} (hc : Along step Releases init as)
    (hr : run step init as = some s) : Inv s :=
  hc.keeps inv_step inv_init hr

/-- **Ownership.** In every run whose deletions respect `Releases`, the entries of `gTorrents` and
the queues of the session's plugins belong to live objects, every object is deleted at most once,
and none is used after it was deleted. -/
theorem ownership {as : List (Action H)} {s : State H} (hc : Along step Releases init as)
    (hr : run step init as = some s) :
    (∀ h info, s.gTorrents h = some info → info < s.nextInfo ∧ ¬ Deleted s.log info) ∧
    (∀ info, s.log.count (.delete info) ≤ 1) ∧
    (∀ h i t info, s.session h = some i → s.torrents i = some t → t.queue = some info →
      info < s.nextInfo ∧ ¬ Deleted s.log info) ∧
    Sound s.log := by
  have hi := inv_run hc hr
  refine ⟨fun h info hh => ?_, hi.sound.count_delete_le_one, fun h i t info hs ht hq => ?_,
    hi.sound⟩
  · exact ⟨hi.ref_lt info (Or.inl ⟨h, hh⟩), hi.entry_live hh⟩
  · have href : Referenced s info := Or.inr (.plugin hs ht hq)
    exact ⟨hi.ref_lt info href, hi.ref_live info href⟩

/-- A torrent is added, queried and removed. -/
theorem ownership_add_remove :
    ∃ s : State ℕ, run step init [.add ⟨7, some false⟩ true, .enter 0 .getTorrentState 7,
      .operate 0, .remove 7] = some s ∧ Sound s.log := by
  refine ⟨_, rfl, (@ownership ℕ _ [.add ⟨7, some false⟩ true, .enter 0 .getTorrentState 7,
    .operate 0, .remove 7] _ ?_ rfl).2.2.2⟩
  refine along_cons trivial rfl <| along_cons trivial rfl <| along_cons trivial rfl <|
    along_cons ?_ rfl trivial
  intro info hinfo
  obtain rfl : 0 = info := Option.some.inj hinfo
  refine not_handed_of_empty (fun h => ?_) rfl 0
  change Function.update (Function.update (fun _ => none) 7 (some 0)) 7 none h = none
  rw [Function.update_idem, Function.update_eq_self]

/-- Pausing a torrent whose asynchronous add is still in flight deletes the object whose queue the
session then hands to the torrent's plugin. -/
theorem not_ownership_pause_early :
    ∃ s : State ℕ, run step init [.addAsync ⟨7, some false⟩, .enter 0 .pauseTorrent 7, .operate 0,
      .catch 0, .asyncAdd 0 true] = some s ∧
      ∃ i t info, s.session 7 = some i ∧ s.torrents i = some t ∧ t.queue = some info ∧
        Deleted s.log info :=
  ⟨_, rfl, 0, _, 0, rfl, rfl, rfl, by simp [Deleted, Operation.deletesInfo, init]⟩

end P2Player.Torrents
