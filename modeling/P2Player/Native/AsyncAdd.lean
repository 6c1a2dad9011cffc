import P2Player.Native.Torrents

/-!
# A torrent that has been added asynchronously stays added

`addAsyncTorrent` and `addAsyncMagnetUri` make an entry with an empty handle; the handle is set when
the `add_torrent_alert` is handled.  An operation that meets the empty handle throws, and its catch
block erases the entry.

* `Succeeds h`: the operations on `h` find what they need;
* `Attributed h`: every object belongs to one hash for good, and no thread is about to erase `h`;
* `entry_kept`, `handle_kept`: between an asynchronous add of `h` and its removal the entry of `h`
  stays, and has the handle that the add's alert carried.
-/

namespace P2Player.Torrents

open Transition

variable {H : Type*}

/-- An operation on the hash `h₀` that is carried out does not throw. -/
def Succeeds (h₀ : H) (s : State H) : Action H → Prop
  | .operate t => ∀ op info, s.thread t = .inside op h₀ info → op.succeeds s info = true
  | _ => True

/-- The alert `k` is a successful `add_torrent_alert` for `h₀` that carries the torrent `i`. -/
def AlertFor (h₀ : H) (s : State H) (k i : ℕ) : Prop :=
  s.alerts[k]? = some (some i) ∧ ∃ t, s.lock i = some t ∧ t.infoHash = h₀

/-- An alert for `h₀` that is handled carries the torrent `i`. -/
def Carries (h₀ : H) (i : ℕ) (s : State H) : Action H → Prop
  | .handleAlert k => ∀ j, AlertFor h₀ s k j → j = i
  | _ => True

/-- The hash of the object that a thread read from `gTorrents`. -/
def Thread.Read : Thread H → H → ℕ → Prop
  | .idle, _, _ => False
  | .inside _ h info, h', info' => h = h' ∧ info = info'
  | .failed _ h info, h', info' => h = h' ∧ info = info'

/-- `owner` names the hash each object was made for; no thread is about to erase the entry of `h₀`,
and the object of that entry is live. -/
structure Attributed (h₀ : H) (owner : ℕ → H) (s : State H) : Prop where
  entry : ∀ h info, s.gTorrents h = some info → owner info = h ∧ info < s.nextInfo
  read : ∀ t h info, (s.thread t).Read h info → owner info = h ∧ info < s.nextInfo
  unfailed : ∀ t op info, s.thread t ≠ .failed op h₀ info
  live : ∀ info, s.gTorrents h₀ = some info → ¬ Deleted s.log info
  deleted_lt : ∀ info, Deleted s.log info → info < s.nextInfo

theorem attributed_init (h₀ : H) : Attributed h₀ (fun _ => h₀) init := by
  constructor <;> simp [init, Thread.Read]

/-- A step that makes no object and deletes none of `h₀`. -/
theorem Attributed.of_keep {h₀ : H} {owner : ℕ → H} {s s' : State H} (hi : Attributed h₀ owner s)
    (hent : ∀ h info, s'.gTorrents h = some info → s.gTorrents h = some info)
    (hread : ∀ t h info, (s'.thread t).Read h info → (s.thread t).Read h info ∨
      s.gTorrents h = some info)
    (hfail : ∀ t op info, s'.thread t ≠ .failed op h₀ info)
    (hnext : s.nextInfo ≤ s'.nextInfo)
    (hlog : ∀ info, Deleted s'.log info → Deleted s.log info ∨
      info < s'.nextInfo ∧ s'.gTorrents h₀ ≠ some info) : Attributed h₀ owner s' where
  entry h info hh := (hi.entry h info (hent h info hh)).imp_right (lt_of_lt_of_le · hnext)
  read t h info ht :=
    ((hread t h info ht).elim (hi.read t h info) (hi.entry h info)).imp_right
      (lt_of_lt_of_le · hnext)
  unfailed := hfail
  live info hh hd := by
    rcases hlog info hd with hd | ⟨-, hne⟩
    · exact hi.live info (hent h₀ info hh) hd
    · exact hne hh
  deleted_lt info hd := by
    rcases hlog info hd with hd | ⟨hlt, -⟩
    · exact lt_of_lt_of_le (hi.deleted_lt info hd) hnext
    · exact hlt

/-- A step that only changes the session's tables, the alerts, the handles or the uses. -/
theorem Attributed.of_tables {h₀ : H} {owner : ℕ → H} {s s' : State H}
    (hi : Attributed h₀ owner s) (hent : s'.gTorrents = s.gTorrents)
    (hthread : s'.thread = s.thread) (hnext : s'.nextInfo = s.nextInfo)
    (hlog : ∀ info, Deleted s'.log info → Deleted s.log info) : Attributed h₀ owner s' :=
  hi.of_keep (fun _ _ h => hent ▸ h) (fun _ _ _ h => Or.inl (hthread ▸ h))
    (fun t op info => hthread ▸ hi.unfailed t op info) hnext.ge (fun info h => Or.inl (hlog info h))

/-- A thread that goes on to `next` has read what it had read, or what `next` says. -/
theorem read_of_update {s : State H} {t : ℕ} {next : Thread H} {t' : ℕ} {h : H} {info : ℕ}
    (ht' : (Function.update s.thread t next t').Read h info) :
    (s.thread t').Read h info ∨ t' = t ∧ next.Read h info := by
  by_cases htt : t' = t
  · subst htt
    rw [Function.update_self] at ht'
    exact Or.inr ⟨rfl, ht'⟩
  · rw [Function.update_of_ne htt] at ht'
    exact Or.inl ht'

theorem unfailed_update {h₀ : H} {owner : ℕ → H} {s : State H} (hi : Attributed h₀ owner s)
    {t : ℕ} {next : Thread H} (hnext : ∀ op info, next ≠ .failed op h₀ info) (t' : ℕ)
    (op : Operation) (info : ℕ) : Function.update s.thread t next t' ≠ .failed op h₀ info := by
  by_cases htt : t' = t
  · subst htt; rw [Function.update_self]; exact hnext op info
  · rw [Function.update_of_ne htt]; exact hi.unfailed t' op info

theorem update_idle_cases (s : State H) (t t' : ℕ) :
    Function.update s.thread t .idle t' = s.thread t' ∨
      Function.update s.thread t .idle t' = .idle := by
  by_cases htt : t' = t
  · subst htt; exact Or.inr (Function.update_self ..)
  · exact Or.inl (Function.update_of_ne htt ..)

variable [DecidableEq H]

/-- A step that makes an object for the hash `h₁`, which has no entry. -/
theorem Attributed.of_new {h₀ h₁ : H} {owner : ℕ → H} {s s' : State H}
    (hi : Attributed h₀ owner s)
    (hent : s'.gTorrents = Function.update s.gTorrents h₁ (some s.nextInfo))
    (hthread : s'.thread = s.thread) (hnext : s'.nextInfo = s.nextInfo + 1)
    (hlog : s'.log = s.log) :
    Attributed h₀ (Function.update owner s.nextInfo h₁) s' := by
  have hown : ∀ h info, owner info = h ∧ info < s.nextInfo →
      Function.update owner s.nextInfo h₁ info = h ∧ info < s'.nextInfo := by
    rintro h info ⟨ho, hlt⟩
    rw [hnext, Function.update_of_ne (Nat.ne_of_lt hlt)]
    exact ⟨ho, Nat.lt_succ_of_lt hlt⟩
  refine ⟨fun h info hh => ?_, fun t h info ht => ?_, ?_, fun info hh hd => ?_, fun info hd => ?_⟩
  · rw [hent] at hh
    by_cases hh₁ : h = h₁
    · subst hh₁
      rw [Function.update_self, Option.some.injEq] at hh
      subst hh
      exact ⟨Function.update_self .., hnext ▸ Nat.lt_succ_self _⟩
    · rw [Function.update_of_ne hh₁] at hh
      exact hown h info (hi.entry h info hh)
  · rw [hthread] at ht
    exact hown h info (hi.read t h info ht)
  · rw [hthread]; exact hi.unfailed
  · rw [hlog] at hd
    rw [hent] at hh
    by_cases hh₁ : h₀ = h₁
    · subst hh₁
      rw [Function.update_self, Option.some.injEq] at hh
      subst hh
      exact absurd (hi.deleted_lt _ hd) (lt_irrefl _)
    · rw [Function.update_of_ne hh₁] at hh
      exact hi.live info hh hd
  · rw [hlog] at hd
    exact hnext ▸ Nat.lt_succ_of_lt (hi.deleted_lt info hd)

/-- An exclusive section that erases the entry of `h₁` and deletes at most an object of `h₁`. -/
theorem Attributed.of_erase {h₀ h₁ : H} {owner : ℕ → H} {s s' : State H}
    (hi : Attributed h₀ owner s) {info₁ : ℕ} (h1 : owner info₁ = h₁ ∧ info₁ < s.nextInfo)
    (hent : s'.gTorrents = Function.update s.gTorrents h₁ none)
    (hthread : ∀ t, s'.thread t = s.thread t ∨ s'.thread t = .idle)
    (hnext : s'.nextInfo = s.nextInfo)
    (hlog : ∀ info, Deleted s'.log info → Deleted s.log info ∨ info = info₁) :
    Attributed h₀ owner s' := by
  have hold : ∀ h info, s'.gTorrents h = some info → s.gTorrents h = some info ∧ h ≠ h₁ := by
    intro h info hh
    rw [hent] at hh
    by_cases hh₁ : h = h₁
    · subst hh₁; simp at hh
    · exact ⟨by rwa [Function.update_of_ne hh₁] at hh, hh₁⟩
  refine hi.of_keep (fun h info hh => (hold h info hh).1) ?_ ?_ hnext.ge ?_
  · intro t h info ht
    rcases hthread t with he | he <;> rw [he] at ht
    · exact Or.inl ht
    · exact ht.elim
  · intro t op info ht
    rcases hthread t with he | he <;> rw [he] at ht
    · exact hi.unfailed t op info ht
    · cases ht
  · intro info hd
    rcases hlog info hd with hd | rfl
    · exact Or.inl hd
    · refine Or.inr ⟨hnext ▸ h1.2, fun hh => ?_⟩
      obtain ⟨hh, hne⟩ := hold h₀ info hh
      exact hne ((hi.entry h₀ info hh).1.symm.trans h1.1)

/-! ### Steps -/

/-- **Step lemma.** A step whose operation on `h₀` succeeds keeps the attribution, perhaps with one
more object. -/
theorem attributed_step {h₀ : H} {owner : ℕ → H} {s s' : State H} {a : Action H}
    (hi : Attributed h₀ owner s) (hc : Succeeds h₀ s a) (hs : step s a = some s') :
    ∃ owner', Attributed h₀ owner' s' := by
  cases steps_of_step hs with
  | unchanged => exact ⟨owner, hi⟩
  | add => exact ⟨_, hi.of_new rfl (by simp) rfl (by simp)⟩
  | addFailed =>
    refine ⟨owner, hi.of_keep (fun _ _ => id) (fun _ _ _ => Or.inl) hi.unfailed (Nat.le_succ _)
      fun info hd => ?_⟩
    rcases deleted_delete_cons.1 hd with rfl | hd
    · exact Or.inr ⟨Nat.lt_succ_self _, fun hh => lt_irrefl _ (hi.entry h₀ _ hh).2⟩
    · exact Or.inl hd
  | addAsync => exact ⟨_, hi.of_new rfl rfl rfl rfl⟩
  | asyncAdd => exact ⟨owner, hi.of_tables (by simp) (by simp) (by simp) (by simp)⟩
  | asyncAddFailed | popAlert | torrent => exact ⟨owner, hi.of_tables rfl rfl rfl fun _ => id⟩
  | handleAlert | tick => exact ⟨owner, hi.of_tables rfl rfl rfl (by simp)⟩
  | enter t op h info ht hh =>
    refine ⟨owner, hi.of_keep (fun _ _ => id) (fun t' h' info' ht' => ?_)
      (unfailed_update hi (by simp)) le_rfl (fun _ => Or.inl)⟩
    -- what is read is the entry
    refine (read_of_update ht').imp_right fun hnew => ?_
    obtain ⟨-, rfl, rfl⟩ := hnew
    exact hh
  | operate t op h info ht =>
    refine ⟨owner, hi.of_keep (fun _ _ => id) (fun t' h' info' ht' => Or.inl ?_)
      (unfailed_update hi fun op' info' hfail => ?_) le_rfl (fun _ hd => Or.inl (by simpa using hd))⟩
    · rcases read_of_update ht' with hold | ⟨rfl, hnew⟩
      · exact hold
      · rw [ht]
        split_ifs at hnew
        · exact hnew.elim
        · exact hnew
    · split_ifs at hfail with hsucc
      cases hfail
      exact hsucc (hc op info ht)
  | catchNone t op h info ht hshare hh =>
    have hread : owner info = h ∧ info < s.nextInfo :=
      hi.read t h info (by rw [ht]; exact ⟨rfl, rfl⟩)
    exact ⟨owner, hi.of_erase hread (by rw [← hh, Function.update_eq_self])
      (update_idle_cases s t) rfl fun _ => Or.inl⟩
  | «catch» t op h info info' ht hshare hh =>
    have hread : owner info = h ∧ info < s.nextInfo :=
      hi.read t h info (by rw [ht]; exact ⟨rfl, rfl⟩)
    refine ⟨owner, hi.of_erase hread rfl (update_idle_cases s t) rfl fun info' hd => ?_⟩
    dsimp only at hd
    split at hd
    · exact (deleted_delete_cons.1 hd).symm
    · exact Or.inl hd
  | remove h info hshare hh =>
    exact ⟨owner, hi.of_erase (hi.entry h info hh) rfl (fun _ => Or.inl (by simp)) (by simp)
      fun _ hd => (by simpa using hd : _ ∨ _).symm⟩

/-- Only its removal takes the entry of `h₀` away. -/
theorem entry_step {h₀ : H} {owner : ℕ → H} {s s' : State H} {a : Action H} {info : ℕ}
    (hi : Attributed h₀ owner s) (hh : s.gTorrents h₀ = some info) (ha : a ≠ .remove h₀)
    (hs : step s a = some s') : s'.gTorrents h₀ = some info := by
  have hother : ∀ {h : H} {v : Option ℕ}, h ≠ h₀ →
      Function.update s.gTorrents h v h₀ = some info := fun hne => by
    rw [Function.update_of_ne hne.symm, hh]
  -- an add finds no entry for its hash, so it is for another one
  have hadd : ∀ {h : H}, s.gTorrents h = none → h ≠ h₀ := by rintro h hn rfl; simp [hh] at hn
  cases steps_of_step hs with
  | add params hshare hnew | addAsync params hshare hnew => exact hother (hadd hnew)
  | «catch» t op h info' _ ht => exact hother fun he => hi.unfailed t op info' (he ▸ ht)
  | remove h => exact hother fun he => ha (he ▸ rfl)
  | asyncAdd => simpa using hh
  | _ => exact hh

/-- The handle of the entry of `h₀` only changes when an alert for `h₀` is handled. -/
theorem handle_step {h₀ : H} {owner : ℕ → H} {s s' : State H} {a : Action H} {info i : ℕ}
    (hi : Attributed h₀ owner s) (hh : s.gTorrents h₀ = some info)
    (hhandle : s.handle info = some i) (hc : Carries h₀ i s a) (hs : step s a = some s') :
    s'.handle info = some i := by
  have hlt : info ≠ s.nextInfo := Nat.ne_of_lt (hi.entry h₀ info hh).2
  cases steps_of_step hs with
  | add | addAsync => simpa only [Function.update_of_ne hlt] using hhandle
  | handleAlert k j t info' hk hl hg =>
    by_cases he : info' = info
    · subst he
      have ht : t.infoHash = h₀ := (hi.entry _ _ hg).1.symm.trans (hi.entry _ _ hh).1
      rw [hc j ⟨hk, t, hl, ht⟩]
      exact Function.update_self ..
    · simpa only [Function.update_of_ne (Ne.symm he)] using hhandle
  | asyncAdd | remove => simpa using hhandle
  | _ => exact hhandle

/-- Handling a successful alert for `h₀` gives the entry the handle that the alert carries. -/
theorem handle_of_alert {h₀ : H} {s s' : State H} {k info i : ℕ}
    (hh : s.gTorrents h₀ = some info) (ha : AlertFor h₀ s k i)
    (hs : step s (.handleAlert k) = some s') : s'.handle info = some i := by
  obtain ⟨hk, t, hl, rfl⟩ := ha
  simp only [step, hk, State.handleAlert, hl, hh, Option.some.injEq] at hs
  rw [← hs]
  exact Function.update_self ..

/-! ### Runs -/

/-- The entry of `h₀` refers to `info`, on top of the attribution. -/
def Kept (h₀ : H) (info : ℕ) (s : State H) : Prop :=
  (∃ owner, Attributed h₀ owner s) ∧ s.gTorrents h₀ = some info

/-- What the steps of a run have to meet for the entry of `h₀` to stay. -/
def Keeping (h₀ : H) (s : State H) (a : Action H) : Prop := Succeeds h₀ s a ∧ a ≠ .remove h₀

theorem kept_step {h₀ : H} {info : ℕ} (s : State H) (a : Action H) (s' : State H)
    (hk : Kept h₀ info s) (hc : Keeping h₀ s a) (hs : step s a = some s') : Kept h₀ info s' := by
  obtain ⟨⟨owner, hi⟩, hh⟩ := hk
  exact ⟨attributed_step hi hc.1 hs, entry_step hi hh hc.2 hs⟩

theorem attributed_run {h₀ : H} {as : List (Action H)} {s : State H}
    (hc : Along step (Succeeds h₀) init as) (hr : run step init as = some s) :
    ∃ owner, Attributed h₀ owner s :=
  hc.keeps (I := fun s => ∃ owner, Attributed h₀ owner s)
    (fun _ _ _ ⟨_, hi⟩ hc hs => attributed_step hi hc hs) ⟨_, attributed_init h₀⟩ hr

/-- The handle an entry has been given stays, as long as later alerts for its hash carry the same
torrent. -/
theorem handle_run {h₀ : H} {info i : ℕ} {as : List (Action H)} {s s' : State H}
    (hk : Kept h₀ info s) (hhandle : s.handle info = some i)
    (hc : Along step (Keeping h₀) s as) (hcarr : Along step (Carries h₀ i) s as)
    (hr : run step s as = some s') : s'.handle info = some i := by
  refine ((hc.and hcarr).keeps (I := fun s => Kept h₀ info s ∧ s.handle info = some i) ?_
    ⟨hk, hhandle⟩ hr).2
  rintro s a s' ⟨⟨⟨owner, hi⟩, hh⟩, hhandle⟩ ⟨hc, hcarr⟩ hs
  exact ⟨kept_step s a s' ⟨⟨owner, hi⟩, hh⟩ hc hs, handle_step hi hh hhandle hcarr hs⟩

/-- After `addAsync` its hash has an entry. -/
theorem exists_entry_of_addAsync {params : AddTorrentParams H} {s s' : State H}
    (hs : step s (.addAsync params) = some s') : ∃ info, s'.gTorrents params.infoHash = some info := by
  simp only [step] at hs
  split at hs
  · split at hs
    · rename_i info hh; cases hs; exact ⟨info, hh⟩
    · cases hs; exact ⟨_, Function.update_self ..⟩
  · cases hs

/-- **An asynchronously added torrent stays.** In a run whose operations on `h` succeed, after an
asynchronous add of `h` and until its removal, the entry of `h` and its object stay; and once a
successful alert for `h` has been handled, the entry has the handle that the alert carried. -/
theorem async_kept {params : AddTorrentParams H} {as bs : List (Action H)} {s₁ s : State H}
    (hc : Along step (Succeeds params.infoHash) init (as ++ .addAsync params :: bs))
    (hadd : run step init (as ++ [.addAsync params]) = some s₁)
    (hno : .remove params.infoHash ∉ bs) (hr : run step s₁ bs = some s) :
    ∃ info, s₁.gTorrents params.infoHash = some info ∧ s.gTorrents params.infoHash = some info ∧
      ¬ Deleted s.log info ∧
      ∀ cs k ds i s₂, bs = cs ++ .handleAlert k :: ds → run step s₁ cs = some s₂ →
        AlertFor params.infoHash s₂ k i →
        Along step (Carries params.infoHash i) s₂ (.handleAlert k :: ds) →
        s.handle info = some i := by
  have hsplit : as ++ .addAsync params :: bs = (as ++ [.addAsync params]) ++ bs := by simp
  rw [hsplit] at hc
  obtain ⟨hc₁, hcb⟩ := hc.append hadd
  obtain ⟨s₀, -, hstep⟩ : ∃ s₀, run step init as = some s₀ ∧
      step s₀ (.addAsync params) = some s₁ := by
    rw [run_append] at hadd
    obtain ⟨s₀, h₀, h₁⟩ := Option.bind_eq_some_iff.1 hadd
    obtain ⟨s', h', he⟩ := run_cons_eq_some.1 h₁
    cases he
    exact ⟨s₀, h₀, h'⟩
  obtain ⟨info, hinfo⟩ := exists_entry_of_addAsync hstep
  have hkept : Kept params.infoHash info s₁ := ⟨attributed_run hc₁ hadd, hinfo⟩
  have hkeep : Along step (Keeping params.infoHash) s₁ bs :=
    hcb.and (along_of_forall_mem (P := fun a => a ≠ Action.remove params.infoHash)
      (fun a ha he => hno (he ▸ ha)) s₁)
  obtain ⟨⟨owner, hi⟩, hh⟩ := hkeep.keeps kept_step hkept hr
  refine ⟨info, hinfo, hh, hi.live info hh, ?_⟩
  rintro cs k ds i s₂ rfl hcs halert hcarr
  obtain ⟨hkeep₁, hkeep₂⟩ := hkeep.append hcs
  have hkept₂ := hkeep₁.keeps kept_step hkept hcs
  rw [run_append_of_eq hcs] at hr
  obtain ⟨s₃, hs₃, hds⟩ := run_cons_eq_some.1 hr
  exact handle_run (kept_step _ _ _ hkept₂ hkeep₂.1 hs₃) (handle_of_alert hkept₂.2 halert hs₃)
    (hkeep₂.2 s₃ hs₃) (hcarr.2 s₃ hs₃) hds

/-- The torrent is queried after its alert has been handled. -/
theorem async_kept_query_late :
    ∃ s₁ s : State ℕ, run step init ([] ++ [.addAsync ⟨7, none⟩]) = some s₁ ∧
      run step s₁ [.asyncAdd 0 true, .handleAlert 0, .enter 0 .getTorrentState 7, .operate 0] =
        some s ∧ ∃ info, s.gTorrents 7 = some info ∧ s.handle info = some 0 := by
  have hsucc : Along step (Succeeds 7) (init : State ℕ) ([] ++ .addAsync ⟨7, none⟩ ::
      [.asyncAdd 0 true, .handleAlert 0, .enter 0 .getTorrentState 7, .operate 0]) := by
    refine along_cons trivial rfl <| along_cons trivial rfl <| along_cons trivial rfl <|
      along_cons trivial rfl <| along_cons ?_ rfl trivial
    intro op info ht
    cases ht
    rfl
  have hno : Action.remove 7 ∉
      [.asyncAdd 0 true, .handleAlert 0, .enter 0 .getTorrentState 7, Action.operate 0] := by simp
  obtain ⟨info, -, hinfo, -, hhandle⟩ := @async_kept ℕ _ ⟨7, none⟩ [] _ _ _ hsucc rfl hno rfl
  refine ⟨_, _, rfl, rfl, info, hinfo, hhandle [.asyncAdd 0 true] 0
    [.enter 0 .getTorrentState 7, .operate 0] 0 _ rfl rfl ⟨rfl, _, rfl, rfl⟩ ?_⟩
  refine along_cons (fun j hj => ?_) rfl <| along_cons trivial rfl <| along_cons trivial rfl trivial
  exact (Option.some.inj (Option.some.inj hj.1)).symm

/-- `getTorrentState` before the alert has been handled loses the torrent. -/
theorem not_async_kept_query_early :
    ∃ s : State ℕ, run step init [.addAsync ⟨7, none⟩, .enter 0 .getTorrentState 7, .operate 0,
      .catch 0] = some s ∧ s.gTorrents 7 = none ∧ Deleted s.log 0 :=
  ⟨_, rfl, rfl, by simp [Deleted, Operation.deletesInfo, init]⟩

end P2Player.Torrents
