import P2Player.Manager.NativeSession

/-!
# One torrent downloads at a time

An added torrent starts outside upload mode.  `initStream` takes the new stream's torrent out of
upload mode before it puts the torrent of the old stream into it, and `cancelStream` puts the
current torrent into upload mode but does not forget it.

* `setUploadMode_apply`, `initStream_spec`: the upload modes after the native calls;
* `load_uploadMode`: the start leaves every torrent in upload mode;
* `OneStream`: every torrent is in upload mode, except that of the current stream and new ones;
* `oneStream_run`: this holds after every run of calls that run through.
-/

namespace P2Player.NativeSession

open Java Native Transition

open TorrentManager (Parser tempName plainParser constHash)

variable {B : Type*}

/-! ### The upload modes after a call -/

theorem onTorrent_snd (gTorrents : Torrents) (hash : Sha1Hash) (ok : Bool) (f : Bool → Bool) :
    (onTorrent gTorrents (toHex hash) ok f).2 = (gTorrents hash).isSome := by
  unfold onTorrent
  rw [jStringToHash_toHex]
  cases hg : gTorrents hash with
  | none => simp [hg]
  | some uploadMode => cases ok <;> simp [hg]

theorem setUploadMode_apply (gTorrents : Torrents) (hash : Sha1Hash) (uploadMode : Bool)
    (hash' : Sha1Hash) :
    (setUploadMode gTorrents (toHex hash) uploadMode true).1 hash' =
      if hash' = hash then (gTorrents hash).map fun _ => uploadMode else gTorrents hash' := by
  unfold setUploadMode onTorrent
  rw [jStringToHash_toHex]
  cases hg : gTorrents hash with
  | none =>
    simp only [hg, Option.map_none]
    split_ifs with heq
    · rw [heq, hg]
    · rfl
  | some mode =>
    simp only [hg, if_true, Option.map_some]
    split_ifs with heq
    · rw [heq, Function.update_self]
    · rw [Function.update_of_ne heq]

/-- The current stream is a string that the native layer hands out. -/
def System.Canonical (s : System B) : Prop :=
  ∀ k, s.manager.currentStream = some k → ∃ hash, k = toHex hash

theorem cancelStream_gTorrents {s : System B} (hs : s.Canonical) (hash : Sha1Hash) :
    (s.cancelStream true).gTorrents hash =
      if s.manager.currentStream = some (toHex hash) then (s.gTorrents hash).map fun _ => true
      else s.gTorrents hash := by
  unfold System.cancelStream
  cases hcurrent : s.manager.currentStream with
  | none => rfl
  | some currentStream =>
    obtain ⟨old, rfl⟩ := hs currentStream hcurrent
    dsimp only
    rw [setUploadMode_apply]
    by_cases heq : hash = old
    · rw [if_pos heq, if_pos (by rw [heq]), heq]
    · rw [if_neg heq, if_neg fun h => heq (toHex_injective (Option.some.inj h)).symm]

/-- `initStream` of a torrent that the native layer does not have throws. -/
theorem initStream_of_none {s : System B} {hash : Sha1Hash} (hg : s.gTorrents hash = none)
    (o : InitStream) : s.initStream (toHex hash) o = s := by
  have hset : setUploadMode s.gTorrents (toHex hash) false o.setUploadMode =
      (s.gTorrents, false) := by
    simp only [setUploadMode, onTorrent, jStringToHash_toHex, hg]
  unfold System.initStream
  rw [hset]
  rfl

/-- `initStream` of a torrent that the native layer has, when all native calls run through. -/
theorem initStream_of_isSome {s : System B} {hash : Sha1Hash} (hsome : (s.gTorrents hash).isSome)
    {o : InitStream} (ho : o.Ok) : s.initStream (toHex hash) o =
      let s' : System B :=
        { s with gTorrents := (setUploadMode s.gTorrents (toHex hash) false true).1 }
      match s.manager.currentStream with
      | none => { s' with manager := { s.manager with currentStream := some (toHex hash) } }
      | some currentStream =>
        if toHex hash ≠ currentStream then
          ⟨{ s.manager with currentStream := some (toHex hash) }, (s'.cancelStream true).gTorrents⟩
        else s' := by
  obtain ⟨hmode, hresume, hcancel⟩ := ho
  have hset_snd : (setUploadMode s.gTorrents (toHex hash) false true).2 = true :=
    (onTorrent_snd _ hash true _).trans hsome
  have hquery_snd : (query (setUploadMode s.gTorrents (toHex hash) false true).1 (toHex hash)
      true).2 = true := by
    refine (onTorrent_snd _ hash true id).trans ?_
    rw [setUploadMode_apply, if_pos rfl, Option.isSome_map]
    exact hsome
  unfold System.initStream
  rw [hmode, hresume, hcancel]
  dsimp only
  rw [query_ok, if_pos hset_snd, if_pos hquery_snd]
  cases s.manager.currentStream with
  | none => rfl
  | some currentStream => simp only [cancelStream_manager]

/-- `initStream` of a torrent that the native layer has: it is the current stream, it is taken out
of upload mode, and the torrent of another stream before it is put into upload mode. -/
theorem initStream_spec {s : System B} (hs : s.Canonical) {hash : Sha1Hash}
    (hsome : (s.gTorrents hash).isSome) {o : InitStream} (ho : o.Ok) :
    (s.initStream (toHex hash) o).manager.currentStream = some (toHex hash) ∧
      ∀ hash', (s.initStream (toHex hash) o).gTorrents hash' =
        if hash' = hash then some false
        else if s.manager.currentStream = some (toHex hash') then
          (s.gTorrents hash').map fun _ => true
        else s.gTorrents hash' := by
  have hset := setUploadMode_apply s.gTorrents hash false
  obtain ⟨uploadMode, hg⟩ := Option.isSome_iff_exists.1 hsome
  rw [hg, Option.map_some] at hset
  rw [initStream_of_isSome hsome ho]
  dsimp only
  cases hcurrent : s.manager.currentStream with
  | none => exact ⟨rfl, fun hash' => by simp [hset]⟩
  | some currentStream =>
    obtain ⟨old, rfl⟩ := hs currentStream hcurrent
    have hinj : ∀ hash', some (toHex old) = some (toHex hash') ↔ hash' = old := fun hash' => by
      rw [Option.some.injEq, toHex_injective.eq_iff, eq_comm]
    by_cases hne : hash = old
    · subst hne
      dsimp only
      rw [if_neg (not_not.2 rfl)]
      refine ⟨hcurrent, fun hash' => ?_⟩
      dsimp only
      rw [hset]
      by_cases heq : hash' = hash
      · rw [if_pos heq, if_pos heq]
      · rw [if_neg heq, if_neg heq, if_neg (mt (hinj hash').1 heq)]
    · dsimp only
      rw [if_pos fun h => hne (toHex_injective h)]
      refine ⟨rfl, fun hash' => ?_⟩
      -- the old stream is cancelled in the state after the new one was switched on
      have hcanon : System.Canonical
          ⟨s.manager, (setUploadMode s.gTorrents (toHex hash) false true).1⟩ := hs
      rw [cancelStream_gTorrents hcanon]
      dsimp only
      rw [hset, hcurrent]
      by_cases heq : hash' = hash
      · rw [if_pos heq, if_neg (mt (hinj hash').1 fun h => hne (heq.symm.trans h)), if_pos heq]
      · rw [if_neg heq, if_neg heq]

/-! ### Every other torrent is in upload mode -/

/-- The current stream is a string that the native layer hands out, and every torrent is in upload
mode, except that of the current stream and those of `new`. -/
structure OneStream (new : Set Sha1Hash) (s : System B) : Prop where
  current : s.Canonical
  others : ∀ hash ∉ new, ∀ uploadMode, s.gTorrents hash = some uploadMode →
    s.manager.currentStream ≠ some (toHex hash) → uploadMode = true

section OneStream

variable {P : Parser B} {maxNumTorrent : ℤ} {s s' : System B} {new : Set Sha1Hash}

/-- A native add leaves the upload modes of the other torrents alone. -/
theorem addNative_mode {gTorrents : Torrents} {kind : Bool} {c : B} {mode added : Bool}
    {hash : Sha1Hash} {uploadMode : Bool}
    (h : (addNative P gTorrents kind c mode added).1 hash = some uploadMode) :
    gTorrents hash = some uploadMode ∨ uploadMode = mode := by
  unfold addNative at h
  cases hP : P.hash kind c with
  | none =>
    rw [hP] at h
    exact Or.inl h
  | some new =>
    rw [hP] at h
    dsimp only at h
    cases hg : gTorrents new with
    | some old =>
      rw [hg] at h
      exact Or.inl h
    | none =>
      rw [hg] at h
      dsimp only at h
      split_ifs at h
      · dsimp only at h
        rcases eq_or_ne hash new with rfl | hne
        · rw [Function.update_self, Option.some.injEq] at h
          exact Or.inr h.symm
        · rw [Function.update_of_ne hne] at h
          exact Or.inl h
      · exact Or.inl h

/-- After the start there is no stream, and every torrent is in upload mode. -/
theorem load_uploadMode (dir : JString → Option B) (added : JString → Bool)
    (listing hashCodes : List JString) :
    (load P dir added listing hashCodes).manager.currentStream = none ∧
      ∀ hash uploadMode, (load P dir added listing hashCodes).gTorrents hash = some uploadMode →
        uploadMode = true := by
  apply load_induction fun s : System B => s.manager.currentStream = none ∧
    ∀ hash uploadMode, s.gTorrents hash = some uploadMode → uploadMode = true
  · exact ⟨rfl, fun hash uploadMode h => by cases h⟩
  · rintro s ⟨hcurrent, hmode⟩ kind c ok
    have hadd : ∀ hash uploadMode,
        (addNative P s.gTorrents kind c true ok).1 hash = some uploadMode → uploadMode = true :=
      fun hash uploadMode h => (addNative_mode h).elim (hmode hash uploadMode) id
    unfold System.putLoaded
    dsimp only
    cases (addNative P s.gTorrents kind c true ok).2 with
    | none => exact ⟨hcurrent, hadd⟩
    | some hashCode => exact ⟨hcurrent, hadd⟩

theorem oneStream_load (dir : JString → Option B) (added : JString → Bool)
    (listing hashCodes : List JString) : OneStream ∅ (load P dir added listing hashCodes) := by
  obtain ⟨hcurrent, hmode⟩ := load_uploadMode dir added listing hashCodes (P := P)
  constructor
  · intro k hk
    rw [hcurrent] at hk
    cases hk
  · exact fun hash _ uploadMode hg _ => hmode hash uploadMode hg

/-- Torrents that are gone, and changes of the manager that keep the stream, do not matter. -/
theorem OneStream.mono (h : OneStream new s)
    (hcurrent : s'.manager.currentStream = s.manager.currentStream)
    (hg : ∀ hash uploadMode, s'.gTorrents hash = some uploadMode →
      s.gTorrents hash = some uploadMode) : OneStream new s' := by
  constructor
  · intro k hk
    exact h.current k (hcurrent ▸ hk)
  · intro hash hnew uploadMode hg' hne
    exact h.others hash hnew uploadMode (hg hash uploadMode hg') (hcurrent ▸ hne)

/-- **The switch**: a new torrent is streamed, and the one before it is put into upload mode. -/
theorem OneStream.initStream {hash : Sha1Hash} (h : OneStream {hash} s)
    (hsome : (s.gTorrents hash).isSome) {o : InitStream} (ho : o.Ok) :
    OneStream ∅ (s.initStream (toHex hash) o) := by
  obtain ⟨hcurrent, hg⟩ := initStream_spec h.current hsome ho
  constructor
  · intro k hk
    rw [hcurrent] at hk
    exact ⟨hash, (Option.some.inj hk).symm⟩
  · intro hash' _ uploadMode hg' hne
    -- not the torrent of the new stream: it was that of the old one, or in upload mode before
    rw [hcurrent] at hne
    have hne' : hash' ≠ hash := fun heq => hne (by rw [heq])
    rw [hg, if_neg hne'] at hg'
    split_ifs at hg' with hold
    · obtain ⟨-, -, hmode⟩ := Option.map_eq_some_iff.1 hg'
      exact hmode.symm
    · exact h.others hash' hne' uploadMode hg' hold

theorem OneStream.cancelStream (h : OneStream ∅ s) : OneStream ∅ (s.cancelStream true) := by
  constructor
  · intro k hk
    rw [cancelStream_manager] at hk
    exact h.current k hk
  · intro hash hnew uploadMode hg hne
    rw [cancelStream_manager] at hne
    rw [cancelStream_gTorrents h.current, if_neg hne] at hg
    exact h.others hash hnew uploadMode hg hne

theorem removeTorrent_currentStream (s : System B) (hashCode : JString) (ok : Bool) :
    (s.removeTorrent hashCode ok).manager.currentStream = s.manager.currentStream := by
  unfold System.removeTorrent TorrentManager.State.removeTorrent
  dsimp only
  cases (removeNative s.gTorrents hashCode ok).2 with
  | removed => cases s.manager.torrents.lookup hashCode <;> rfl
  | notRemoved => rfl
  | thrown => rfl

theorem removeNative_sub {gTorrents : Torrents} {hashCode : JString} {ok : Bool} {hash : Sha1Hash}
    {uploadMode : Bool} (h : (removeNative gTorrents hashCode ok).1 hash = some uploadMode) :
    gTorrents hash = some uploadMode := by
  unfold removeNative at h
  cases hcode : jStringToHash hashCode with
  | none => rwa [hcode] at h
  | some removed =>
    rw [hcode] at h
    dsimp only at h
    cases hg : gTorrents removed with
    | none => rwa [hg] at h
    | some mode =>
      rw [hg] at h
      dsimp only at h
      rcases eq_or_ne hash removed with rfl | hne
      · rw [Function.update_self] at h
        cases h
      · rwa [Function.update_of_ne hne] at h

theorem OneStream.removeTorrent (h : OneStream new s) (hashCode : JString) (ok : Bool) :
    OneStream new (s.removeTorrent hashCode ok) :=
  h.mono (removeTorrent_currentStream s hashCode ok) fun _ _ hg => removeNative_sub hg

theorem OneStream.removeOldest {num : ℕ} {oks : ℕ → Bool} (h : OneStream new s) :
    OneStream new (s.removeOldest num oks) := by
  induction num generalizing s oks with
  | zero => exact h
  | succ num ih =>
    unfold System.removeOldest
    cases s.manager.hashCodes with
    | nil => exact h
    | cons hashCode hashCodes => exact ih (h.removeTorrent hashCode (oks 0))

theorem OneStream.prepare {oks : ℕ → Bool} (h : OneStream new s) :
    OneStream new (s.prepare maxNumTorrent oks) := by
  unfold System.prepare
  dsimp only
  split_ifs
  · exact h.removeOldest
  · exact h

/-- A native add leaves at most its own torrent outside upload mode. -/
theorem OneStream.addNative (h : OneStream ∅ s) {m : TorrentManager.State B}
    (hm : m.currentStream = s.manager.currentStream) {gTorrents : Torrents} {hash : Sha1Hash}
    (hother : ∀ hash' ≠ hash, gTorrents hash' = s.gTorrents hash') :
    OneStream {hash} ⟨m, gTorrents⟩ := by
  constructor
  · intro k hk
    exact h.current k (hm ▸ hk)
  · intro hash' hne uploadMode hg hcurrent
    refine h.others hash' (Set.notMem_empty _) uploadMode ?_ (hm ▸ hcurrent)
    rwa [← hother hash' hne]

/-- An add of a torrent that the native layer has, and that may be new. -/
theorem OneStream.addHashCode {hash : Sha1Hash} (h : OneStream {hash} s)
    (hsome : (s.gTorrents hash).isSome) (kind : Bool)
    {store : TorrentManager.State B → TorrentManager.State B}
    (hstore : ∀ m, (store m).currentStream = m.currentStream) {o : Outcomes} (ho : o.Ok) :
    OneStream ∅ (s.addHashCode maxNumTorrent (toHex hash) kind store o) := by
  have h' := h.initStream hsome ho.initStream
  unfold System.addHashCode
  rw [getMediaResource_ok _ _ ho]
  generalize s.initStream (toHex hash) o.initStream = s at h' ⊢
  have hstored : OneStream ∅ ⟨store { s.manager with
      torrents := s.manager.torrents.insert (toHex hash) kind }, s.gTorrents⟩ := by
    refine h'.mono ?_ fun _ _ hg => hg
    rw [hstore]
  dsimp only
  cases s.manager.torrents.lookup (toHex hash) with
  | none => exact hstored.prepare
  | some existFile =>
    dsimp only
    split_ifs
    · exact hstored
    · exact h'.mono rfl fun _ _ hg => hg

theorem OneStream.addTorrent (h : OneStream ∅ s) (kind : Bool) (c : B)
    {store : JString → TorrentManager.State B → TorrentManager.State B}
    (hstore : ∀ hashCode m, (store hashCode m).currentStream = m.currentStream) {o : Outcomes}
    (ho : o.Ok) : OneStream ∅ (s.addTorrent P maxNumTorrent kind c store o) := by
  unfold System.addTorrent
  dsimp only
  cases hadd : (NativeSession.addNative P s.gTorrents kind c false o.added).2 with
  | none => rw [addNative_eq_none hadd]; exact h
  | some hashCode =>
    obtain ⟨hash, rfl, hsome, hother⟩ := addNative_eq_some hadd
    have hnew := h.addNative (m := s.manager) rfl hother
    exact hnew.addHashCode hsome kind (hstore _) ho

/-- A clean call whose stream is a string that the native layer hands out. -/
def CleanStream (s : System B) (a : Action B) : Prop :=
  Clean s a ∧ ∀ hashCode o, a = .initStream hashCode o → ∃ hash, hashCode = toHex hash

theorem oneStream_step {a : Action B} (h : OneStream ∅ s) (hc : CleanStream s a)
    (hs : step P maxNumTorrent s a = some s') : OneStream ∅ s' := by
  obtain ⟨hclean, hstream⟩ := hc
  cases a with
  | addTorrentFile c o =>
    cases hs
    refine h.addTorrent true c (fun hashCode m => ?_) hclean
    rfl
  | addTorrentURL c o =>
    cases hs
    have hwrite : OneStream ∅ ⟨System.write tempName c s.manager, s.gTorrents⟩ :=
      h.mono rfl fun _ _ hg => hg
    refine hwrite.addTorrent true c (fun hashCode m => ?_) hclean
    rfl
  | addTorrentURI c o =>
    cases hs
    refine h.addTorrent false c (fun hashCode m => ?_) hclean
    rfl
  | removeTorrent hashCode ok =>
    cases hs
    exact h.removeTorrent hashCode ok
  | initStream hashCode o =>
    cases hs
    obtain ⟨hash, rfl⟩ := hstream hashCode o rfl
    cases hg : s.gTorrents hash with
    | none => rwa [initStream_of_none hg]
    | some uploadMode =>
      have hnew : OneStream {hash} s := h.addNative rfl fun _ _ => rfl
      exact hnew.initStream (by rw [hg]; rfl) hclean
  | cancelStream ok =>
    cases hs
    obtain rfl : ok = true := hclean
    exact h.cancelStream

/-- The torrent is the current stream, and it is not in upload mode. -/
def System.Streams (s : System B) (hash : Sha1Hash) : Prop :=
  s.manager.currentStream = some (toHex hash) ∧ s.gTorrents hash = some false

theorem streams_initStream {hash : Sha1Hash} (hs : s.Canonical) (hsome : (s.gTorrents hash).isSome)
    {o : InitStream} (ho : o.Ok) : (s.initStream (toHex hash) o).Streams hash := by
  obtain ⟨hcurrent, hg⟩ := initStream_spec hs hsome ho
  exact ⟨hcurrent, by rw [hg, if_pos rfl]⟩

/-- **At most one torrent downloads**, after every run from a start in which all native calls run
through and the streams are strings that the native layer hands out: every tracked torrent other
than the current stream is in upload mode, and an `initStream`, by itself or in an add, makes its
torrent the current stream and takes it out of upload mode. -/
theorem oneStream_run {dir : JString → Option B} {listing hashCodes : List JString}
    {added : JString → Bool} {as : List (Action B)}
    (hc : Along (step P maxNumTorrent) CleanStream (load P dir added listing hashCodes) as)
    (hr : run (step P maxNumTorrent) (load P dir added listing hashCodes) as = some s) :
    (∀ k ∈ s.manager.torrents, s.manager.currentStream ≠ some k →
      ∃ hash, k = toHex hash ∧ s.gTorrents hash = some true) ∧
    (∀ hash o, (s.gTorrents hash).isSome → InitStream.Ok o →
      (s.initStream (toHex hash) o).Streams hash) ∧
    ∀ kind c ok hashCode (m : TorrentManager.State B) o,
      (addNative P s.gTorrents kind c false ok).2 = some hashCode →
      m.currentStream = s.manager.currentStream → InitStream.Ok o →
      ∃ hash, hashCode = toHex hash ∧
        (System.initStream ⟨m, (addNative P s.gTorrents kind c false ok).1⟩ hashCode o).Streams
          hash := by
  have hone : OneStream ∅ s := hc.keeps (I := OneStream ∅)
    (fun _ _ _ h hc hs => oneStream_step h hc hs) (oneStream_load dir added listing hashCodes) hr
  have hagree : s.Agree := hc.keeps (I := System.Agree)
    (fun _ _ _ h hc hs => agree_step h hc.1 hs) (agree_load dir added listing hashCodes) hr
  refine ⟨fun k hk hne => ?_, fun hash o hsome ho => ?_,
    fun kind c ok hashCode m o hadd hm ho => ?_⟩
  · obtain ⟨hash, rfl, hsome⟩ := (hagree k).1 hk
    obtain ⟨uploadMode, hg⟩ := Option.isSome_iff_exists.1 hsome
    have hmode := hone.others hash (Set.notMem_empty hash) uploadMode hg hne
    exact ⟨hash, rfl, by rw [hg, hmode]⟩
  · exact streams_initStream hone.current hsome ho
  · obtain ⟨hash, rfl, hsome, hother⟩ := addNative_eq_some hadd
    exact ⟨hash, rfl, streams_initStream (hone.addNative hm hother).current hsome ho⟩

/-- Two torrents are added, and after a cancelled stream the first is streamed again. -/
theorem oneStream_run_two_files :
    ∃ s, run (step plainParser 5) emptyStart [.addTorrentFile (constHash 1) allRunThrough,
        .addTorrentFile (constHash 2) allRunThrough, .cancelStream true,
        .initStream (toHex (constHash 1)) ⟨true, true, true⟩] = some s ∧
      ∀ k ∈ s.manager.torrents, s.manager.currentStream ≠ some k →
        ∃ hash, k = toHex hash ∧ s.gTorrents hash = some true := by
  have hc : Along (step plainParser 5) CleanStream emptyStart
      [.addTorrentFile (constHash 1) allRunThrough, .addTorrentFile (constHash 2) allRunThrough,
        .cancelStream true, .initStream (toHex (constHash 1)) ⟨true, true, true⟩] := by
    refine along_cons ⟨ok_allRunThrough, fun _ _ h => by cases h⟩ rfl
      (along_cons ⟨ok_allRunThrough, fun _ _ h => by cases h⟩ rfl
        (along_cons ⟨rfl, fun _ _ h => by cases h⟩ rfl
          (along_cons ⟨⟨rfl, rfl, rfl⟩, fun _ _ h => ?_⟩ rfl trivial)))
    cases h
    exact ⟨constHash 1, rfl⟩
  exact ⟨_, rfl, (oneStream_run hc rfl).1⟩

end OneStream

end P2Player.NativeSession
