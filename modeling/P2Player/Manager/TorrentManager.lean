import Mathlib.Data.List.AList
import P2Player.Lib.Transition
import P2Player.Native.Sha1Hash

/-!
# The torrent manager and its directory

`TorrentManager` keeps the tracked torrents in a `LinkedHashMap` in access order, with a flag that
says whether a torrent was added by a torrent file or by a magnet link, and a copy of the file or
link in `torrentsDir`, named by the torrent's hash and an extension for the flag.

* `State`: the map, the directory and the current stream;
* `addTorrentFile`, `addTorrentURL`, `addTorrentURI`, `removeTorrent`, `prepare`: the operations,
  with the native layer's answers as arguments;
* `SameKind`: no tracked torrent is added again by the other kind of source;
* `Sync`: the files with the two extensions are those that the map's flags call for;
* `sync_run`: this holds after every history of operations that meet `SameKind`.
-/

namespace P2Player.TorrentManager

open Java Native Transition

/-- What the native layer reads in a file: the info hash of a torrent file, and the one in the
text of a magnet link. -/
structure Parser (B : Type*) where
  torrentHash : B → Option Sha1Hash
  magnetHash : B → Option Sha1Hash

/-- The hash in a file of the given kind, `TORRENT_FILE` or `MAGNET_FILE`. -/
def Parser.hash {B : Type*} (P : Parser B) (kind : Bool) (c : B) : Option Sha1Hash :=
  if kind then P.torrentHash c else P.magnetHash c

/-- `TORRENT_FILE_EXTENSION` and `MAGNET_FILE_EXTENSION`. -/
def extension : Bool → JString
  | true => ['.', 't', 'o', 'r']
  | false => ['.', 'm', 'a', 'g']

/-- The name of the file of a torrent. -/
def fileName (hashCode : JString) (kind : Bool) : JString := hashCode ++ extension kind

/-- `".temp"`. -/
def tempName : JString := ['.', 't', 'e', 'm', 'p']

/-- The manager.  `torrents` has the most recently used torrent first, so that the iteration order
of the `LinkedHashMap` is the reverse of its keys; `dir` has the contents of the files of
`torrentsDir`. -/
structure State (B : Type*) where
  torrents : AList fun _ : JString => Bool
  dir : JString → Option B
  currentStream : Option JString

/-- How a native `removeTorrent` ends. -/
inductive Removal
  | removed
  | notRemoved
  | thrown
  deriving DecidableEq

/-- The native layer's answers during an add: whether the torrent was added, whether `initStream`
ran through, and how the successive removals of the cache policy ended. -/
structure Answers where
  added : Bool
  initStream : Bool
  removals : ℕ → Removal

section Operations

variable {B : Type*} (P : Parser B) (maxNumTorrent : ℤ)

/-- `hashCodes` in the iteration order of the map, the least recently used first. -/
def State.hashCodes (s : State B) : List JString := s.torrents.keys.reverse

/-- `initStream`: the stream changes unless a native call throws. -/
def State.initStream (s : State B) (hashCode : JString) (ok : Bool) : State B :=
  if ok then { s with currentStream := some hashCode } else s

/-- `TorrentManager.removeTorrent`. -/
def State.removeTorrent (s : State B) (hashCode : JString) : Removal → State B
  | .removed =>
    match s.torrents.lookup hashCode with
    | none => s
    | some existFile =>
      { s with
        torrents := s.torrents.erase hashCode
        dir := Function.update s.dir (fileName hashCode existFile) none }
  | .notRemoved => s
  | .thrown => s

/-- `NumberCachePolicy.removeOldest`; `iterator().next()` throws on an empty map. -/
def State.removeOldest (s : State B) : ℕ → (ℕ → Removal) → State B
  | 0, _ => s
  | num + 1, removals =>
    match s.hashCodes with
    | [] => s
    | hashCode :: _ =>
      (s.removeTorrent hashCode (removals 0)).removeOldest num fun i => removals (i + 1)

/-- `NumberCachePolicy.prepare`. -/
def State.prepare (s : State B) (removals : ℕ → Removal) : State B :=
  let size : ℤ := s.torrents.keys.length
  if maxNumTorrent < size then s.removeOldest (size - maxNumTorrent).toNat removals else s

/-- The native add of a file or link: the hash's string, or null. -/
def nativeAdd (kind : Bool) (c : B) (added : Bool) : Option JString :=
  if added then (P.hash kind c).map toHex else none

/-- `addTorrent(File)`. -/
def State.addTorrentFile (s : State B) (c : B) (answers : Answers) : State B :=
  match nativeAdd P true c answers.added with
  | none => s
  | some hashCode =>
    let s := s.initStream hashCode answers.initStream
    let existFile := s.torrents.lookup hashCode
    let s := { s with torrents := s.torrents.insert hashCode true }
    match existFile with
    | none =>
      { s with dir := Function.update s.dir (fileName hashCode true) (some c) }.prepare
        maxNumTorrent answers.removals
    | some false => { s with dir := Function.update s.dir (fileName hashCode true) (some c) }
    | some true => s

/-- `renameTo` of the temporary file. -/
def State.renameTemp (s : State B) (name : JString) : State B :=
  { s with dir := Function.update (Function.update s.dir name (s.dir tempName)) tempName none }

/-- `addTorrent(URL)`. -/
def State.addTorrentURL (s : State B) (c : B) (answers : Answers) : State B :=
  let s := { s with dir := Function.update s.dir tempName (some c) }
  match nativeAdd P true c answers.added with
  | none => s
  | some hashCode =>
    let s := s.initStream hashCode answers.initStream
    let existFile := s.torrents.lookup hashCode
    let s := { s with torrents := s.torrents.insert hashCode true }
    match existFile with
    | none => (s.renameTemp (fileName hashCode true)).prepare maxNumTorrent answers.removals
    | some false => s.renameTemp (fileName hashCode true)
    | some true => s

/-- `addTorrent(URI)`. -/
def State.addTorrentURI (s : State B) (c : B) (answers : Answers) : State B :=
  match nativeAdd P false c answers.added with
  | none => s
  | some hashCode =>
    let s := s.initStream hashCode answers.initStream
    let existFile := s.torrents.lookup hashCode
    let s := { s with torrents := s.torrents.insert hashCode false }
    match existFile with
    | none =>
      { s with dir := Function.update s.dir (fileName hashCode false) (some c) }.prepare
        maxNumTorrent answers.removals
    | some _ => s

/-- The calls of the manager. -/
inductive Action (B : Type*)
  | addTorrentFile (c : B) (answers : Answers)
  | addTorrentURL (c : B) (answers : Answers)
  | addTorrentURI (c : B) (answers : Answers)
  | removeTorrent (hashCode : JString) (answer : Removal)

/-- One call; every call is possible in every state. -/
def step (s : State B) : Action B → Option (State B)
  | .addTorrentFile c answers => some (s.addTorrentFile P maxNumTorrent c answers)
  | .addTorrentURL c answers => some (s.addTorrentURL P maxNumTorrent c answers)
  | .addTorrentURI c answers => some (s.addTorrentURI P maxNumTorrent c answers)
  | .removeTorrent hashCode answer => some (s.removeTorrent hashCode answer)

end Operations

/-- No torrents and an empty directory. -/
def init {B : Type*} : State B := ⟨∅, fun _ => none, none⟩

/-- A torrent that is tracked is not added again by the other kind of source. -/
def SameKind {B : Type*} (P : Parser B) (s : State B) : Action B → Prop
  | .addTorrentFile c _ => ∀ h, P.torrentHash c = some h → s.torrents.lookup (toHex h) ≠ some false
  | .addTorrentURL c _ => ∀ h, P.torrentHash c = some h → s.torrents.lookup (toHex h) ≠ some false
  | .addTorrentURI c _ => ∀ h, P.magnetHash c = some h → s.torrents.lookup (toHex h) ≠ some true
  | .removeTorrent _ _ => True

/-! ### File names -/

theorem fileName_inj {k k' : JString} {kind kind' : Bool}
    (h : fileName k kind = fileName k' kind') : k = k' ∧ kind = kind' := by
  have hlen : (extension kind).length = (extension kind').length := by
    cases kind <;> cases kind' <;> rfl
  obtain ⟨rfl, hext⟩ := List.append_inj' h hlen
  refine ⟨rfl, ?_⟩
  cases kind <;> cases kind' <;> first | rfl | exact absurd hext (by decide)

theorem fileName_ne_tempName (k : JString) (kind : Bool) : fileName k kind ≠ tempName := by
  intro h
  have hlast := congrArg List.getLast? h
  cases kind <;> simp [fileName, extension, tempName] at hlast

/-! ### The directory agrees with the map -/

/-- Every torrent or magnet file belongs to a tracked torrent that is flagged for it and has the
hash in its name, and every tracked torrent has the file that its flag calls for. -/
structure Sync {B : Type*} (P : Parser B) (s : State B) : Prop where
  file : ∀ k kind c, s.dir (fileName k kind) = some c →
    s.torrents.lookup k = some kind ∧ ∃ h, k = toHex h ∧ P.hash kind c = some h
  entry : ∀ k kind, s.torrents.lookup k = some kind → ∃ c, s.dir (fileName k kind) = some c

section Sync

variable {B : Type*} {P : Parser B} {maxNumTorrent : ℤ} {s s' : State B}

theorem sync_init : Sync P (init : State B) := by
  constructor
  · intro k kind c h
    simp [init] at h
  · intro k kind h
    simp [init] at h

/-- Only the lookups and the files with the two extensions matter. -/
theorem Sync.congr (hs : Sync P s) (hlook : ∀ k, s'.torrents.lookup k = s.torrents.lookup k)
    (hdir : ∀ k kind, s'.dir (fileName k kind) = s.dir (fileName k kind)) : Sync P s' := by
  constructor
  · intro k kind c h
    rw [hlook]
    exact hs.file k kind c (hdir k kind ▸ h)
  · intro k kind h
    rw [hdir]
    exact hs.entry k kind (hlook k ▸ h)

/-- A tracked torrent that is put with the flag it has keeps all lookups. -/
theorem lookup_insert_same {k : JString} {kind : Bool} (h : s.torrents.lookup k = some kind)
    (k' : JString) : (s.torrents.insert k kind).lookup k' = s.torrents.lookup k' := by
  by_cases hk : k' = k
  · subst hk; rw [AList.lookup_insert, h]
  · rw [AList.lookup_insert_ne hk]

/-- A torrent that is not tracked is put together with its file. -/
theorem Sync.insert (hs : Sync P s) {h : Sha1Hash} {kind : Bool} {c : B}
    (hnew : s.torrents.lookup (toHex h) = none) (hc : P.hash kind c = some h)
    (hlook : s'.torrents = s.torrents.insert (toHex h) kind)
    (hself : s'.dir (fileName (toHex h) kind) = some c)
    (hother : ∀ k kind', fileName k kind' ≠ fileName (toHex h) kind →
      s'.dir (fileName k kind') = s.dir (fileName k kind')) : Sync P s' := by
  constructor
  · intro k kind' c' hfile
    rw [hlook]
    by_cases hname : fileName k kind' = fileName (toHex h) kind
    · obtain ⟨rfl, rfl⟩ := fileName_inj hname
      rw [hself] at hfile
      cases hfile
      exact ⟨AList.lookup_insert _, h, rfl, hc⟩
    · rw [hother k kind' hname] at hfile
      obtain ⟨hk, hash⟩ := hs.file k kind' c' hfile
      have hne : k ≠ toHex h := by rintro rfl; rw [hnew] at hk; cases hk
      exact ⟨by rw [AList.lookup_insert_ne hne]; exact hk, hash⟩
  · intro k kind' hk
    rw [hlook] at hk
    by_cases hkh : k = toHex h
    · subst hkh
      rw [AList.lookup_insert, Option.some.injEq] at hk
      subst hk
      exact ⟨c, hself⟩
    · rw [AList.lookup_insert_ne hkh] at hk
      rw [hother k kind' fun hname => hkh (fileName_inj hname).1]
      exact hs.entry k kind' hk

/-- Removing a string that is no key of the map changes nothing. -/
theorem removeTorrent_of_none {k : JString} (h : s.torrents.lookup k = none) :
    s.removeTorrent k .removed = s := by
  simp only [State.removeTorrent, h]

theorem removeTorrent_of_some {k : JString} {existFile : Bool}
    (h : s.torrents.lookup k = some existFile) :
    s.removeTorrent k .removed =
      { s with
        torrents := s.torrents.erase k
        dir := Function.update s.dir (fileName k existFile) none } := by
  simp only [State.removeTorrent, h]

theorem Sync.removeTorrent (hs : Sync P s) (hashCode : JString) (r : Removal) :
    Sync P (s.removeTorrent hashCode r) := by
  cases r with
  | notRemoved => exact hs
  | thrown => exact hs
  | removed =>
    cases hlook : s.torrents.lookup hashCode with
    | none => rwa [removeTorrent_of_none hlook]
    | some existFile =>
      rw [removeTorrent_of_some hlook]
      constructor
      · intro k kind c hfile
        by_cases hname : fileName k kind = fileName hashCode existFile
        · simp [hname] at hfile
        · simp only [Function.update_of_ne hname] at hfile
          obtain ⟨hk, hash⟩ := hs.file k kind c hfile
          -- the removed torrent has no file of the other kind
          have hne : k ≠ hashCode := by
            rintro rfl
            rw [hlook, Option.some.injEq] at hk
            exact hname (by rw [hk])
          exact ⟨by rw [AList.lookup_erase_ne hne]; exact hk, hash⟩
      · intro k kind hk
        by_cases hkh : k = hashCode
        · subst hkh; simp at hk
        · rw [AList.lookup_erase_ne hkh] at hk
          obtain ⟨c, hc⟩ := hs.entry k kind hk
          refine ⟨c, ?_⟩
          show Function.update s.dir _ none (fileName k kind) = some c
          rw [Function.update_of_ne fun hname => hkh (fileName_inj hname).1, hc]

theorem Sync.removeOldest (hs : Sync P s) (num : ℕ) (removals : ℕ → Removal) :
    Sync P (s.removeOldest num removals) := by
  induction num generalizing s removals with
  | zero => exact hs
  | succ num ih =>
    unfold State.removeOldest
    split
    · exact hs
    · apply ih
      exact hs.removeTorrent _ _

theorem Sync.prepare (hs : Sync P s) (removals : ℕ → Removal) :
    Sync P (s.prepare maxNumTorrent removals) := by
  unfold State.prepare
  dsimp only
  split
  · exact hs.removeOldest _ _
  · exact hs

theorem nativeAdd_eq_some {kind added : Bool} {c : B} {k : JString}
    (h : nativeAdd P kind c added = some k) : ∃ h, k = toHex h ∧ P.hash kind c = some h := by
  unfold nativeAdd at h
  split at h
  · obtain ⟨hash, hc, rfl⟩ := Option.map_eq_some_iff.1 h
    exact ⟨hash, rfl, hc⟩
  · cases h

@[simp] theorem initStream_torrents (s : State B) (k : JString) (ok : Bool) :
    (s.initStream k ok).torrents = s.torrents := by
  unfold State.initStream; split <;> rfl

@[simp] theorem initStream_dir (s : State B) (k : JString) (ok : Bool) :
    (s.initStream k ok).dir = s.dir := by
  unfold State.initStream; split <;> rfl

/-- Files other than torrent and magnet files do not matter. -/
theorem Sync.update_temp (hs : Sync P s) (c : Option B) :
    Sync P { s with dir := Function.update s.dir tempName c } :=
  hs.congr (fun _ => rfl) fun k kind => Function.update_of_ne (fileName_ne_tempName k kind) ..

theorem Sync.addTorrentFile (hs : Sync P s) {c : B} {answers : Answers}
    (hc : SameKind P s (.addTorrentFile c answers)) :
    Sync P (s.addTorrentFile P maxNumTorrent c answers) := by
  unfold State.addTorrentFile
  cases hadd : nativeAdd P true c answers.added with
  | none => exact hs
  | some k =>
    obtain ⟨h, rfl, hash⟩ := nativeAdd_eq_some hadd
    simp only [initStream_torrents, initStream_dir]
    split
    · rename_i hnew
      apply Sync.prepare
      refine hs.insert hnew hash (by simp) (Function.update_self ..) fun k kind' hname => ?_
      exact Function.update_of_ne hname ..
    · rename_i hold
      exact absurd hold (hc h hash)
    · rename_i hold
      exact hs.congr (fun k => by simpa using lookup_insert_same hold k) fun k kind => by simp

theorem Sync.addTorrentURL (hs : Sync P s) {c : B} {answers : Answers}
    (hc : SameKind P s (.addTorrentURL c answers)) :
    Sync P (s.addTorrentURL P maxNumTorrent c answers) := by
  have htemp := hs.update_temp (some c)
  unfold State.addTorrentURL
  cases hadd : nativeAdd P true c answers.added with
  | none => exact htemp
  | some k =>
    obtain ⟨h, rfl, hash⟩ := nativeAdd_eq_some hadd
    simp only [initStream_torrents, initStream_dir]
    split
    · rename_i hnew
      apply Sync.prepare
      refine htemp.insert hnew hash (by simp [State.renameTemp]) ?_ fun k kind' hname => ?_
      · simp [State.renameTemp, Function.update_of_ne (fileName_ne_tempName _ _)]
      · simp [State.renameTemp, Function.update_of_ne (fileName_ne_tempName _ _),
          Function.update_of_ne hname]
    · rename_i hold
      exact absurd hold (hc h hash)
    · rename_i hold
      exact htemp.congr (fun k => by simpa using lookup_insert_same hold k) fun k kind => by simp

theorem Sync.addTorrentURI (hs : Sync P s) {c : B} {answers : Answers}
    (hc : SameKind P s (.addTorrentURI c answers)) :
    Sync P (s.addTorrentURI P maxNumTorrent c answers) := by
  unfold State.addTorrentURI
  cases hadd : nativeAdd P false c answers.added with
  | none => exact hs
  | some k =>
    obtain ⟨h, rfl, hash⟩ := nativeAdd_eq_some hadd
    simp only [initStream_torrents, initStream_dir]
    split
    · rename_i hnew
      apply Sync.prepare
      refine hs.insert hnew hash (by simp) (Function.update_self ..) fun k kind' hname => ?_
      exact Function.update_of_ne hname ..
    · rename_i kind hold
      have hkind : kind = false := by
        cases kind with
        | true => exact absurd hold (hc h hash)
        | false => rfl
      subst hkind
      exact hs.congr (fun k => by simpa using lookup_insert_same hold k) fun k kind => by simp

/-- **Step lemma.** Calls that meet `SameKind` keep the directory in step with the map. -/
theorem sync_step (s : State B) (a : Action B) (s' : State B) (hs : Sync P s)
    (hc : SameKind P s a) (hstep : step P maxNumTorrent s a = some s') : Sync P s' := by
  cases a with
  | addTorrentFile c answers => cases hstep; exact hs.addTorrentFile hc
  | addTorrentURL c answers => cases hstep; exact hs.addTorrentURL hc
  | addTorrentURI c answers => cases hstep; exact hs.addTorrentURI hc
  | removeTorrent hashCode answer => cases hstep; exact hs.removeTorrent hashCode answer

/-- The directory is in step with the map after every history that meets `SameKind`. -/
theorem sync_run {as : List (Action B)}
    (hc : Along (step P maxNumTorrent) (SameKind P) init as)
    (hr : run (step P maxNumTorrent) init as = some s) : Sync P s :=
  hc.keeps sync_step sync_init hr

/-- The keys of the map are the strings of info hashes. -/
theorem Sync.exists_hash (hs : Sync P s) {k : JString} (hk : k ∈ s.hashCodes) :
    ∃ h, k = toHex h := by
  have hmem : k ∈ s.torrents := AList.mem_keys.2 (List.mem_reverse.1 hk)
  obtain ⟨kind, hlook⟩ := Option.isSome_iff_exists.1 (AList.lookup_isSome.2 hmem)
  obtain ⟨c, hc⟩ := hs.entry k kind hlook
  obtain ⟨-, h, hk, -⟩ := hs.file k kind c hc
  exact ⟨h, hk⟩

end Sync

end P2Player.TorrentManager
