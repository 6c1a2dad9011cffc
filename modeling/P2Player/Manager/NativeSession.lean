import P2Player.Manager.Restart

/-!
# The manager above the native session

`TorrentManager` tracks the torrents by the strings that the native layer hands out, the native
layer by the info hashes that it reads from the strings it is given.  A native function on one
torrent that throws inside erases the torrent's entry and returns to Java without an exception.

* `System`: the manager with the upload modes of the torrents in `gTorrents`;
* `onTorrent`, `addNative`, `removeNative`: the native functions that the manager calls;
* `load`, `System.addTorrentFile` and so on, `step`: the manager's start and its operations on both
  sides;
* `load_manager`, `step_refines`: on the manager's side they are those of the manager with some
  answers;
* `load_induction`: what each file of the start keeps holds after the start;
* `Coupled`, `sameTorrents_run`: the two sides track the same torrents as long as no native function
  throws inside and torrents are removed by the strings that the native layer handed out.
-/

namespace P2Player.NativeSession

open Java Native Transition

open TorrentManager (Parser Removal nativeAdd extension fileName tempName plainParser constHash)

variable {B : Type*}

/-- The torrents of the native layer, with their upload mode. -/
abbrev Torrents := Sha1Hash → Option Bool

/-- A native function that works on the torrent of a string, and whether it returns to Java without
a `TorrentException`; `ok` tells whether it runs through on the torrent it finds. -/
def onTorrent (gTorrents : Torrents) (hashCode : JString) (ok : Bool) (f : Bool → Bool) :
    Torrents × Bool :=
  match jStringToHash hashCode with
  | none => (gTorrents, false)
  | some hash =>
    match gTorrents hash with
    | none => (gTorrents, false)
    | some uploadMode =>
      if ok then (Function.update gTorrents hash (some (f uploadMode)), true)
      -- the catch block erases the entry and tells Java nothing
      else (Function.update gTorrents hash none, true)

/-- `LibTorrent.setUploadMode`. -/
def setUploadMode (gTorrents : Torrents) (hashCode : JString) (uploadMode ok : Bool) :
    Torrents × Bool :=
  onTorrent gTorrents hashCode ok fun _ => uploadMode

/-- `LibTorrent.resumeTorrent`, `getTorrentState` and `getTorrentFiles`, which leave the upload mode
alone. -/
def query (gTorrents : Torrents) (hashCode : JString) (ok : Bool) : Torrents × Bool :=
  onTorrent gTorrents hashCode ok id

/-- `LibTorrent.addTorrent` and `addMagnetUri`, and their asynchronous variants: a torrent that is
not there yet starts in the upload mode of the flags, if it can be added. -/
def addNative (P : Parser B) (gTorrents : Torrents) (kind : Bool) (c : B)
    (uploadMode added : Bool) : Torrents × Option JString :=
  match P.hash kind c with
  | none => (gTorrents, none)
  | some hash =>
    match gTorrents hash with
    | some _ => (gTorrents, some (toHex hash))
    | none =>
      if added then (Function.update gTorrents hash (some uploadMode), some (toHex hash))
      else (gTorrents, none)

/-- `LibTorrent.removeTorrent`: the entry is erased also when the removal throws inside. -/
def removeNative (gTorrents : Torrents) (hashCode : JString) (ok : Bool) : Torrents × Removal :=
  match jStringToHash hashCode with
  | none => (gTorrents, .thrown)
  | some hash =>
    match gTorrents hash with
    | none => (gTorrents, .thrown)
    | some _ => (Function.update gTorrents hash none, if ok then .removed else .notRemoved)

/-- The manager and the native layer. -/
structure System (B : Type*) where
  manager : TorrentManager.State B
  gTorrents : Torrents

/-- Whether the native calls of `initStream` run through: those of the new stream and the one of the
old stream. -/
structure InitStream where
  setUploadMode : Bool
  resumeTorrent : Bool
  cancelStream : Bool

/-- How the native calls of an add end.  `getTorrentState` is the state, or `none` when the call
throws inside. -/
structure Outcomes where
  added : Bool
  initStream : InitStream
  removals : ℕ → Bool
  getTorrentState : Option ℤ
  getTorrentFiles : Bool

namespace System

/-- `cancelStream`, apart from the sessions of the server. -/
def cancelStream (s : System B) (ok : Bool) : System B :=
  match s.manager.currentStream with
  | none => s
  | some currentStream =>
    { s with gTorrents := (setUploadMode s.gTorrents currentStream true ok).1 }

/-- `initStream`. -/
def initStream (s : System B) (hashCode : JString) (o : InitStream) : System B :=
  let mode := setUploadMode s.gTorrents hashCode false o.setUploadMode
  let resumed := query mode.1 hashCode o.resumeTorrent
  if mode.2 then
    if resumed.2 then
      -- the new torrent is switched on before the old one is switched off
      let s := { s with gTorrents := resumed.1 }
      match s.manager.currentStream with
      | none => { s with manager := { s.manager with currentStream := some hashCode } }
      | some currentStream =>
        if hashCode ≠ currentStream then
          let s := s.cancelStream o.cancelStream
          { s with manager := { s.manager with currentStream := some hashCode } }
        else s
    else { s with gTorrents := resumed.1 }
  else { s with gTorrents := mode.1 }

/-- `removeTorrent`. -/
def removeTorrent (s : System B) (hashCode : JString) (ok : Bool) : System B :=
  let removed := removeNative s.gTorrents hashCode ok
  ⟨s.manager.removeTorrent hashCode removed.2, removed.1⟩

/-- `NumberCachePolicy.removeOldest`. -/
def removeOldest (s : System B) : ℕ → (ℕ → Bool) → System B
  | 0, _ => s
  | num + 1, oks =>
    match s.manager.hashCodes with
    -- `iterator().next()` throws
    | [] => s
    | hashCode :: _ => (s.removeTorrent hashCode (oks 0)).removeOldest num fun i => oks (i + 1)

/-- `NumberCachePolicy.prepare`. -/
def prepare (s : System B) (maxNumTorrent : ℤ) (oks : ℕ → Bool) : System B :=
  let size : ℤ := s.manager.torrents.keys.length
  if maxNumTorrent < size then s.removeOldest (size - maxNumTorrent).toNat oks else s

/-- The native calls of `getMediaResource`, which asks for the files of a torrent that is finished
or seeding. -/
def getMediaResource (s : System B) (hashCode : JString) (o : Outcomes) : System B :=
  let state := query s.gTorrents hashCode o.getTorrentState.isSome
  let files := query state.1 hashCode o.getTorrentFiles
  if state.2 ∧ (o.getTorrentState = some 4 ∨ o.getTorrentState = some 5) then
    { s with gTorrents := files.1 }
  else { s with gTorrents := state.1 }

/-- What the adds do with the string that the native add has returned.  `store` saves the torrent
file or the link: that of a new torrent, and the file of one that was added by a link. -/
def addHashCode (s : System B) (maxNumTorrent : ℤ) (hashCode : JString) (kind : Bool)
    (store : TorrentManager.State B → TorrentManager.State B) (o : Outcomes) : System B :=
  let s := s.initStream hashCode o.initStream
  let existFile := s.manager.torrents.lookup hashCode
  let manager := { s.manager with torrents := s.manager.torrents.insert hashCode kind }
  let s :=
    match existFile with
    | none => { s with manager := store manager }.prepare maxNumTorrent o.removals
    | some existFile =>
      if kind = true ∧ existFile = false then { s with manager := store manager }
      else { s with manager := manager }
  s.getMediaResource hashCode o

/-- A file of the directory is written. -/
def write (name : JString) (c : B) (m : TorrentManager.State B) : TorrentManager.State B :=
  { m with dir := Function.update m.dir name (some c) }

variable (P : Parser B) (maxNumTorrent : ℤ)

/-- The three variants of `addTorrent`, which differ in the kind of source and in how it is
saved. -/
def addTorrent (s : System B) (kind : Bool) (c : B)
    (store : JString → TorrentManager.State B → TorrentManager.State B) (o : Outcomes) :
    System B :=
  let added := addNative P s.gTorrents kind c false o.added
  let s := { s with gTorrents := added.1 }
  match added.2 with
  | none => s
  | some hashCode => s.addHashCode maxNumTorrent hashCode kind (store hashCode) o

/-- `addTorrent(File)`. -/
def addTorrentFile (s : System B) (c : B) (o : Outcomes) : System B :=
  s.addTorrent P maxNumTorrent true c (fun hashCode => write (fileName hashCode true) c) o

/-- `addTorrent(URL)`. -/
def addTorrentURL (s : System B) (c : B) (o : Outcomes) : System B :=
  { s with manager := write tempName c s.manager }.addTorrent P maxNumTorrent true c
    (fun hashCode m => m.renameTemp (fileName hashCode true)) o

/-- `addTorrent(URI)`. -/
def addTorrentURI (s : System B) (c : B) (o : Outcomes) : System B :=
  s.addTorrent P maxNumTorrent false c (fun hashCode => write (fileName hashCode false) c) o

end System

/-- The calls of the manager. -/
inductive Action (B : Type*)
  | addTorrentFile (c : B) (o : Outcomes)
  | addTorrentURL (c : B) (o : Outcomes)
  | addTorrentURI (c : B) (o : Outcomes)
  | removeTorrent (hashCode : JString) (ok : Bool)
  | initStream (hashCode : JString) (o : InitStream)
  | cancelStream (ok : Bool)

/-- One call; every call is possible in every state. -/
def step (P : Parser B) (maxNumTorrent : ℤ) (s : System B) : Action B → Option (System B)
  | .addTorrentFile c o => some (s.addTorrentFile P maxNumTorrent c o)
  | .addTorrentURL c o => some (s.addTorrentURL P maxNumTorrent c o)
  | .addTorrentURI c o => some (s.addTorrentURI P maxNumTorrent c o)
  | .removeTorrent hashCode ok => some (s.removeTorrent hashCode ok)
  | .initStream hashCode o => some (s.initStream hashCode o)
  | .cancelStream ok => some (s.cancelStream ok)

section Load

variable (P : Parser B) (dir : JString → Option B) (added : JString → Bool)

/-- A file is handed to the native layer with `FLAG_UPLOAD_MODE` and, if it was added, put into the
map. -/
def System.putLoaded (s : System B) (kind : Bool) (c : B) (ok : Bool) : System B :=
  let added := addNative P s.gTorrents kind c true ok
  match added.2 with
  | none => { s with gTorrents := added.1 }
  | some hashCode =>
    ⟨{ s.manager with torrents := s.manager.torrents.insert hashCode kind }, added.1⟩

/-- The loop over the saved list.  `torrentFiles` are the files not visited yet. -/
def System.loadSaved : List JString → System B → List JString → System B × List JString
  | [], s, torrentFiles => (s, torrentFiles)
  | hashCode :: hashCodes, s, torrentFiles =>
    let torrent := fileName hashCode true
    match dir torrent with
    | some c =>
      loadSaved hashCodes (s.putLoaded P true c (added torrent)) (torrentFiles.erase torrent)
    | none =>
      let torrent := fileName hashCode false
      match dir torrent with
      | some c =>
        loadSaved hashCodes (s.putLoaded P false c (added torrent)) (torrentFiles.erase torrent)
      | none => loadSaved hashCodes s torrentFiles

/-- The loop over the files that are left over. -/
def System.loadOthers : List JString → System B → System B
  | [], s => s
  | other :: others, s =>
    match dir other with
    | none => loadOthers others s
    | some c =>
      if extension true <:+ other then loadOthers others (s.putLoaded P true c (added other))
      else if extension false <:+ other then loadOthers others (s.putLoaded P false c (added other))
      else loadOthers others s

/-- `loadAsyncExistTorrents`, on both sides. -/
def load (listing hashCodes : List JString) : System B :=
  let (s, torrentFiles) := System.loadSaved P dir added hashCodes ⟨⟨∅, dir, none⟩, fun _ => none⟩
    listing
  s.loadOthers P dir added torrentFiles

end Load

/-! ### The manager's side -/

section Refinement

variable {P : Parser B} {maxNumTorrent : ℤ}

@[simp] theorem cancelStream_manager (s : System B) (ok : Bool) :
    (s.cancelStream ok).manager = s.manager := by
  unfold System.cancelStream
  cases s.manager.currentStream <;> rfl

@[simp] theorem getMediaResource_manager (s : System B) (hashCode : JString) (o : Outcomes) :
    (s.getMediaResource hashCode o).manager = s.manager := by
  unfold System.getMediaResource
  dsimp only
  split_ifs <;> rfl

/-- The stream is switched when the two native calls return. -/
theorem initStream_manager (s : System B) (hashCode : JString) (o : InitStream) :
    ∃ ok, (s.initStream hashCode o).manager = s.manager.initStream hashCode ok := by
  unfold System.initStream
  dsimp only
  split_ifs
  · refine ⟨true, ?_⟩
    cases hcurrent : s.manager.currentStream with
    | none => rfl
    | some currentStream =>
      dsimp only
      split_ifs with hne
      · rw [cancelStream_manager]
        rfl
      · rw [TorrentManager.State.initStream, if_pos rfl, not_not.1 hne, ← hcurrent]
  · exact ⟨false, rfl⟩
  · exact ⟨false, rfl⟩

theorem removeOldest_manager (num : ℕ) (s : System B) (oks : ℕ → Bool) :
    ∃ removals, (s.removeOldest num oks).manager = s.manager.removeOldest num removals := by
  induction num generalizing s oks with
  | zero => exact ⟨fun _ => .thrown, rfl⟩
  | succ num ih =>
    unfold System.removeOldest TorrentManager.State.removeOldest
    cases s.manager.hashCodes with
    | nil => exact ⟨fun _ => .thrown, rfl⟩
    | cons hashCode hashCodes =>
      obtain ⟨removals, h⟩ := ih (s.removeTorrent hashCode (oks 0)) fun i => oks (i + 1)
      exact ⟨@Nat.rec (fun _ => Removal) (removeNative s.gTorrents hashCode (oks 0)).2
        fun i _ => removals i, h⟩

theorem prepare_manager (s : System B) (oks : ℕ → Bool) :
    ∃ removals, (s.prepare maxNumTorrent oks).manager =
      s.manager.prepare maxNumTorrent removals := by
  unfold System.prepare TorrentManager.State.prepare
  dsimp only
  split_ifs
  · exact removeOldest_manager _ s oks
  · exact ⟨fun _ => .thrown, rfl⟩

theorem addNative_snd (gTorrents : Torrents) (kind : Bool) (c : B) (uploadMode added : Bool) :
    ∃ ok, (addNative P gTorrents kind c uploadMode added).2 = nativeAdd P kind c ok := by
  unfold addNative nativeAdd
  cases P.hash kind c with
  | none => exact ⟨added, by split_ifs <;> rfl⟩
  | some hash =>
    dsimp only
    cases gTorrents hash with
    | some mode => exact ⟨true, rfl⟩
    | none => exact ⟨added, by split_ifs <;> rfl⟩

/-- What the adds do with the string of the native add, on the manager's side. -/
theorem addHashCode_manager (maxNumTorrent : ℤ) (s : System B) (hashCode : JString) (kind : Bool)
    (store : TorrentManager.State B → TorrentManager.State B) (o : Outcomes) :
    ∃ ok removals, (s.addHashCode maxNumTorrent hashCode kind store o).manager =
      match (s.manager.initStream hashCode ok).torrents.lookup hashCode with
      | none => (store { s.manager.initStream hashCode ok with
          torrents := (s.manager.initStream hashCode ok).torrents.insert hashCode kind }).prepare
          maxNumTorrent removals
      | some existFile =>
        if kind = true ∧ existFile = false then store { s.manager.initStream hashCode ok with
          torrents := (s.manager.initStream hashCode ok).torrents.insert hashCode kind }
        else { s.manager.initStream hashCode ok with
          torrents := (s.manager.initStream hashCode ok).torrents.insert hashCode kind } := by
  obtain ⟨ok, hok⟩ := initStream_manager s hashCode o.initStream
  unfold System.addHashCode
  dsimp only
  rw [getMediaResource_manager, hok]
  refine ⟨ok, ?_⟩
  cases (s.manager.initStream hashCode ok).torrents.lookup hashCode with
  | none => exact prepare_manager _ o.removals
  | some existFile =>
    refine ⟨fun _ => .thrown, ?_⟩
    dsimp only
    split_ifs <;> rfl

/-- An add, on the manager's side, with the answers that it gets. -/
theorem addTorrent_manager (P : Parser B) (maxNumTorrent : ℤ) (s : System B) (kind : Bool) (c : B)
    (store : JString → TorrentManager.State B → TorrentManager.State B) (o : Outcomes) :
    ∃ answers : TorrentManager.Answers, (s.addTorrent P maxNumTorrent kind c store o).manager =
      match nativeAdd P kind c answers.added with
      | none => s.manager
      | some hashCode =>
        match (s.manager.initStream hashCode answers.initStream).torrents.lookup hashCode with
        | none => (store hashCode { s.manager.initStream hashCode answers.initStream with
            torrents := (s.manager.initStream hashCode answers.initStream).torrents.insert hashCode
              kind }).prepare maxNumTorrent answers.removals
        | some existFile =>
          if kind = true ∧ existFile = false then
            store hashCode { s.manager.initStream hashCode answers.initStream with
              torrents := (s.manager.initStream hashCode answers.initStream).torrents.insert
                hashCode kind }
          else { s.manager.initStream hashCode answers.initStream with
              torrents := (s.manager.initStream hashCode answers.initStream).torrents.insert
                hashCode kind } := by
  obtain ⟨added, hadded⟩ := addNative_snd s.gTorrents kind c false o.added
  unfold System.addTorrent
  dsimp only
  rw [hadded]
  cases hadd : nativeAdd P kind c added with
  | none => exact ⟨⟨added, false, fun _ => .thrown⟩, by rw [hadd]⟩
  | some hashCode =>
    obtain ⟨ok, removals, h⟩ := addHashCode_manager maxNumTorrent
      { s with gTorrents := (addNative P s.gTorrents kind c false o.added).1 } hashCode kind
      (store hashCode) o
    refine ⟨⟨added, ok, removals⟩, ?_⟩
    rw [hadd]
    exact h

/-- On the manager's side, an add or a removal is that operation with some answers of the native
layer, and `initStream` and `cancelStream` switch the stream or do nothing. -/
theorem step_refines {s s' : System B} {a : Action B} (hs : step P maxNumTorrent s a = some s') :
    (∃ a', TorrentManager.step P maxNumTorrent s.manager a' = some s'.manager) ∨
      ∃ hashCode ok, s'.manager = s.manager.initStream hashCode ok := by
  cases a with
  | addTorrentFile c o =>
    cases hs
    obtain ⟨answers, h⟩ := addTorrent_manager P maxNumTorrent s true c
      (fun hashCode => System.write (fileName hashCode true) c) o
    refine Or.inl ⟨.addTorrentFile c answers, congrArg some (Eq.trans ?_ h.symm)⟩
    unfold TorrentManager.State.addTorrentFile
    cases nativeAdd P true c answers.added with
    | none => rfl
    | some hashCode =>
      dsimp only
      cases (s.manager.initStream hashCode answers.initStream).torrents.lookup hashCode with
      | none => rfl
      | some existFile => cases existFile <;> rfl
  | addTorrentURL c o =>
    cases hs
    obtain ⟨answers, h⟩ := addTorrent_manager P maxNumTorrent
      { s with manager := System.write tempName c s.manager } true c
      (fun hashCode m => m.renameTemp (fileName hashCode true)) o
    refine Or.inl ⟨.addTorrentURL c answers, congrArg some (Eq.trans ?_ h.symm)⟩
    unfold TorrentManager.State.addTorrentURL
    cases nativeAdd P true c answers.added with
    | none => rfl
    | some hashCode =>
      have hwrite : { s.manager with dir := Function.update s.manager.dir tempName (some c) } =
          System.write tempName c s.manager := rfl
      dsimp only
      rw [hwrite]
      cases ((System.write tempName c s.manager).initStream hashCode
          answers.initStream).torrents.lookup hashCode with
      | none => rfl
      | some existFile => cases existFile <;> rfl
  | addTorrentURI c o =>
    cases hs
    obtain ⟨answers, h⟩ := addTorrent_manager P maxNumTorrent s false c
      (fun hashCode => System.write (fileName hashCode false) c) o
    refine Or.inl ⟨.addTorrentURI c answers, congrArg some (Eq.trans ?_ h.symm)⟩
    unfold TorrentManager.State.addTorrentURI
    cases nativeAdd P false c answers.added with
    | none => rfl
    | some hashCode =>
      dsimp only
      cases (s.manager.initStream hashCode answers.initStream).torrents.lookup hashCode with
      | none => rfl
      | some existFile => rfl
  | removeTorrent hashCode ok =>
    cases hs
    exact Or.inl ⟨.removeTorrent hashCode (removeNative s.gTorrents hashCode ok).2, rfl⟩
  | initStream hashCode o =>
    cases hs
    obtain ⟨ok, h⟩ := initStream_manager s hashCode o
    exact Or.inr ⟨hashCode, ok, h⟩
  | cancelStream ok =>
    cases hs
    exact Or.inr ⟨[], false, cancelStream_manager s ok⟩

end Refinement

/-! ### The start -/

section Load

variable {P : Parser B} {dir : JString → Option B} {added : JString → Bool}

/-- What each file keeps, the loop over the saved list keeps. -/
theorem loadSaved_keeps {I : System B → Prop}
    (hput : ∀ s, I s → ∀ kind c ok, I (s.putLoaded P kind c ok)) (hashCodes : List JString)
    {s : System B} (h : I s) (torrentFiles : List JString) :
    I (System.loadSaved P dir added hashCodes s torrentFiles).1 := by
  induction hashCodes generalizing s torrentFiles with
  | nil => exact h
  | cons hashCode hashCodes ih =>
    unfold System.loadSaved
    dsimp only
    split
    · exact ih (hput s h _ _ _) _
    · split
      · exact ih (hput s h _ _ _) _
      · exact ih h _

/-- What each file keeps, the loop over the other files keeps. -/
theorem loadOthers_keeps {I : System B → Prop}
    (hput : ∀ s, I s → ∀ kind c ok, I (s.putLoaded P kind c ok)) (others : List JString)
    {s : System B} (h : I s) : I (System.loadOthers P dir added others s) := by
  induction others generalizing s with
  | nil => exact h
  | cons other others ih =>
    unfold System.loadOthers
    split
    · exact ih h
    · split_ifs
      · exact ih (hput s h _ _ _)
      · exact ih (hput s h _ _ _)
      · exact ih h

/-- What holds of an empty manager and is kept by each file holds after the start. -/
theorem load_induction (I : System B → Prop) (h0 : I ⟨⟨∅, dir, none⟩, fun _ => none⟩)
    (hput : ∀ s, I s → ∀ kind c ok, I (s.putLoaded P kind c ok))
    (listing hashCodes : List JString) : I (load P dir added listing hashCodes) :=
  loadOthers_keeps hput _ (loadSaved_keeps hput hashCodes h0 listing)

theorem putLoaded_manager (s : System B) (kind : Bool) (c : B) :
    (s.putLoaded P kind c true).manager =
      { s.manager with torrents := TorrentManager.putLoaded P kind c true s.manager.torrents } := by
  have hadd : (addNative P s.gTorrents kind c true true).2 = nativeAdd P kind c true := by
    unfold addNative nativeAdd
    cases P.hash kind c with
    | none => rfl
    | some hash => cases hg : s.gTorrents hash <;> simp [hg]
  unfold System.putLoaded TorrentManager.putLoaded
  dsimp only
  rw [hadd]
  cases nativeAdd P kind c true <;> rfl

theorem loadSaved_manager (hashCodes : List JString) (s : System B) (torrentFiles : List JString) :
    (System.loadSaved P dir (fun _ => true) hashCodes s torrentFiles).1.manager =
        { s.manager with torrents := (TorrentManager.loadSaved P dir (fun _ => true) hashCodes
          s.manager.torrents torrentFiles).1 } ∧
      (System.loadSaved P dir (fun _ => true) hashCodes s torrentFiles).2 =
        (TorrentManager.loadSaved P dir (fun _ => true) hashCodes s.manager.torrents
          torrentFiles).2 := by
  induction hashCodes generalizing s torrentFiles with
  | nil => exact ⟨rfl, rfl⟩
  | cons hashCode hashCodes ih =>
    have hput : ∀ kind c, _ := fun kind c =>
      ih (s.putLoaded P kind c true) (torrentFiles.erase (fileName hashCode kind))
    simp only [putLoaded_manager] at hput
    unfold System.loadSaved TorrentManager.loadSaved
    dsimp only
    cases dir (fileName hashCode true) with
    | some c => exact hput true c
    | none =>
      cases dir (fileName hashCode false) with
      | some c => exact hput false c
      | none => exact ih s torrentFiles

theorem loadOthers_manager (others : List JString) (s : System B) :
    (System.loadOthers P dir (fun _ => true) others s).manager =
      { s.manager with torrents :=
          TorrentManager.loadOthers P dir (fun _ => true) others s.manager.torrents } := by
  induction others generalizing s with
  | nil => rfl
  | cons other others ih =>
    unfold System.loadOthers TorrentManager.loadOthers
    cases dir other with
    | none => exact ih s
    | some c =>
      dsimp only
      split_ifs
      · rw [ih, putLoaded_manager]
      · rw [ih, putLoaded_manager]
      · exact ih s

/-- On the manager's side, a start in which every add succeeds is such a start of the manager. -/
theorem load_manager (listing hashCodes : List JString) :
    (load P dir (fun _ => true) listing hashCodes).manager =
      TorrentManager.loadAsyncExistTorrents P dir listing hashCodes fun _ => true := by
  obtain ⟨hmanager, hfiles⟩ := @loadSaved_manager _ P dir hashCodes
    ⟨⟨∅, dir, none⟩, fun _ => none⟩ listing
  unfold load TorrentManager.loadAsyncExistTorrents
  dsimp only
  rw [loadOthers_manager, hmanager, hfiles]

end Load

/-! ### Native calls that run through -/

/-- All native calls of `initStream` run through. -/
def InitStream.Ok (o : InitStream) : Prop :=
  o.setUploadMode = true ∧ o.resumeTorrent = true ∧ o.cancelStream = true

/-- All native calls of an add run through on the torrents that they find; the add itself may
fail. -/
structure Outcomes.Ok (o : Outcomes) : Prop where
  initStream : o.initStream.Ok
  removals : ∀ i, o.removals i = true
  getTorrentState : o.getTorrentState.isSome
  getTorrentFiles : o.getTorrentFiles = true

/-- The two layers have the same torrents. -/
def SameKeys (gTorrents gTorrents' : Torrents) : Prop :=
  ∀ hash, (gTorrents' hash).isSome = (gTorrents hash).isSome

theorem sameKeys_refl (gTorrents : Torrents) : SameKeys gTorrents gTorrents := fun _ => rfl

theorem SameKeys.trans {g g' g'' : Torrents} (h : SameKeys g g') (h' : SameKeys g' g'') :
    SameKeys g g'' := fun hash => (h' hash).trans (h hash)

theorem sameKeys_onTorrent (gTorrents : Torrents) (hashCode : JString) (f : Bool → Bool) :
    SameKeys gTorrents (onTorrent gTorrents hashCode true f).1 := by
  unfold onTorrent
  cases jStringToHash hashCode with
  | none => exact sameKeys_refl _
  | some hash =>
    cases hg : gTorrents hash with
    | none => simp only [hg]; exact sameKeys_refl _
    | some uploadMode =>
      simp only [hg, if_true]
      intro hash'
      rcases eq_or_ne hash' hash with rfl | hne
      · simp [hg]
      · simp [hne]

/-- A query that runs through changes nothing. -/
theorem query_ok (gTorrents : Torrents) (hashCode : JString) :
    (query gTorrents hashCode true).1 = gTorrents := by
  unfold query onTorrent
  cases jStringToHash hashCode with
  | none => rfl
  | some hash =>
    cases hg : gTorrents hash with
    | none => simp only [hg]
    | some uploadMode =>
      simp only [hg, if_true, id]
      rw [← hg, Function.update_eq_self]

theorem getMediaResource_ok (s : System B) (hashCode : JString) {o : Outcomes} (ho : o.Ok) :
    s.getMediaResource hashCode o = s := by
  unfold System.getMediaResource
  rw [ho.getTorrentState, ho.getTorrentFiles]
  dsimp only
  rw [query_ok, query_ok, ite_self]

theorem sameKeys_cancelStream (s : System B) :
    SameKeys s.gTorrents (s.cancelStream true).gTorrents := by
  unfold System.cancelStream
  cases s.manager.currentStream with
  | none => exact sameKeys_refl _
  | some currentStream => exact sameKeys_onTorrent _ _ _

theorem sameKeys_initStream (s : System B) (hashCode : JString) {o : InitStream} (ho : o.Ok) :
    SameKeys s.gTorrents (s.initStream hashCode o).gTorrents := by
  obtain ⟨hmode, hresume, hcancel⟩ := ho
  have hset : SameKeys s.gTorrents (setUploadMode s.gTorrents hashCode false true).1 :=
    sameKeys_onTorrent s.gTorrents hashCode fun _ => false
  unfold System.initStream
  rw [hmode, hresume, hcancel]
  dsimp only
  rw [query_ok]
  split_ifs
  · cases s.manager.currentStream with
    | none => exact hset
    | some currentStream =>
      dsimp only
      split_ifs
      · exact hset.trans (sameKeys_cancelStream _)
      · exact hset
  · exact hset
  · exact hset

/-- A native add that returns a string has the torrent of this string, and the others as before. -/
theorem addNative_eq_some {P : Parser B} {gTorrents : Torrents} {kind : Bool} {c : B}
    {uploadMode added : Bool} {hashCode : JString}
    (h : (addNative P gTorrents kind c uploadMode added).2 = some hashCode) :
    ∃ hash, hashCode = toHex hash ∧
      ((addNative P gTorrents kind c uploadMode added).1 hash).isSome ∧ ∀ hash' ≠ hash,
        (addNative P gTorrents kind c uploadMode added).1 hash' = gTorrents hash' := by
  unfold addNative at h ⊢
  cases hP : P.hash kind c with
  | none => rw [hP] at h; cases h
  | some hash =>
    rw [hP] at h
    dsimp only at h ⊢
    cases hg : gTorrents hash with
    | some mode =>
      rw [hg] at h
      cases h
      exact ⟨hash, rfl, by simp [hg], fun _ _ => rfl⟩
    | none =>
      rw [hg] at h
      dsimp only at h ⊢
      split_ifs at h ⊢
      cases h
      exact ⟨hash, rfl, by simp, fun hash' hne => Function.update_of_ne hne _ _⟩

theorem addNative_eq_none {P : Parser B} {gTorrents : Torrents} {kind : Bool} {c : B}
    {uploadMode added : Bool} (h : (addNative P gTorrents kind c uploadMode added).2 = none) :
    (addNative P gTorrents kind c uploadMode added).1 = gTorrents := by
  unfold addNative at h ⊢
  cases hP : P.hash kind c with
  | none => rfl
  | some hash =>
    rw [hP] at h
    dsimp only at h ⊢
    cases hg : gTorrents hash with
    | some mode => rfl
    | none =>
      rw [hg] at h
      dsimp only at h ⊢
      split_ifs at h ⊢
      rfl

/-! ### The two sides track the same torrents -/

/-- The keys of the map are the strings of the torrents that the native layer has. -/
def Coupled (torrents : AList fun _ : JString => Bool) (gTorrents : Torrents) : Prop :=
  ∀ k, k ∈ torrents ↔ ∃ hash, k = toHex hash ∧ (gTorrents hash).isSome

section Coupled

variable {torrents : AList fun _ : JString => Bool} {gTorrents gTorrents' : Torrents}

theorem Coupled.mem_iff (h : Coupled torrents gTorrents) (hash : Sha1Hash) :
    toHex hash ∈ torrents ↔ (gTorrents hash).isSome := by
  rw [h]
  constructor
  · rintro ⟨hash', heq, hsome⟩
    rwa [toHex_injective heq]
  · exact fun hsome => ⟨hash, rfl, hsome⟩

/-- The hashes that the keys denote are the native keys. -/
theorem Coupled.hashes_eq (h : Coupled torrents gTorrents) :
    {hash | ∃ k ∈ torrents, jStringToHash k = some hash} = {hash | (gTorrents hash).isSome} := by
  ext hash
  constructor
  · rintro ⟨k, hk, hhash⟩
    obtain ⟨hash', rfl, hsome⟩ := (h k).1 hk
    rw [jStringToHash_toHex, Option.some.injEq] at hhash
    rwa [← hhash]
  · exact fun hsome => ⟨toHex hash, (h.mem_iff hash).2 hsome, jStringToHash_toHex hash⟩

theorem Coupled.of_sameKeys (h : Coupled torrents gTorrents)
    (hsame : SameKeys gTorrents gTorrents') : Coupled torrents gTorrents' := by
  intro k
  rw [h]
  exact exists_congr fun hash => and_congr_right fun _ => by rw [hsame hash]

theorem Coupled.erase (h : Coupled torrents gTorrents) (hash : Sha1Hash) :
    Coupled (torrents.erase (toHex hash)) (Function.update gTorrents hash none) := by
  intro k
  rw [AList.mem_erase, h]
  constructor
  · rintro ⟨hne, hash', rfl, hsome⟩
    have hne' : hash' ≠ hash := fun heq => hne (by rw [heq])
    exact ⟨hash', rfl, by rwa [Function.update_of_ne hne']⟩
  · rintro ⟨hash', rfl, hsome⟩
    have hne : hash' ≠ hash := by
      rintro rfl
      rw [Function.update_self] at hsome
      cases hsome
    rw [Function.update_of_ne hne] at hsome
    exact ⟨fun heq => hne (toHex_injective heq), hash', rfl, hsome⟩

theorem Coupled.insert (h : Coupled torrents gTorrents) {hash : Sha1Hash} (kind : Bool)
    (hsome : (gTorrents' hash).isSome)
    (hother : ∀ hash' ≠ hash, (gTorrents' hash').isSome = (gTorrents hash').isSome) :
    Coupled (torrents.insert (toHex hash) kind) gTorrents' := by
  intro k
  rw [AList.mem_insert, h]
  constructor
  · rintro (rfl | ⟨hash', rfl, hsome'⟩)
    · exact ⟨hash, rfl, hsome⟩
    · rcases eq_or_ne hash' hash with rfl | hne
      · exact ⟨hash', rfl, hsome⟩
      · exact ⟨hash', rfl, by rwa [hother hash' hne]⟩
  · rintro ⟨hash', rfl, hsome'⟩
    rcases eq_or_ne hash' hash with rfl | hne
    · exact Or.inl rfl
    · exact Or.inr ⟨hash', rfl, by rwa [← hother hash' hne]⟩

end Coupled

/-- The two sides of a state agree. -/
def System.Agree (s : System B) : Prop := Coupled s.manager.torrents s.gTorrents

section Agree

variable {P : Parser B} {maxNumTorrent : ℤ} {s s' : System B}

theorem System.Agree.putLoaded (h : s.Agree) (kind : Bool) (c : B) (ok : Bool) :
    (s.putLoaded P kind c ok).Agree := by
  unfold System.putLoaded
  dsimp only
  cases hadd : (addNative P s.gTorrents kind c true ok).2 with
  | none => rw [addNative_eq_none hadd]; exact h
  | some hashCode =>
    obtain ⟨hash, rfl, hsome, hother⟩ := addNative_eq_some hadd
    exact h.insert kind hsome fun hash' hne => congrArg Option.isSome (hother hash' hne)

theorem agree_load (dir : JString → Option B) (added : JString → Bool)
    (listing hashCodes : List JString) : (load P dir added listing hashCodes).Agree := by
  apply load_induction System.Agree
  · intro k
    simp [AList.notMem_empty]
  · exact fun s h => h.putLoaded

/-- A removal by the torrent's own string, or of no torrent. -/
theorem System.Agree.removeTorrent (h : s.Agree) {hashCode : JString} {ok : Bool}
    (hok : ∀ hash, jStringToHash hashCode = some hash → (s.gTorrents hash).isSome →
      ok = true ∧ hashCode = toHex hash) : (s.removeTorrent hashCode ok).Agree := by
  unfold System.removeTorrent removeNative
  cases hhash : jStringToHash hashCode with
  | none => exact h
  | some hash =>
    cases hg : s.gTorrents hash with
    | none => simp only [hg]; exact h
    | some uploadMode =>
      obtain ⟨rfl, rfl⟩ := hok hash hhash (by rw [hg]; rfl)
      have hk : toHex hash ∈ s.manager.torrents := (h.mem_iff hash).2 (by rw [hg]; rfl)
      obtain ⟨existFile, hlook⟩ := Option.isSome_iff_exists.1 (AList.lookup_isSome.2 hk)
      simp only [hg, if_true]
      unfold System.Agree
      rw [TorrentManager.removeTorrent_of_some hlook]
      exact h.erase hash

/-- Every other removal of a torrent that the native layer has parts the two sides. -/
theorem System.Agree.removeTorrent_iff (h : s.Agree) (hashCode : JString) (ok : Bool) :
    (s.removeTorrent hashCode ok).Agree ↔ ∀ hash, jStringToHash hashCode = some hash →
      (s.gTorrents hash).isSome → ok = true ∧ hashCode = toHex hash := by
  refine ⟨fun h' hash hhash hsome => ?_, h.removeTorrent⟩
  obtain ⟨uploadMode, hg⟩ := Option.isSome_iff_exists.1 hsome
  have hk : toHex hash ∈ s.manager.torrents := (h.mem_iff hash).2 hsome
  have hgone : (s.removeTorrent hashCode ok).gTorrents hash = none := by
    simp [System.removeTorrent, removeNative, hhash, hg]
  have hk' : toHex hash ∉ (s.removeTorrent hashCode ok).manager.torrents := by
    rw [h'.mem_iff, hgone]
    exact Bool.false_ne_true
  simp only [System.removeTorrent, removeNative, hhash, hg] at hk'
  cases ok with
  | false => exact absurd hk hk'
  | true =>
    refine ⟨rfl, ?_⟩
    by_contra hne
    cases hlook : s.manager.torrents.lookup hashCode with
    | none =>
      rw [if_pos rfl, TorrentManager.removeTorrent_of_none hlook] at hk'
      exact hk' hk
    | some existFile =>
      rw [if_pos rfl, TorrentManager.removeTorrent_of_some hlook, AList.mem_erase] at hk'
      exact hk' ⟨fun heq => hne heq.symm, hk⟩

theorem System.Agree.removeOldest {num : ℕ} {oks : ℕ → Bool} (h : s.Agree)
    (hoks : ∀ i, oks i = true) : (s.removeOldest num oks).Agree := by
  induction num generalizing s oks with
  | zero => exact h
  | succ num ih =>
    unfold System.removeOldest
    cases hcodes : s.manager.hashCodes with
    | nil => exact h
    | cons hashCode hashCodes =>
      -- the oldest key is tracked, so it is the string of a native torrent
      have hmem : hashCode ∈ s.manager.hashCodes := by rw [hcodes]; exact List.mem_cons_self
      obtain ⟨hash, rfl, -⟩ := (h hashCode).1 (AList.mem_keys.2 (List.mem_reverse.1 hmem))
      refine ih (h.removeTorrent fun hash' hhash _ => ⟨hoks 0, ?_⟩) fun i => hoks (i + 1)
      rw [jStringToHash_toHex, Option.some.injEq] at hhash
      rw [hhash]

theorem System.Agree.prepare {oks : ℕ → Bool} (h : s.Agree) (hoks : ∀ i, oks i = true) :
    (s.prepare maxNumTorrent oks).Agree := by
  unfold System.prepare
  dsimp only
  split_ifs
  · exact h.removeOldest hoks
  · exact h

theorem initStream_torrents (s : System B) (hashCode : JString) (o : InitStream) :
    (s.initStream hashCode o).manager.torrents = s.manager.torrents := by
  obtain ⟨ok, hok⟩ := initStream_manager s hashCode o
  rw [hok, TorrentManager.State.initStream]
  split_ifs <;> rfl

theorem System.Agree.initStream (h : s.Agree) (hashCode : JString) {o : InitStream} (ho : o.Ok) :
    (s.initStream hashCode o).Agree := by
  unfold System.Agree
  rw [initStream_torrents]
  exact h.of_sameKeys (sameKeys_initStream s hashCode ho)

theorem System.Agree.cancelStream (h : s.Agree) : (s.cancelStream true).Agree := by
  unfold System.Agree
  rw [cancelStream_manager]
  exact h.of_sameKeys (sameKeys_cancelStream s)

/-- An add of a torrent that the native layer has, whose key may be missing in the map.  Saving its
file leaves the map alone. -/
theorem Coupled.addHashCode {m : TorrentManager.State B} {gTorrents gTorrents' : Torrents}
    (h : Coupled m.torrents gTorrents) {hash : Sha1Hash} (hsome : (gTorrents' hash).isSome)
    (hother : ∀ hash' ≠ hash, gTorrents' hash' = gTorrents hash') (kind : Bool)
    {store : TorrentManager.State B → TorrentManager.State B}
    (hstore : ∀ m, (store m).torrents = m.torrents) {o : Outcomes} (ho : o.Ok) :
    (System.addHashCode ⟨m, gTorrents'⟩ maxNumTorrent (toHex hash) kind store o).Agree := by
  have hsame := sameKeys_initStream ⟨m, gTorrents'⟩ (toHex hash) ho.initStream
  have hmap := initStream_torrents ⟨m, gTorrents'⟩ (toHex hash) o.initStream
  unfold System.addHashCode
  rw [getMediaResource_ok _ _ ho]
  generalize System.initStream ⟨m, gTorrents'⟩ (toHex hash) o.initStream = s at hsame hmap ⊢
  have hins : Coupled (s.manager.torrents.insert (toHex hash) kind) s.gTorrents := by
    rw [hmap]
    exact h.insert kind (by rwa [hsame]) fun hash' hne => by
      rw [hsame]
      exact congrArg Option.isSome (hother hash' hne)
  have hstored : System.Agree ⟨store { s.manager with
      torrents := s.manager.torrents.insert (toHex hash) kind }, s.gTorrents⟩ := by
    unfold System.Agree
    rwa [hstore]
  dsimp only
  cases s.manager.torrents.lookup (toHex hash) with
  | none => exact hstored.prepare ho.removals
  | some existFile =>
    dsimp only
    split_ifs
    · exact hstored
    · exact hins

theorem System.Agree.addTorrent (h : s.Agree) (kind : Bool) (c : B)
    {store : JString → TorrentManager.State B → TorrentManager.State B}
    (hstore : ∀ hashCode m, (store hashCode m).torrents = m.torrents) {o : Outcomes} (ho : o.Ok) :
    (s.addTorrent P maxNumTorrent kind c store o).Agree := by
  unfold System.addTorrent
  dsimp only
  cases hadd : (addNative P s.gTorrents kind c false o.added).2 with
  | none => rw [addNative_eq_none hadd]; exact h
  | some hashCode =>
    obtain ⟨hash, rfl, hsome, hother⟩ := addNative_eq_some hadd
    exact Coupled.addHashCode h hsome hother kind (hstore _) ho

/-- No native function throws inside on a torrent that it finds, and a removal either names its
torrent by the string that the native layer hands out or names none. -/
def Clean (s : System B) : Action B → Prop
  | .addTorrentFile _ o => o.Ok
  | .addTorrentURL _ o => o.Ok
  | .addTorrentURI _ o => o.Ok
  | .removeTorrent hashCode ok => ∀ hash, jStringToHash hashCode = some hash →
      (s.gTorrents hash).isSome → ok = true ∧ hashCode = toHex hash
  | .initStream _ o => o.Ok
  | .cancelStream ok => ok = true

/-- A clean call keeps the two sides in agreement. -/
theorem agree_step {a : Action B} (h : s.Agree) (hc : Clean s a)
    (hs : step P maxNumTorrent s a = some s') : s'.Agree := by
  cases a with
  | addTorrentFile c o =>
    cases hs
    refine h.addTorrent true c (fun hashCode m => ?_) hc
    rfl
  | addTorrentURL c o =>
    cases hs
    have hwrite : System.Agree ⟨System.write tempName c s.manager, s.gTorrents⟩ := h
    refine hwrite.addTorrent true c (fun hashCode m => ?_) hc
    rfl
  | addTorrentURI c o =>
    cases hs
    refine h.addTorrent false c (fun hashCode m => ?_) hc
    rfl
  | removeTorrent hashCode ok =>
    cases hs
    exact h.removeTorrent hc
  | initStream hashCode o =>
    cases hs
    exact h.initStream hashCode hc
  | cancelStream ok =>
    cases hs
    obtain rfl : ok = true := hc
    exact h.cancelStream

/-- The two sides agree after every run of clean calls. -/
theorem agree_run {dir : JString → Option B} {listing hashCodes : List JString}
    {added : JString → Bool} {as : List (Action B)}
    (hc : Along (step P maxNumTorrent) Clean (load P dir added listing hashCodes) as)
    (hr : run (step P maxNumTorrent) (load P dir added listing hashCodes) as = some s) :
    s.Agree :=
  hc.keeps (I := System.Agree) (fun _ _ _ h hc hs => agree_step h hc hs)
    (agree_load dir added listing hashCodes) hr

/-- **The two sides track the same torrents** after every run from a start in which no native
function throws inside and every removal names its torrent by the string that the native layer hands
out, or names none. -/
theorem sameTorrents_run {dir : JString → Option B} {listing hashCodes : List JString}
    {added : JString → Bool} {as : List (Action B)}
    (hc : Along (step P maxNumTorrent) Clean (load P dir added listing hashCodes) as)
    (hr : run (step P maxNumTorrent) (load P dir added listing hashCodes) as = some s) :
    {hash | ∃ k ∈ s.manager.torrents, jStringToHash k = some hash} =
      {hash | (s.gTorrents hash).isSome} :=
  (agree_run hc hr).hashes_eq

/-- Every native call runs through, and the torrent is downloading. -/
def allRunThrough : Outcomes := ⟨true, ⟨true, true, true⟩, fun _ => true, some 3, true⟩

/-- The start with an empty directory. -/
def emptyStart : System Sha1Hash :=
  load plainParser (fun _ => none) (fun _ => true) [] []

theorem ok_allRunThrough : allRunThrough.Ok := ⟨⟨rfl, rfl, rfl⟩, fun _ => rfl, rfl, rfl⟩

/-- Two torrent files are added to an empty directory, and the first is removed by its string. -/
theorem sameTorrents_run_two_files :
    ∃ s, run (step plainParser 5) emptyStart [.addTorrentFile (constHash 1) allRunThrough,
        .addTorrentFile (constHash 2) allRunThrough,
        .removeTorrent (toHex (constHash 1)) true] = some s ∧
      {hash | ∃ k ∈ s.manager.torrents, jStringToHash k = some hash} =
        {hash | (s.gTorrents hash).isSome} := by
  have hc : Along (step plainParser 5) Clean emptyStart
      [.addTorrentFile (constHash 1) allRunThrough, .addTorrentFile (constHash 2) allRunThrough,
        .removeTorrent (toHex (constHash 1)) true] := by
    refine along_cons ok_allRunThrough rfl (along_cons ok_allRunThrough rfl
      (along_cons (fun hash hhash _ => ⟨rfl, ?_⟩) rfl trivial))
    rw [jStringToHash_toHex, Option.some.injEq] at hhash
    rw [hhash]
  exact ⟨_, rfl, sameTorrents_run hc rfl⟩

/-- A key whose torrent the native layer does not have. -/
theorem hashes_ne {s : System B} (hash : Sha1Hash)
    (hk : (s.manager.torrents.lookup (toHex hash)).isSome) (hg : s.gTorrents hash = none) :
    {hash | ∃ k ∈ s.manager.torrents, jStringToHash k = some hash} ≠
      {hash | (s.gTorrents hash).isSome} := by
  intro heq
  have hmem : hash ∈ {hash | ∃ k ∈ s.manager.torrents, jStringToHash k = some hash} :=
    ⟨toHex hash, AList.lookup_isSome.1 hk, jStringToHash_toHex hash⟩
  rw [heq] at hmem
  simp [hg] at hmem

/-- A torrent is removed by its hash in upper case, or its removal throws inside: its native entry
is erased, and the manager keeps its key. -/
theorem not_sameTorrents_removals :
    (∃ s, run (step plainParser 5) emptyStart [.addTorrentFile (constHash 0xAA) allRunThrough,
        .removeTorrent (List.replicate 40 'A') true] = some s ∧
      {hash | ∃ k ∈ s.manager.torrents, jStringToHash k = some hash} ≠
        {hash | (s.gTorrents hash).isSome}) ∧
    ∃ s, run (step plainParser 5) emptyStart [.addTorrentFile (constHash 0xAA) allRunThrough,
        .removeTorrent (toHex (constHash 0xAA)) false] = some s ∧
      {hash | ∃ k ∈ s.manager.torrents, jStringToHash k = some hash} ≠
        {hash | (s.gTorrents hash).isSome} := by
  constructor
  · exact ⟨_, rfl, hashes_ne (constHash 0xAA) (by decide +kernel) (by decide +kernel)⟩
  · exact ⟨_, rfl, hashes_ne (constHash 0xAA) (by decide +kernel) (by decide +kernel)⟩

end Agree

end P2Player.NativeSession
