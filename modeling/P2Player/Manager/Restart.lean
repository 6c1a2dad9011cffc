import P2Player.Java.StringUtils
import P2Player.Manager.TorrentManager

/-!
# Removing a torrent and starting again

At its start the manager adds the torrents of the saved list in their order, and then those of the
torrent and magnet files that are left over.

* `loadAsyncExistTorrents`: the start, with the saved list, the listing of the directory and the
  native layer's answers as arguments;
* `exists_file_of_mem_load`: what is tracked after a start has a file;
* `removeTorrent_clears_iff`: a removed torrent leaves no file behind and is not brought back;
* `load_hashCodes`: saving the keys and starting again gives the same torrents in the same order.
-/

namespace P2Player.TorrentManager

open Java Native Transition

section Load

variable {B : Type*} (P : Parser B) (dir : JString → Option B) (added : JString → Bool)

/-- A file is handed to the native layer and, if it was added, put into the map. -/
def putLoaded (kind : Bool) (c : B) (ok : Bool) (torrents : AList fun _ : JString => Bool) :
    AList fun _ : JString => Bool :=
  match nativeAdd P kind c ok with
  | none => torrents
  | some hashCode => torrents.insert hashCode kind

/-- The loop over the saved list.  `torrentFiles` are the files not visited yet. -/
def loadSaved : List JString → (AList fun _ : JString => Bool) → List JString →
    (AList fun _ : JString => Bool) × List JString
  | [], torrents, torrentFiles => (torrents, torrentFiles)
  | hashCode :: hashCodes, torrents, torrentFiles =>
    let torrent := fileName hashCode true
    match dir torrent with
    | some c =>
      loadSaved hashCodes (putLoaded P true c (added torrent) torrents) (torrentFiles.erase torrent)
    | none =>
      let torrent := fileName hashCode false
      match dir torrent with
      | some c =>
        loadSaved hashCodes (putLoaded P false c (added torrent) torrents)
          (torrentFiles.erase torrent)
      | none => loadSaved hashCodes torrents torrentFiles

/-- The loop over the files that are left over. -/
def loadOthers : List JString → (AList fun _ : JString => Bool) → AList fun _ : JString => Bool
  | [], torrents => torrents
  | other :: others, torrents =>
    match dir other with
    | none => loadOthers others torrents
    | some c =>
      if extension true <:+ other then
        loadOthers others (putLoaded P true c (added other) torrents)
      else if extension false <:+ other then
        loadOthers others (putLoaded P false c (added other) torrents)
      else loadOthers others torrents

end Load

/-- `loadAsyncExistTorrents` of a manager that finds the files `dir`, listed in the order
`listing`, and the saved list `hashCodes`. -/
def loadAsyncExistTorrents {B : Type*} (P : Parser B) (dir : JString → Option B)
    (listing hashCodes : List JString) (added : JString → Bool) : State B :=
  let (torrents, torrentFiles) := loadSaved P dir added hashCodes ∅ listing
  { torrents := loadOthers P dir added torrentFiles torrents, dir := dir, currentStream := none }

/-- The listing has every file of the directory once. -/
def Lists {B : Type*} (listing : List JString) (dir : JString → Option B) : Prop :=
  listing.Nodup ∧ ∀ name, name ∈ listing ↔ (dir name).isSome

theorem lists_init {B : Type*} : Lists [] (init : State B).dir :=
  ⟨List.nodup_nil, fun _ => by simp [init]⟩

/-- A new file is listed, at whatever place. -/
theorem Lists.cons {B : Type*} {listing : List JString} {dir : JString → Option B}
    (h : Lists listing dir) {name : JString} {c : B} (hname : name ∉ listing) :
    Lists (name :: listing) (Function.update dir name (some c)) := by
  constructor
  · exact List.nodup_cons.2 ⟨hname, h.1⟩
  · intro n
    by_cases hn : n = name
    · subst hn; simp
    · rw [Function.update_of_ne hn, List.mem_cons, or_iff_right hn]
      exact h.2 n

section

variable {B : Type*} {P : Parser B} {maxNumTorrent : ℤ} {dir : JString → Option B}
  {added : JString → Bool} {s : State B}

/-! ### What a start tracks -/

/-- Every tracked torrent has the hash of some torrent or magnet file. -/
def FromFiles (P : Parser B) (dir : JString → Option B) (torrents : AList fun _ : JString => Bool) :
    Prop :=
  ∀ k ∈ torrents, ∃ name kind c h, dir (fileName name kind) = some c ∧ P.hash kind c = some h ∧
    k = toHex h

theorem fromFiles_putLoaded {torrents : AList fun _ : JString => Bool} {name : JString}
    {kind ok : Bool} {c : B} (ht : FromFiles P dir torrents)
    (hc : dir (fileName name kind) = some c) : FromFiles P dir (putLoaded P kind c ok torrents) := by
  unfold putLoaded
  split
  · exact ht
  · rename_i hashCode hadd
    intro k hk
    rcases AList.mem_insert _ |>.1 hk with rfl | hk
    · obtain ⟨h, rfl, hash⟩ := nativeAdd_eq_some hadd
      exact ⟨name, kind, c, h, hc, hash, rfl⟩
    · exact ht k hk

theorem fromFiles_loadSaved (hashCodes : List JString) {torrents : AList fun _ : JString => Bool}
    (ht : FromFiles P dir torrents) (torrentFiles : List JString) :
    FromFiles P dir (loadSaved P dir added hashCodes torrents torrentFiles).1 := by
  induction hashCodes generalizing torrents torrentFiles with
  | nil => exact ht
  | cons hashCode hashCodes ih =>
    unfold loadSaved
    dsimp only
    split
    · rename_i c hc
      exact ih (fromFiles_putLoaded ht hc) _
    · split
      · rename_i c hc
        exact ih (fromFiles_putLoaded ht hc) _
      · exact ih ht _

theorem fromFiles_loadOthers (others : List JString) {torrents : AList fun _ : JString => Bool}
    (ht : FromFiles P dir torrents) : FromFiles P dir (loadOthers P dir added others torrents) := by
  induction others generalizing torrents with
  | nil => exact ht
  | cons other others ih =>
    unfold loadOthers
    split
    · exact ih ht
    · rename_i c hc
      split_ifs with htor hmag
      · obtain ⟨name, rfl⟩ := htor
        exact ih (fromFiles_putLoaded ht hc)
      · obtain ⟨name, rfl⟩ := hmag
        exact ih (fromFiles_putLoaded ht hc)
      · exact ih ht

/-- What is tracked after a start has a file with its hash. -/
theorem exists_file_of_mem_load {listing hashCodes : List JString} {k : JString}
    (hk : k ∈ (loadAsyncExistTorrents P dir listing hashCodes added).hashCodes) :
    ∃ name kind c h, dir (fileName name kind) = some c ∧ P.hash kind c = some h ∧ k = toHex h := by
  have hempty : FromFiles P dir (∅ : AList fun _ : JString => Bool) := fun k hk =>
    absurd hk (AList.notMem_empty k)
  exact fromFiles_loadOthers _ (fromFiles_loadSaved hashCodes hempty listing) k
    (AList.mem_keys.2 (List.mem_reverse.1 hk))

/-! ### Removing a torrent -/

/-- In a directory in step with the map, a torrent that is not tracked has no file, and no start
brings it back. -/
theorem Sync.absent (hs : Sync P s) {h : Sha1Hash} (hlook : s.torrents.lookup (toHex h) = none) :
    (∀ kind, s.dir (fileName (toHex h) kind) = none) ∧
      ∀ listing hashCodes added,
        toHex h ∉ (loadAsyncExistTorrents P s.dir listing hashCodes added).hashCodes := by
  have hfile : ∀ kind, s.dir (fileName (toHex h) kind) = none := by
    intro kind
    rw [Option.eq_none_iff_forall_ne_some]
    intro c hc
    have hk := (hs.file _ kind c hc).1
    rw [hlook] at hk
    cases hk
  refine ⟨hfile, fun listing hashCodes added hmem => ?_⟩
  obtain ⟨name, kind, c, h', hc, hash, heq⟩ := exists_file_of_mem_load hmem
  obtain ⟨-, h'', rfl, hash'⟩ := hs.file name kind c hc
  rw [hash, Option.some.injEq] at hash'
  rw [← hash', ← heq, hfile] at hc
  cases hc

/-- A removal never makes a torrent tracked. -/
theorem lookup_removeTorrent_of_none {k str : JString} (h : s.torrents.lookup k = none) (r : Removal) :
    (s.removeTorrent str r).torrents.lookup k = none := by
  cases r with
  | notRemoved => exact h
  | thrown => exact h
  | removed =>
    cases hlook : s.torrents.lookup str with
    | none => rwa [removeTorrent_of_none hlook]
    | some existFile =>
      rw [removeTorrent_of_some hlook]
      by_cases hk : k = str
      · subst hk; exact AList.lookup_erase _ _
      · rw [← h]; exact AList.lookup_erase_ne hk

theorem lookup_removeTorrent_self (str : JString) :
    (s.removeTorrent str .removed).torrents.lookup str = none := by
  cases hlook : s.torrents.lookup str with
  | none => rwa [removeTorrent_of_none hlook]
  | some existFile =>
    rw [removeTorrent_of_some hlook]
    exact AList.lookup_erase _ _

/-- **A removed torrent leaves no file and does not come back**: after a history in which no
tracked torrent was added by the other kind of source, a removal that succeeds natively for the hash
`h` leaves no torrent or magnet file for `h`, and no later start tracks `h`, exactly when the string
was spelled as the native layer spells `h`, or `h` was not tracked. -/
theorem removeTorrent_clears_iff {as : List (Action B)} {str : JString} {h : Sha1Hash}
    (hc : Along (step P maxNumTorrent) (SameKind P) init as)
    (hr : run (step P maxNumTorrent) init as = some s) (hh : jStringToHash str = some h) :
    ((∀ kind, (s.removeTorrent str .removed).dir (fileName (toHex h) kind) = none) ∧
      ∀ listing hashCodes added, toHex h ∉ (loadAsyncExistTorrents P
        (s.removeTorrent str .removed).dir listing hashCodes added).hashCodes) ↔
    str = toHex h ∨ s.torrents.lookup (toHex h) = none := by
  have hs := sync_run hc hr
  constructor
  · rintro ⟨hfile, -⟩
    by_contra hne
    push Not at hne
    obtain ⟨kind, hkind⟩ := Option.ne_none_iff_exists'.1 hne.2
    obtain ⟨c, hc⟩ := hs.entry _ kind hkind
    -- the map has no key that is spelled differently
    have hstr : s.torrents.lookup str = none := by
      rw [Option.eq_none_iff_forall_ne_some]
      intro kind' hk
      obtain ⟨c', hc'⟩ := hs.entry str kind' hk
      obtain ⟨-, h', rfl, -⟩ := hs.file str kind' c' hc'
      rw [jStringToHash_toHex, Option.some.injEq] at hh
      exact hne.1 (by rw [hh])
    rw [removeTorrent_of_none hstr] at hfile
    rw [hfile kind] at hc
    cases hc
  · intro hor
    apply (hs.removeTorrent str .removed).absent
    rcases hor with rfl | hnone
    · exact lookup_removeTorrent_self _
    · exact lookup_removeTorrent_of_none hnone _

/-- The hash whose bytes are all `b`. -/
def constHash (b : UInt8) : Sha1Hash := ⟨List.replicate 20 b, List.length_replicate⟩

/-- Files and links that are nothing but their hash. -/
def plainParser : Parser Sha1Hash := ⟨some, some⟩

/-- Every native call succeeds. -/
def allSucceed : Answers := ⟨true, true, fun _ => .removed⟩

/-- A torrent file is added and removed under its own name. -/
theorem removeTorrent_clears_iff_one_file :
    ∃ s, run (step plainParser 5) init [.addTorrentFile (constHash 7) allSucceed] = some s ∧
      ∀ kind, (s.removeTorrent (toHex (constHash 7)) .removed).dir
        (fileName (toHex (constHash 7)) kind) = none := by
  refine ⟨_, rfl, ?_⟩
  have hc : Along (step plainParser 5) (SameKind plainParser) init
      [.addTorrentFile (constHash 7) allSucceed] := by
    refine along_cons (fun h _ => ?_) rfl trivial
    show AList.lookup (toHex h) (∅ : AList fun _ : JString => Bool) ≠ some false
    simp
  exact ((removeTorrent_clears_iff hc rfl (jStringToHash_toHex _)).2 (Or.inl rfl)).1

/-- A torrent that is added by a magnet link and then by its file leaves the magnet file behind when
it is removed, and comes back at the next start. -/
theorem not_removeTorrent_clears_magnet_then_file :
    ∃ s, run (step plainParser 5) init [.addTorrentURI (constHash 7) allSucceed,
        .addTorrentFile (constHash 7) allSucceed,
        .removeTorrent (toHex (constHash 7)) .removed] = some s ∧
      s.dir (fileName (toHex (constHash 7)) false) = some (constHash 7) ∧
      (loadAsyncExistTorrents plainParser s.dir [fileName (toHex (constHash 7)) false] []
        fun _ => true).hashCodes = [toHex (constHash 7)] :=
  ⟨_, rfl, by decide +kernel, by decide +kernel⟩

/-! ### Saving and starting again -/

/-- The file of a tracked torrent is the one the saved list leads to. -/
theorem Sync.loadSaved_cons (hs : Sync P s) {k : JString} {kind : Bool}
    (hk : s.torrents.lookup k = some kind) (ks : List JString)
    (torrents : AList fun _ : JString => Bool) (files : List JString) :
    loadSaved P s.dir (fun _ => true) (k :: ks) torrents files =
      loadSaved P s.dir (fun _ => true) ks (torrents.insert k kind)
        (files.erase (fileName k kind)) := by
  obtain ⟨c, hc⟩ := hs.entry k kind hk
  obtain ⟨-, h, hkh, hash⟩ := hs.file k kind c hc
  have hput : putLoaded P kind c true torrents = torrents.insert k kind := by
    simp only [putLoaded, nativeAdd, if_true, hash, Option.map_some, ← hkh]
  cases kind with
  | true => simp only [loadSaved, hc, hput]
  | false =>
    have htor : s.dir (fileName k true) = none := by
      rw [Option.eq_none_iff_forall_ne_some]
      intro c' hc'
      have hk' := (hs.file k true c' hc').1
      rw [hk] at hk'
      cases hk'
    simp only [loadSaved, htor, hc, hput]

/-- The loop over saved keys puts them in their order and visits their files. -/
theorem Sync.loadSaved_keys (hs : Sync P s) {ks : List JString} (hnodup : ks.Nodup)
    (hks : ∀ k ∈ ks, k ∈ s.torrents) {torrents : AList fun _ : JString => Bool}
    (hnew : ∀ k ∈ ks, k ∉ torrents) {files : List JString} (hfiles : files.Nodup) :
    (loadSaved P s.dir (fun _ => true) ks torrents files).1.keys = ks.reverse ++ torrents.keys ∧
    ∀ name ∈ (loadSaved P s.dir (fun _ => true) ks torrents files).2, name ∈ files ∧
      ∀ k ∈ ks, ∀ kind, s.torrents.lookup k = some kind → name ≠ fileName k kind := by
  induction ks generalizing torrents files with
  | nil => exact ⟨rfl, fun name hname => ⟨hname, by simp⟩⟩
  | cons k ks ih =>
    obtain ⟨kind, hkind⟩ := Option.isSome_iff_exists.1
      (AList.lookup_isSome.2 (hks k List.mem_cons_self))
    obtain ⟨hk, hnodup⟩ := List.nodup_cons.1 hnodup
    have hnew' : ∀ k' ∈ ks, k' ∉ torrents.insert k kind := by
      intro k' hk' hmem
      rcases (AList.mem_insert _).1 hmem with rfl | hmem
      · exact hk hk'
      · exact hnew k' (List.mem_cons_of_mem _ hk') hmem
    obtain ⟨hkeys, hleft⟩ := ih hnodup (fun k' hk' => hks k' (List.mem_cons_of_mem _ hk')) hnew'
      (hfiles.erase (fileName k kind))
    rw [hs.loadSaved_cons hkind]
    constructor
    · have hinsert : (torrents.insert k kind).keys = k :: torrents.keys := by
        rw [AList.insert_of_notMem (hnew k List.mem_cons_self)]
        rfl
      rw [hkeys, hinsert, List.reverse_cons, List.append_assoc]
      rfl
    · intro name hname
      obtain ⟨hmem, hne⟩ := hleft name hname
      rw [hfiles.mem_erase_iff] at hmem
      refine ⟨hmem.2, fun k' hk' kind' hkind' => ?_⟩
      rcases List.mem_cons.1 hk' with rfl | hk'
      · rw [hkind, Option.some.injEq] at hkind'
        rw [← hkind']; exact hmem.1
      · exact hne k' hk' kind' hkind'

/-- Files without one of the two extensions are passed over. -/
theorem loadOthers_eq_self {others : List JString}
    (h : ∀ name ∈ others, ∀ kind, ¬ extension kind <:+ name)
    (torrents : AList fun _ : JString => Bool) :
    loadOthers P dir added others torrents = torrents := by
  induction others with
  | nil => rfl
  | cons other others ih =>
    have hother := h other List.mem_cons_self
    have ih := ih fun name hname => h name (List.mem_cons_of_mem _ hname)
    unfold loadOthers
    split
    · exact ih
    · rw [if_neg (hother true), if_neg (hother false)]
      exact ih

/-- **Saving the keys and starting again gives the same torrents in the same least recently used
order**, after every history in which no tracked torrent was added by the other kind of source. -/
theorem load_hashCodes {as : List (Action B)} {listing : List JString}
    (hc : Along (step P maxNumTorrent) (SameKind P) init as)
    (hr : run (step P maxNumTorrent) init as = some s) (hl : Lists listing s.dir) :
    (loadAsyncExistTorrents P s.dir listing
      (getStringCollection (collectionToString s.hashCodes)) fun _ => true).hashCodes =
      s.hashCodes := by
  have hs := sync_run hc hr
  have htokens : getStringCollection (collectionToString s.hashCodes) = s.hashCodes := by
    apply getStringCollection_collectionToString
    intro k hk
    obtain ⟨h, rfl⟩ := hs.exists_hash hk
    refine ⟨fun hcomma => ?_, List.ne_nil_of_length_pos (by simp)⟩
    obtain ⟨n, hn, heq⟩ := mem_toHex hcomma
    have hne : ∀ n < 16, ',' ≠ hexChar n := by decide
    exact hne n hn heq
  have hmem : ∀ k, k ∈ s.hashCodes ↔ k ∈ s.torrents := fun k => by
    rw [AList.mem_keys]; exact List.mem_reverse
  have hnodup : s.hashCodes.Nodup := List.nodup_reverse.2 s.torrents.keys_nodup
  have hempty : ∀ k ∈ s.hashCodes, k ∉ (∅ : AList fun _ : JString => Bool) := fun k _ =>
    AList.notMem_empty k
  obtain ⟨hkeys, hleft⟩ := hs.loadSaved_keys hnodup (fun k hk => (hmem k).1 hk) hempty hl.1
  -- every torrent and magnet file was visited by way of its key
  have hothers : ∀ name ∈ (loadSaved P s.dir (fun _ => true) s.hashCodes ∅ listing).2, ∀ kind,
      ¬ extension kind <:+ name := by
    rintro name hname kind ⟨k, rfl⟩
    obtain ⟨hlisted, hvisited⟩ := hleft _ hname
    obtain ⟨c, hcontent⟩ := Option.isSome_iff_exists.1 ((hl.2 _).1 hlisted)
    have hlook := (hs.file k kind c hcontent).1
    exact hvisited k ((hmem k).2 (AList.lookup_isSome.1 (by rw [hlook]; rfl))) kind hlook rfl
  rw [htokens]
  show (loadOthers P s.dir (fun _ => true)
    (loadSaved P s.dir (fun _ => true) s.hashCodes ∅ listing).2
    (loadSaved P s.dir (fun _ => true) s.hashCodes ∅ listing).1).keys.reverse = s.hashCodes
  rw [loadOthers_eq_self hothers, hkeys, AList.keys_empty, List.append_nil, List.reverse_reverse]

/-- One magnet link is saved and loaded. -/
theorem load_hashCodes_one_magnet :
    ∃ s, run (step plainParser 5) init [.addTorrentURI (constHash 7) allSucceed] = some s ∧
      (loadAsyncExistTorrents plainParser s.dir [fileName (toHex (constHash 7)) false]
        (getStringCollection (collectionToString s.hashCodes)) fun _ => true).hashCodes =
        s.hashCodes := by
  refine ⟨_, rfl, ?_⟩
  have hc : Along (step plainParser 5) (SameKind plainParser) init
      [.addTorrentURI (constHash 7) allSucceed] := by
    refine along_cons (fun h _ => ?_) rfl trivial
    show AList.lookup (toHex h) (∅ : AList fun _ : JString => Bool) ≠ some true
    simp
  exact load_hashCodes hc rfl (lists_init.cons (by simp))

/-- A torrent with both a torrent and a magnet file is visited again after the saved list, and
becomes the most recently used one. -/
theorem not_load_hashCodes_two_files :
    ∃ s, run (step plainParser 5) init [.addTorrentURI (constHash 1) allSucceed,
        .addTorrentFile (constHash 1) allSucceed,
        .addTorrentURI (constHash 2) allSucceed] = some s ∧
      Lists [fileName (toHex (constHash 2)) false, fileName (toHex (constHash 1)) true,
        fileName (toHex (constHash 1)) false] s.dir ∧
      s.hashCodes = [toHex (constHash 1), toHex (constHash 2)] ∧
      (loadAsyncExistTorrents plainParser s.dir [fileName (toHex (constHash 2)) false,
        fileName (toHex (constHash 1)) true, fileName (toHex (constHash 1)) false]
        (getStringCollection (collectionToString s.hashCodes)) fun _ => true).hashCodes =
        [toHex (constHash 2), toHex (constHash 1)] := by
  refine ⟨_, rfl, ?_, by decide +kernel, by decide +kernel⟩
  have hmag : Lists [fileName (toHex (constHash 1)) false] _ :=
    lists_init.cons (c := constHash 1) (by simp)
  have htor : Lists [fileName (toHex (constHash 1)) true, _] _ :=
    hmag.cons (c := constHash 1) (by decide +kernel)
  exact htor.cons (by decide +kernel)

end

end P2Player.TorrentManager
