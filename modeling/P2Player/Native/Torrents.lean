import P2Player.Lib.Lifetime
import P2Player.Lib.Transition

/-!
# The torrents of the native layer

`gTorrents` maps an info hash to a heap-allocated `TorrentInfo`, which holds the torrent's handle
and the queue `cancel_piece_tasks` that the torrent's `stream_plugin` pops at every tick of the
session.  `gAccess` is a readers-writer lock: adding and removing take it exclusively, the
operations on one torrent share it.  An operation that throws has released it by the time its catch
block takes it exclusively, erases the entry of the hash and deletes the object it read before.

* `Torrent`, `TorrentInfo` pointers, `State`: both layers' tables and the accesses made so far;
* `Operation`: the per-torrent entry points, with what each needs from the handle;
* `Action`, `step`: the exclusive sections, the stages of an operation, the session's own work and
  the handling of its `add_torrent_alert`s, as atomic steps of any interleaving;
* `steps_of_step`: what a step can do.
-/

namespace P2Player.Torrents

variable {H : Type*}

/-- `add_torrent_params`: the info hash and, unless the torrent comes from a magnet link, whether
its `torrent_info` is private. -/
structure AddTorrentParams (H : Type*) where
  infoHash : H
  ti : Option Bool

/-- A torrent object of the session.  `queue` is the `TorrentInfo` whose `cancel_piece_tasks` was
handed to its `stream_plugin`; `alive` holds until the last reference to the object is gone. -/
structure Torrent (H : Type*) where
  infoHash : H
  queue : Option ℕ
  metadata : Bool
  alive : Bool

/-- `create_stream_plugin`: a private torrent gets no plugin. -/
def createStreamPlugin (params : AddTorrentParams H) (userdata : ℕ) : Option ℕ :=
  if params.ti = some true then none else some userdata

/-- The entry points that look up the torrent of a hash under the shared lock. -/
inductive Operation
  | pauseTorrent | resumeTorrent | getTorrentProgress | getTorrentProgressSize
  | setTorrentReadPiece | readTorrentPiece | addTorrentPiece
  | setTorrentDownloadLimit | getTorrentDownloadLimit | getTorrentDownloadRate
  | setTorrentUploadLimit | getTorrentUploadLimit | getTorrentUploadRate
  | setUploadMode | isUploadMode | setShareMode | isShareMode | isAutoManaged | setAutoManaged
  | getPieceNum | getPieceSize | getFirstPieceIncomplete | getPieceState
  | setPiecePriority | getPiecePriority | setPieceDeadline | resetPieceDeadline
  | clearPiecesDeadline | cancelTorrentPiece | initPartialPiece | getPieceDownloadQueue
  | getTorrentState | getTorrentStatusText | getTorrentFiles
  | setTorrentFilesPriority | getTorrentFilesPriority | getTorrentName
  deriving DecidableEq

/-- The operation calls a method of the torrent's handle. -/
def Operation.usesHandle : Operation → Bool
  | readTorrentPiece | cancelTorrentPiece => false
  | _ => true

/-- The operation calls `get_torrent_info` without asking `has_metadata` first. -/
def Operation.needsMetadata : Operation → Bool
  | setTorrentReadPiece | addTorrentPiece | getPieceNum | getPieceSize | setPieceDeadline => true
  | _ => false

/-- The operation's catch block deletes the `TorrentInfo` after it has erased the entry. -/
def Operation.deletesInfo : Operation → Bool
  | getTorrentFilesPriority => false
  | _ => true

/-- Where a thread is in an operation: outside, between the lookup and the operation proper, or
before the exclusive section of its catch block. -/
inductive Thread (H : Type*)
  | idle
  | inside (op : Operation) (h : H) (info : ℕ)
  | failed (op : Operation) (h : H) (info : ℕ)
  deriving DecidableEq

/-- The state of both layers.  `handle` is the torrent a `TorrentInfo`'s handle refers to, if it
has been set; `pending` are the asynchronous adds the session has not carried out; `alerts` are the
`add_torrent_alert`s not yet popped, with the torrent they carry unless they report an error;
`sharing` are the threads that hold the lock shared. -/
structure State (H : Type*) where
  gTorrents : H → Option ℕ
  handle : ℕ → Option ℕ
  nextInfo : ℕ
  torrents : ℕ → Option (Torrent H)
  nextTorrent : ℕ
  session : H → Option ℕ
  pending : List (AddTorrentParams H × ℕ)
  alerts : List (Option ℕ)
  thread : ℕ → Thread H
  sharing : Finset ℕ
  log : List (Access ℕ)

/-- A session without torrents. -/
def init : State H where
  gTorrents _ := none
  handle _ := none
  nextInfo := 0
  torrents _ := none
  nextTorrent := 0
  session _ := none
  pending := []
  alerts := []
  thread _ := .idle
  sharing := ∅
  log := []

/-- `m_torrent.lock()` of a handle on the torrent `i`. -/
def State.lock (s : State H) (i : ℕ) : Option (Torrent H) := (s.torrents i).filter (·.alive)

/-- The torrent behind the handle in a `TorrentInfo`, when the handle is valid. -/
def State.torrentOf (s : State H) (info : ℕ) : Option (Torrent H) := (s.handle info).bind s.lock

/-- The operation throws on an invalid handle, and on missing metadata when it needs them. -/
def Operation.succeeds (op : Operation) (s : State H) (info : ℕ) : Bool :=
  match s.torrentOf info with
  | none => !op.usesHandle
  | some t => !op.needsMetadata || t.metadata

/-- `torrent_alert_handler::handle` of an `add_torrent_alert`. -/
def State.handleAlert (s : State H) : Option ℕ → State H
  | none => s
  | some i =>
    match s.lock i with
    | none => s
    | some t =>
      match s.gTorrents t.infoHash with
      | none => s
      | some info =>
        { s with handle := Function.update s.handle info (some i), log := .use info :: s.log }

/-- The handling of an alert changes a handle at most. -/
theorem handleAlert_cases (s : State H) (a : Option ℕ) :
    s.handleAlert a = s ∨ ∃ i t info, a = some i ∧ s.lock i = some t ∧
      s.gTorrents t.infoHash = some info ∧ s.handleAlert a =
        { s with handle := Function.update s.handle info (some i), log := .use info :: s.log } := by
  cases a with
  | none => exact Or.inl rfl
  | some i =>
    simp only [State.handleAlert]
    cases hl : s.lock i with
    | none => exact Or.inl rfl
    | some t =>
      dsimp only
      cases hg : s.gTorrents t.infoHash with
      | none => exact Or.inl rfl
      | some info => exact Or.inr ⟨i, t, info, rfl, hl, hg, rfl⟩

variable [DecidableEq H]

/-- The session's `add_torrent`: the torrent it already has for the hash, or a new one. -/
def State.addTorrent (s : State H) (params : AddTorrentParams H) (userdata : ℕ) : ℕ × State H :=
  match s.session params.infoHash with
  | some i => (i, s)
  | none =>
    (s.nextTorrent, { s with
      torrents := Function.update s.torrents s.nextTorrent
        (some ⟨params.infoHash, createStreamPlugin params userdata, params.ti.isSome, true⟩)
      nextTorrent := s.nextTorrent + 1
      session := Function.update s.session params.infoHash (some s.nextTorrent) })

/-- The session's `remove_torrent` on the handle in a `TorrentInfo`; it throws when the handle is
not valid. -/
def State.removeTorrent (s : State H) (info : ℕ) : State H :=
  match s.torrentOf info with
  | some t => { s with session := Function.update s.session t.infoHash none }
  | none => s

/-- The atomic steps.  `add` and `addAsync` are the exclusive sections of the two pairs of entry
points, `asyncAdd` is the session carrying out an asynchronous add; `ok` is the session's answer. -/
inductive Action (H : Type*)
  | add (params : AddTorrentParams H) (ok : Bool)
  | addAsync (params : AddTorrentParams H)
  | asyncAdd (k : ℕ) (ok : Bool)
  | handleAlert (k : ℕ)
  | dropAlert (k : ℕ)
  | enter (t : ℕ) (op : Operation) (h : H)
  | operate (t : ℕ)
  | catch (t : ℕ)
  | remove (h : H)
  | gotMetadata (i : ℕ)
  | expire (i : ℕ)
  | tick (h : H)

/-- One step. -/
def step (s : State H) : Action H → Option (State H)
  | .add params ok =>
    if s.sharing = ∅ then
      match s.gTorrents params.infoHash with
      | some _ => some s
      | none =>
        if ok then
          let r := s.addTorrent params s.nextInfo
          some { r.2 with
            gTorrents := Function.update s.gTorrents params.infoHash (some s.nextInfo)
            handle := Function.update s.handle s.nextInfo (some r.1)
            nextInfo := s.nextInfo + 1
            alerts := s.alerts ++ [some r.1] }
        else
          some { s with
            nextInfo := s.nextInfo + 1
            alerts := s.alerts ++ [none]
            log := .delete s.nextInfo :: s.log }
    else none
  | .addAsync params =>
    if s.sharing = ∅ then
      match s.gTorrents params.infoHash with
      | some _ => some s
      | none =>
        some { s with
          gTorrents := Function.update s.gTorrents params.infoHash (some s.nextInfo)
          handle := Function.update s.handle s.nextInfo none
          nextInfo := s.nextInfo + 1
          pending := s.pending ++ [(params, s.nextInfo)] }
    else none
  | .asyncAdd k ok =>
    match s.pending[k]? with
    | none => none
    | some (params, userdata) =>
      if ok then
        let r := s.addTorrent params userdata
        some { r.2 with pending := s.pending.eraseIdx k, alerts := s.alerts ++ [some r.1] }
      else some { s with pending := s.pending.eraseIdx k, alerts := s.alerts ++ [none] }
  | .handleAlert k =>
    match s.alerts[k]? with
    | none => none
    | some a => some { s.handleAlert a with alerts := s.alerts.eraseIdx k }
  | .dropAlert k =>
    match s.alerts[k]? with
    | none => none
    | some _ => some { s with alerts := s.alerts.eraseIdx k }
  | .enter t op h =>
    if s.thread t = .idle then
      match s.gTorrents h with
      | none => some s
      | some info =>
        some { s with
          thread := Function.update s.thread t (.inside op h info)
          sharing := insert t s.sharing }
    else none
  | .operate t =>
    match s.thread t with
    | .inside op h info =>
      some { s with
        thread := Function.update s.thread t
          (if op.succeeds s info then .idle else .failed op h info)
        sharing := s.sharing.erase t
        log := .use info :: s.log }
    | _ => none
  | .catch t =>
    match s.thread t with
    | .failed op h info =>
      if s.sharing = ∅ then
        match s.gTorrents h with
        | none => some { s with thread := Function.update s.thread t .idle }
        | some _ =>
          some { s with
            gTorrents := Function.update s.gTorrents h none
            thread := Function.update s.thread t .idle
            log := if op.deletesInfo then .delete info :: s.log else s.log }
      else none
    | _ => none
  | .remove h =>
    if s.sharing = ∅ then
      match s.gTorrents h with
      | none => some s
      | some info =>
        some { s.removeTorrent info with
          gTorrents := Function.update s.gTorrents h none
          log := .delete info :: .use info :: s.log }
    else none
  | .gotMetadata i =>
    match s.torrents i with
    | none => none
    | some t =>
      some { s with torrents := Function.update s.torrents i (some { t with metadata := true }) }
  | .expire i =>
    match s.torrents i with
    | none => none
    | some t =>
      if s.session t.infoHash = some i then none
      else some { s with torrents := Function.update s.torrents i (some { t with alive := false }) }
  | .tick h =>
    match (s.session h).bind s.torrents with
    | none => none
    | some t =>
      match t.queue with
      | none => some s
      | some info => some { s with log := .use info :: s.log }

/-- What a step can do, with its guards: one constructor for each change of the state. -/
inductive Steps (s : State H) : Action H → State H → Prop
  | unchanged (a : Action H) : Steps s a s
  | add (params : AddTorrentParams H) (hshare : s.sharing = ∅)
      (hnew : s.gTorrents params.infoHash = none) :
      Steps s (.add params true) { (s.addTorrent params s.nextInfo).2 with
        gTorrents := Function.update s.gTorrents params.infoHash (some s.nextInfo)
        handle := Function.update s.handle s.nextInfo (some (s.addTorrent params s.nextInfo).1)
        nextInfo := s.nextInfo + 1
        alerts := s.alerts ++ [some (s.addTorrent params s.nextInfo).1] }
  | addFailed (params : AddTorrentParams H) (hshare : s.sharing = ∅)
      (hnew : s.gTorrents params.infoHash = none) :
      Steps s (.add params false) { s with
        nextInfo := s.nextInfo + 1
        alerts := s.alerts ++ [none]
        log := .delete s.nextInfo :: s.log }
  | addAsync (params : AddTorrentParams H) (hshare : s.sharing = ∅)
      (hnew : s.gTorrents params.infoHash = none) :
      Steps s (.addAsync params) { s with
        gTorrents := Function.update s.gTorrents params.infoHash (some s.nextInfo)
        handle := Function.update s.handle s.nextInfo none
        nextInfo := s.nextInfo + 1
        pending := s.pending ++ [(params, s.nextInfo)] }
  | asyncAdd (k : ℕ) (params : AddTorrentParams H) (userdata : ℕ)
      (hk : s.pending[k]? = some (params, userdata)) :
      Steps s (.asyncAdd k true) { (s.addTorrent params userdata).2 with
        pending := s.pending.eraseIdx k
        alerts := s.alerts ++ [some (s.addTorrent params userdata).1] }
  | asyncAddFailed (k : ℕ) (params : AddTorrentParams H) (userdata : ℕ)
      (hk : s.pending[k]? = some (params, userdata)) :
      Steps s (.asyncAdd k false) { s with
        pending := s.pending.eraseIdx k
        alerts := s.alerts ++ [none] }
  | popAlert (a : Action H) (k : ℕ) : Steps s a { s with alerts := s.alerts.eraseIdx k }
  | handleAlert (k i : ℕ) (t : Torrent H) (info : ℕ) (hk : s.alerts[k]? = some (some i))
      (hl : s.lock i = some t) (hg : s.gTorrents t.infoHash = some info) :
      Steps s (.handleAlert k) { s with
        handle := Function.update s.handle info (some i)
        log := .use info :: s.log
        alerts := s.alerts.eraseIdx k }
  | enter (t : ℕ) (op : Operation) (h : H) (info : ℕ) (ht : s.thread t = .idle)
      (hh : s.gTorrents h = some info) :
      Steps s (.enter t op h) { s with
        thread := Function.update s.thread t (.inside op h info)
        sharing := insert t s.sharing }
  | operate (t : ℕ) (op : Operation) (h : H) (info : ℕ) (ht : s.thread t = .inside op h info) :
      Steps s (.operate t) { s with
        thread := Function.update s.thread t
          (if op.succeeds s info then .idle else .failed op h info)
        sharing := s.sharing.erase t
        log := .use info :: s.log }
  | catchNone (t : ℕ) (op : Operation) (h : H) (info : ℕ) (ht : s.thread t = .failed op h info)
      (hshare : s.sharing = ∅) (hh : s.gTorrents h = none) :
      Steps s (.catch t) { s with thread := Function.update s.thread t .idle }
  | catch (t : ℕ) (op : Operation) (h : H) (info info' : ℕ) (ht : s.thread t = .failed op h info)
      (hshare : s.sharing = ∅) (hh : s.gTorrents h = some info') :
      Steps s (.catch t) { s with
        gTorrents := Function.update s.gTorrents h none
        thread := Function.update s.thread t .idle
        log := if op.deletesInfo then .delete info :: s.log else s.log }
  | remove (h : H) (info : ℕ) (hshare : s.sharing = ∅) (hh : s.gTorrents h = some info) :
      Steps s (.remove h) { s.removeTorrent info with
        gTorrents := Function.update s.gTorrents h none
        log := .delete info :: .use info :: s.log }
  | torrent (a : Action H) (i : ℕ) (t t' : Torrent H) (ht : s.torrents i = some t)
      (hq : t'.queue = t.queue) :
      Steps s a { s with torrents := Function.update s.torrents i (some t') }
  | tick (h : H) (t : Torrent H) (info : ℕ) (ht : (s.session h).bind s.torrents = some t)
      (hq : t.queue = some info) : Steps s (.tick h) { s with log := .use info :: s.log }

/-- The branches of a step are those of `Steps`. -/
theorem steps_of_step {s s' : State H} {a : Action H} (hs : step s a = some s') : Steps s a s' := by
  cases a with
  | add params ok =>
    simp only [step] at hs
    split at hs
    · rename_i hshare
      split at hs
      · cases hs; exact .unchanged _
      · rename_i hnew
        cases ok with
        | true => cases hs; exact .add params hshare hnew
        | false => cases hs; exact .addFailed params hshare hnew
    · cases hs
  | addAsync params =>
    simp only [step] at hs
    split_ifs at hs with hshare
    split at hs
    · cases hs; exact .unchanged _
    · rename_i hnew
      cases hs
      exact .addAsync params hshare hnew
  | asyncAdd k ok =>
    simp only [step] at hs
    split at hs
    · cases hs
    · rename_i params userdata hk
      cases ok with
      | true => cases hs; exact .asyncAdd k params userdata hk
      | false => cases hs; exact .asyncAddFailed k params userdata hk
  | handleAlert k =>
    simp only [step] at hs
    split at hs
    · cases hs
    · rename_i a hk
      cases hs
      rcases handleAlert_cases s a with ha | ⟨i, t, info, rfl, hl, hg, ha⟩ <;> rw [ha]
      · exact .popAlert _ k
      · exact .handleAlert k i t info hk hl hg
  | dropAlert k =>
    simp only [step] at hs
    split at hs <;> cases hs
    exact .popAlert _ k
  | enter t op h =>
    simp only [step] at hs
    split_ifs at hs with ht
    split at hs
    · cases hs; exact .unchanged _
    · rename_i info hh
      cases hs
      exact .enter t op h info ht hh
  | operate t =>
    simp only [step] at hs
    split at hs
    · rename_i op h info ht
      cases hs
      exact .operate t op h info ht
    · cases hs
  | «catch» t =>
    simp only [step] at hs
    split at hs
    · rename_i op h info ht
      split at hs
      · rename_i hshare
        split at hs
        · rename_i hh
          cases hs
          exact .catchNone t op h info ht hshare hh
        · rename_i info' hh
          cases hs
          exact .catch t op h info info' ht hshare hh
      · cases hs
    · cases hs
  | remove h =>
    simp only [step] at hs
    split_ifs at hs with hshare
    split at hs
    · cases hs; exact .unchanged _
    · rename_i info hh
      cases hs
      exact .remove h info hshare hh
  | gotMetadata i =>
    simp only [step] at hs
    split at hs
    · cases hs
    · rename_i t ht
      cases hs
      exact .torrent _ i t _ ht rfl
  | expire i =>
    simp only [step] at hs
    split at hs
    · cases hs
    · rename_i t ht
      split_ifs at hs
      cases hs
      exact .torrent _ i t _ ht rfl
  | tick h =>
    simp only [step] at hs
    split at hs
    · cases hs
    · rename_i t ht
      split at hs
      · cases hs; exact .unchanged _
      · rename_i info hq
        cases hs
        exact .tick h t info ht hq

/-! ### What the parts of a step leave alone -/

section Frame

variable (s : State H) (params : AddTorrentParams H) (userdata : ℕ)

@[simp] theorem addTorrent_gTorrents : (s.addTorrent params userdata).2.gTorrents = s.gTorrents := by
  unfold State.addTorrent; split <;> rfl

@[simp] theorem addTorrent_handle : (s.addTorrent params userdata).2.handle = s.handle := by
  unfold State.addTorrent; split <;> rfl

@[simp] theorem addTorrent_thread : (s.addTorrent params userdata).2.thread = s.thread := by
  unfold State.addTorrent; split <;> rfl

@[simp] theorem addTorrent_sharing : (s.addTorrent params userdata).2.sharing = s.sharing := by
  unfold State.addTorrent; split <;> rfl

@[simp] theorem addTorrent_nextInfo : (s.addTorrent params userdata).2.nextInfo = s.nextInfo := by
  unfold State.addTorrent; split <;> rfl

@[simp] theorem addTorrent_pending : (s.addTorrent params userdata).2.pending = s.pending := by
  unfold State.addTorrent; split <;> rfl

@[simp] theorem addTorrent_log : (s.addTorrent params userdata).2.log = s.log := by
  unfold State.addTorrent; split <;> rfl

@[simp] theorem removeTorrent_handle (info : ℕ) : (s.removeTorrent info).handle = s.handle := by
  unfold State.removeTorrent; split <;> rfl

@[simp] theorem removeTorrent_thread (info : ℕ) : (s.removeTorrent info).thread = s.thread := by
  unfold State.removeTorrent; split <;> rfl

@[simp] theorem removeTorrent_sharing (info : ℕ) : (s.removeTorrent info).sharing = s.sharing := by
  unfold State.removeTorrent; split <;> rfl

@[simp] theorem removeTorrent_nextInfo (info : ℕ) :
    (s.removeTorrent info).nextInfo = s.nextInfo := by
  unfold State.removeTorrent; split <;> rfl

end Frame

end P2Player.Torrents
