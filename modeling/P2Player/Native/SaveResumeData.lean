import Mathlib.Tactic

/-!
# Saving the resume data of all torrents

`saveResumeData` requests the resume data of every torrent that needs it, counts the requests, and
takes alerts out of the session's queue until it has seen as many answers.  It does not look at
which torrents the answers are for.

* `Alert`: the alerts of the session that the native layer tells apart;
* `Session`, `requested`: the torrents and the requests;
* `saveLoop`, `saveResumeData`: the loop over the alerts that arrive;
* `settled_iff`: the result is right exactly when the answers that are counted are good ones for
  pairwise distinct torrents that were asked.
-/

namespace P2Player.Alerts

variable {H : Type*}

/-- The alerts that the native layer tells apart, with the info hash of their torrent; `other`
stands for all other types.  A `save_resume_data_alert` may come without data. -/
inductive Alert (H : Type*)
  | addTorrent (infoHash : H) (error : Bool)
  | torrentFinished (infoHash : H)
  | saveResumeData (infoHash : H) (resumeData : Bool)
  | saveResumeDataFailed (infoHash : H)
  | torrentPaused (infoHash : H)
  | readPiece (infoHash : H) (piece : ℤ)
  | torrentDeleted (infoHash : H)
  | torrentDeleteFailed (infoHash : H)
  | hashFailed (infoHash : H) (piece : ℤ)
  | other
  deriving DecidableEq

/-- The torrent that a `save_resume_data_alert` or a `save_resume_data_failed_alert` is for. -/
def Alert.answers : Alert H → Option H
  | .saveResumeData infoHash _ => some infoHash
  | .saveResumeDataFailed infoHash => some infoHash
  | _ => none

/-- A torrent of the session, with what `saveResumeData` asks its handle. -/
structure Torrent (H : Type*) where
  infoHash : H
  isValid : Bool
  hasMetadata : Bool
  needSaveResumeData : Bool

/-- The torrents of the session, which holds one torrent for an info hash. -/
structure Session (H : Type*) where
  torrents : List (Torrent H)
  nodup : (torrents.map Torrent.infoHash).Nodup

/-- The torrents whose resume data is requested. -/
def Session.requested (S : Session H) : List H :=
  (S.torrents.filter fun t => t.isValid && t.hasMetadata && t.needSaveResumeData).map
    Torrent.infoHash

/-- An alert that arrives, with whether its handle is still valid and what `SaveFile` would return
for its data. -/
structure Arrival (H : Type*) where
  alert : Alert H
  isValid : Bool
  saveFile : ℤ

/-- What a run of the loop leaves: the torrents whose data has been stored, those whose failure has
been reported, and the value returned, where an exception makes the native function return false. -/
structure Saved (H : Type*) where
  stored : List H
  failed : List H
  result : Bool

/-- The loop of `saveResumeData` with `num_resume_data` answers to come.  The list has the alerts
that arrive, each within ten seconds of the one before; after them `wait_for_alert` returns null. -/
def saveLoop : ℕ → List (Arrival H) → Saved H
  | 0, _ => ⟨[], [], true⟩
  | _ + 1, [] => ⟨[], [], false⟩
  | num + 1, a :: rest =>
    match a.alert with
    | .saveResumeDataFailed infoHash =>
      let r := saveLoop num rest
      { r with failed := infoHash :: r.failed }
    | .saveResumeData infoHash true =>
      if a.isValid then
        let r := saveLoop num rest
        if a.saveFile = 0 then { r with stored := infoHash :: r.stored } else r
      else ⟨[], [], false⟩
    -- an alert without data counts as well
    | .saveResumeData _ false => saveLoop num rest
    | _ => saveLoop (num + 1) rest

/-- `saveResumeData`. -/
def saveResumeData (S : Session H) (arrivals : List (Arrival H)) : Saved H :=
  saveLoop S.requested.length arrivals

/-- The torrent's data has been stored or its failure has been reported. -/
def Saved.Settled (r : Saved H) (infoHash : H) : Prop :=
  infoHash ∈ r.stored ∨ infoHash ∈ r.failed

/-! ### The answers that are counted -/

/-- The answers among the alerts that arrive. -/
def answersOf (arrivals : List (Arrival H)) : List (Arrival H) :=
  arrivals.filter fun a => a.alert.answers.isSome

/-- The handling of the answer throws: its data comes from a torrent that is gone. -/
def Arrival.throws (a : Arrival H) : Bool :=
  match a.alert with
  | .saveResumeData _ true => !a.isValid
  | _ => false

/-- The answer settles its torrent. -/
def Arrival.settles (a : Arrival H) : Bool :=
  match a.alert with
  | .saveResumeDataFailed _ => true
  | .saveResumeData _ true => a.isValid && a.saveFile = 0
  | _ => false

/-- The torrents that a list of answers is for. -/
def torrentsOf (answers : List (Arrival H)) : List H := answers.filterMap fun a => a.alert.answers

theorem answersOf_cons_of_none {a : Arrival H} {arrivals : List (Arrival H)}
    (ha : a.alert.answers = none) : answersOf (a :: arrivals) = answersOf arrivals := by
  simp [answersOf, ha]

theorem answersOf_cons_of_some {a : Arrival H} {arrivals : List (Arrival H)} {infoHash : H}
    (ha : a.alert.answers = some infoHash) :
    answersOf (a :: arrivals) = a :: answersOf arrivals := by
  simp [answersOf, ha]

/-- An alert that is no answer is dropped. -/
theorem saveLoop_cons_of_none {num : ℕ} {a : Arrival H} {rest : List (Arrival H)}
    (ha : a.alert.answers = none) : saveLoop (num + 1) (a :: rest) = saveLoop (num + 1) rest := by
  rw [saveLoop]
  cases h : a.alert with
  | saveResumeData infoHash resumeData => rw [h] at ha; cases ha
  | saveResumeDataFailed infoHash => rw [h] at ha; cases ha
  | _ => rfl

/-- An answer counts, unless it ends the loop. -/
theorem saveLoop_cons_of_some {num : ℕ} {a : Arrival H} {rest : List (Arrival H)} {infoHash : H}
    (ha : a.alert.answers = some infoHash) :
    (saveLoop (num + 1) (a :: rest)).result = (!a.throws && (saveLoop num rest).result) ∧
    (a.throws = false → ∀ h, (saveLoop (num + 1) (a :: rest)).Settled h ↔
      (a.settles = true ∧ h = infoHash) ∨ (saveLoop num rest).Settled h) := by
  rw [saveLoop, Arrival.throws, Arrival.settles]
  cases h : a.alert with
  | saveResumeDataFailed infoHash' =>
    rw [h] at ha
    cases ha
    refine ⟨rfl, fun _ h => ?_⟩
    simp only [Saved.Settled, List.mem_cons, true_and]
    tauto
  | saveResumeData infoHash' resumeData =>
    rw [h] at ha
    cases ha
    cases resumeData with
    | false => exact ⟨rfl, fun _ h => by simp [Saved.Settled]⟩
    | true =>
      cases hv : a.isValid with
      | false => exact ⟨rfl, fun h => by cases h⟩
      | true =>
        by_cases hsave : a.saveFile = 0
        · refine ⟨by simp [hsave], fun _ h => ?_⟩
          simp only [hsave, Saved.Settled, if_true, List.mem_cons, Bool.and_self, decide_true,
            true_and]
          tauto
        · exact ⟨by simp [hsave], fun _ h => by simp [hsave, Saved.Settled]⟩
  | _ => rw [h] at ha; cases ha

/-- The loop ends well exactly when enough answers arrive and none of those counted throws. -/
theorem saveLoop_result {num : ℕ} {arrivals : List (Arrival H)} :
    (saveLoop num arrivals).result = true ↔ num ≤ (answersOf arrivals).length ∧
      ∀ a ∈ (answersOf arrivals).take num, a.throws = false := by
  induction arrivals generalizing num with
  | nil => cases num <;> simp [saveLoop, answersOf]
  | cons a rest ih =>
    cases num with
    | zero => simp [saveLoop]
    | succ num =>
      cases ha : a.alert.answers with
      | none => rw [saveLoop_cons_of_none ha, answersOf_cons_of_none ha, ih]
      | some infoHash =>
        rw [(saveLoop_cons_of_some ha).1, answersOf_cons_of_some ha, Bool.and_eq_true, ih,
          List.take_succ_cons, List.length_cons, List.forall_mem_cons, Nat.add_le_add_iff_right,
          Bool.not_eq_true']
        tauto

/-- When the loop ends well, the answers counted that settle their torrents have done so. -/
theorem settled_saveLoop {num : ℕ} {arrivals : List (Arrival H)}
    (hthrows : ∀ a ∈ (answersOf arrivals).take num, a.throws = false) (h : H) :
    (saveLoop num arrivals).Settled h ↔
      h ∈ torrentsOf (((answersOf arrivals).take num).filter Arrival.settles) := by
  induction arrivals generalizing num with
  | nil => cases num <;> simp [saveLoop, answersOf, torrentsOf, Saved.Settled]
  | cons a rest ih =>
    cases num with
    | zero => simp [saveLoop, torrentsOf, Saved.Settled]
    | succ num =>
      cases ha : a.alert.answers with
      | none =>
        rw [answersOf_cons_of_none ha] at hthrows ⊢
        rw [saveLoop_cons_of_none ha, ih hthrows]
      | some infoHash =>
        rw [answersOf_cons_of_some ha, List.take_succ_cons] at hthrows ⊢
        obtain ⟨hhead, htail⟩ := List.forall_mem_cons.1 hthrows
        rw [(saveLoop_cons_of_some ha).2 hhead, ih htail, List.filter_cons]
        split_ifs with hsettles
        · simp [torrentsOf, hsettles, ha]
        · simp [hsettles]

/-! ### The main result -/

theorem Session.nodup_requested (S : Session H) : S.requested.Nodup :=
  S.nodup.sublist (List.filter_sublist.map _)

/-- Answers are for one torrent each. -/
theorem length_torrentsOf {answers : List (Arrival H)} (h : ∀ a ∈ answers, a.alert.answers.isSome) :
    (torrentsOf answers).length = answers.length :=
  List.filterMap_length_eq_length.2 h

theorem isSome_of_mem_answersOf {a : Arrival H} {arrivals : List (Arrival H)}
    (h : a ∈ answersOf arrivals) : a.alert.answers.isSome := (List.mem_filter.1 h).2

/-- The answers that the loop counts are those that it should: each settles its torrent, the
torrents are different ones, and their data has been requested. -/
structure Proper (S : Session H) (answers : List (Arrival H)) : Prop where
  settles : ∀ a ∈ answers, a.settles = true
  nodup : (torrentsOf answers).Nodup
  requested : ∀ h ∈ torrentsOf answers, h ∈ S.requested

/-- **Saving all resume data.** A true result means that every torrent that was asked is settled
exactly when, unless too few answers arrive or one that is counted throws, the answers counted are
proper. -/
theorem settled_iff {S : Session H} {arrivals : List (Arrival H)} :
    ((saveResumeData S arrivals).result = true →
      ∀ h ∈ S.requested, (saveResumeData S arrivals).Settled h) ↔
    (S.requested.length ≤ (answersOf arrivals).length →
      (∀ a ∈ (answersOf arrivals).take S.requested.length, a.throws = false) →
      Proper S ((answersOf arrivals).take S.requested.length)) := by
  unfold saveResumeData
  rw [saveLoop_result, and_imp]
  refine imp_congr_right fun hlen => imp_congr_right fun hthrows => ?_
  simp only [settled_saveLoop hthrows]
  generalize hcounted : (answersOf arrivals).take S.requested.length = counted
  have hlength : counted.length = S.requested.length := by
    rw [← hcounted, List.length_take, Nat.min_eq_left hlen]
  have hanswers : ∀ a ∈ counted, a.alert.answers.isSome := fun a ha =>
    isSome_of_mem_answersOf (List.mem_of_mem_take (hcounted ▸ ha))
  constructor
  · intro hsettled
    -- the answers that settle are as many as the torrents, so that they are all the answers counted
    have hsome : ∀ a ∈ counted.filter Arrival.settles, a.alert.answers.isSome := fun a ha =>
      hanswers a (List.mem_of_mem_filter ha)
    have hle : (torrentsOf (counted.filter Arrival.settles)).length ≤ S.requested.length := by
      rw [length_torrentsOf hsome, ← hlength]
      exact List.length_filter_le _ _
    have hperm := (List.subperm_of_subset S.nodup_requested hsettled).perm_of_length_le hle
    have hall : ∀ a ∈ counted, a.settles = true := by
      rw [← List.length_filter_eq_length_iff, hlength, hperm.length_eq, length_torrentsOf hsome]
    rw [List.filter_eq_self.2 hall] at hperm
    exact ⟨hall, hperm.nodup S.nodup_requested, fun h hmem => hperm.mem_iff.2 hmem⟩
  · intro hproper h hmem
    have hle : S.requested.length ≤ (torrentsOf counted).length := by
      rw [length_torrentsOf hanswers, hlength]
    have hperm := (List.subperm_of_subset hproper.nodup hproper.requested).perm_of_length_le hle
    rw [List.filter_eq_self.2 hproper.settles]
    exact hperm.mem_iff.2 hmem

/-! ### Two torrents -/

/-- A session of two torrents that both need to be saved. -/
def twoTorrents : Session ℕ where
  torrents := [⟨1, true, true, true⟩, ⟨2, true, true, true⟩]
  nodup := by decide

/-- The data of torrent 1 arrives twice, because it has been requested before when the torrent was
paused; nothing is known about torrent 2, and the result is true. -/
theorem not_settled_left_over :
    (saveResumeData twoTorrents
      [⟨.saveResumeData 1 true, true, 0⟩, ⟨.saveResumeData 1 true, true, 0⟩]).result = true ∧
    2 ∈ twoTorrents.requested ∧
    ¬ (saveResumeData twoTorrents
      [⟨.saveResumeData 1 true, true, 0⟩, ⟨.saveResumeData 1 true, true, 0⟩]).Settled 2 := by
  refine ⟨by decide, by decide, ?_⟩
  unfold Saved.Settled
  decide

end P2Player.Alerts
