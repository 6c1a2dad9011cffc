import P2Player.Lib.Rounding
import P2Player.Native.HashArgument

/-!
# The progress of a torrent

`getTorrentProgress` takes each file's progress in thousandths, rounded down and with an empty file
complete, and divides their sum by the number of files.

* `TorrentHandle`, `FileStatus`: what the function asks a torrent for;
* `torrentProgress`, `getTorrentProgress`: the function, in C++'s 64-bit and 32-bit integers;
* `Downloading`: a torrent that is not seeding, of a size for which the numbers fit;
* `torrentProgress_eq`: the result is the average of the files' thousandths;
* `getTorrentProgress_scale`: the result is a scale to 1000, complete when all files are.
-/

namespace P2Player.Native

open Java Rounding

/-! ### The function -/

/-- `file_at(i).size` and `file_progress[i]`. -/
structure FileStatus where
  size : ℤ
  progress : ℤ

/-- A valid handle. -/
structure TorrentHandle where
  hasMetadata : Bool
  isSeed : Bool
  files : List FileStatus

/-- The local `progress`. -/
def fileProgress (file : FileStatus) : ℤ :=
  if 0 < file.size then toInt ((toLong (file.progress * 1000)).tdiv file.size) else 1000

/-- The `result` for a torrent that has been found. -/
def torrentProgress (torrent : TorrentHandle) : ℤ :=
  if torrent.hasMetadata ∧ ¬ torrent.isSeed then
    (torrent.files.foldl (fun result file => toInt (result + fileProgress file)) 0).tdiv
      torrent.files.length
  else if torrent.hasMetadata ∧ torrent.isSeed then 1000
  else -1

/-- `getTorrentProgress`. -/
def getTorrentProgress (gSessionState : Bool) (gTorrents : Sha1Hash → Option TorrentHandle)
    (hashCode : Option JavaString) : Except Thrown ℤ :=
  (operation (fun _ torrent (s : Unit) => (.ok (torrentProgress torrent), s)) (-1) gSessionState
    gTorrents hashCode ()).1

/-- The bytes of a file are there in part, and a thousand times as many fit in 64 bits. -/
structure FileStatus.Partial (file : FileStatus) : Prop where
  nonneg : 0 ≤ file.progress
  le : file.progress ≤ file.size
  lt : file.size < 2 ^ 53

/-- A torrent that is not seeding; a thousand times the number of its files fits in 32 bits. -/
structure TorrentHandle.Downloading (torrent : TorrentHandle) : Prop where
  hasMetadata : torrent.hasMetadata = true
  not_seed : torrent.isSeed = false
  pos : 1 ≤ torrent.files.length
  lt : torrent.files.length < 2147483
  files : ∀ file ∈ torrent.files, file.Partial

/-- The same files, of which some may have more bytes. -/
def TorrentHandle.Grows (torrent torrent' : TorrentHandle) : Prop :=
  torrent.files.Forall₂ (fun file file' => file.size = file'.size ∧ file.progress ≤ file'.progress)
    torrent'.files

/-! ### The thousandths of a file -/

/-- The thousandths without a bound on the numbers. -/
def FileStatus.thousandths (file : FileStatus) : ℤ :=
  if 0 < file.size then scaled 1000 file.progress file.size else 1000

section File

variable {file file' : FileStatus}

theorem FileStatus.thousandths_nonneg (h : file.Partial) : 0 ≤ file.thousandths := by
  unfold thousandths
  split_ifs with hsize
  · exact scaled_nonneg (by decide) hsize h.nonneg
  · decide

theorem FileStatus.thousandths_le (h : file.Partial) : file.thousandths ≤ 1000 := by
  unfold thousandths
  split_ifs with hsize
  · exact scaled_le (by decide) hsize h.le
  · exact le_rfl

/-- A file has all thousandths when it is complete; an empty file is. -/
theorem FileStatus.thousandths_eq_iff (h : file.Partial) :
    file.thousandths = 1000 ↔ file.progress = file.size := by
  unfold thousandths
  split_ifs with hsize
  · exact scaled_eq_iff (by decide) hsize h.le
  · have hnonneg := h.nonneg
    have hle := h.le
    exact iff_of_true rfl (by omega)

theorem FileStatus.thousandths_mono (hsize : file.size = file'.size)
    (hle : file.progress ≤ file'.progress) : file.thousandths ≤ file'.thousandths := by
  unfold thousandths
  rw [hsize]
  split_ifs with hpos
  · exact scaled_mono (by decide) hpos hle
  · exact le_rfl

theorem fileProgress_eq (h : file.Partial) : fileProgress file = file.thousandths := by
  have hnonneg := FileStatus.thousandths_nonneg h
  have hle := FileStatus.thousandths_le h
  obtain ⟨h0, hprogress, hlt⟩ := h
  unfold fileProgress FileStatus.thousandths at *
  split_ifs at * with hsize
  · rw [toLong_of_isLong ⟨by omega, by omega⟩, Int.tdiv_eq_ediv_of_nonneg (by omega)]
    exact toInt_of_isInt ⟨by unfold scaled at *; omega, by unfold scaled at *; omega⟩
  · rfl

end File

/-! ### The average of a torrent -/

/-- The sum of numbers up to 1000 does not wrap around. -/
theorem foldl_fileProgress {files : List FileStatus} (h : ∀ file ∈ files, file.Partial) {acc : ℤ}
    (h0 : 0 ≤ acc) (hmax : acc + 1000 * files.length ≤ maxInt) :
    files.foldl (fun result file => toInt (result + fileProgress file)) acc =
      acc + (files.map FileStatus.thousandths).sum := by
  induction files generalizing acc with
  | nil => exact (add_zero acc).symm
  | cons file files ih =>
    have hfile := h file List.mem_cons_self
    have hnonneg := FileStatus.thousandths_nonneg hfile
    have hle := FileStatus.thousandths_le hfile
    rw [List.length_cons, Nat.cast_succ] at hmax
    unfold maxInt at *
    rw [List.foldl_cons, fileProgress_eq hfile, toInt_of_isInt ⟨by omega, by omega⟩,
      ih (fun f hf => h f (List.mem_cons_of_mem file hf)) (by omega) (by omega), List.map_cons,
      List.sum_cons, add_assoc]

section Torrent

variable {torrent torrent' : TorrentHandle}

theorem TorrentHandle.Downloading.thousandths_bounds (h : torrent.Downloading) :
    ∀ x ∈ torrent.files.map FileStatus.thousandths, 0 ≤ x ∧ x ≤ 1000 := by
  intro x hx
  obtain ⟨file, hfile, rfl⟩ := List.mem_map.1 hx
  exact ⟨FileStatus.thousandths_nonneg (h.files file hfile),
    FileStatus.thousandths_le (h.files file hfile)⟩

theorem TorrentHandle.Downloading.map_ne_nil (h : torrent.Downloading) :
    torrent.files.map FileStatus.thousandths ≠ [] := by
  rw [Ne, List.map_eq_nil_iff]
  exact List.ne_nil_of_length_pos h.pos

/-- The result is the average of the files' thousandths. -/
theorem torrentProgress_eq (h : torrent.Downloading) :
    torrentProgress torrent = average (torrent.files.map FileStatus.thousandths) := by
  have hlt := h.lt
  have hsum : 0 ≤ (torrent.files.map FileStatus.thousandths).sum :=
    List.sum_nonneg fun x hx => (h.thousandths_bounds x hx).1
  have hdownloading : torrent.hasMetadata = true ∧ ¬ torrent.isSeed = true := by
    rw [h.not_seed]
    exact ⟨h.hasMetadata, by decide⟩
  rw [torrentProgress, if_pos hdownloading,
    foldl_fileProgress h.files le_rfl (by unfold maxInt; omega), zero_add,
    Int.tdiv_eq_ediv_of_nonneg hsum, average, List.length_map]

theorem torrentProgress_bounds (h : torrent.Downloading) :
    0 ≤ torrentProgress torrent ∧ torrentProgress torrent ≤ 1000 := by
  rw [torrentProgress_eq h]
  exact ⟨average_nonneg fun x hx => (h.thousandths_bounds x hx).1,
    average_le h.map_ne_nil fun x hx => (h.thousandths_bounds x hx).2⟩

theorem torrentProgress_eq_iff (h : torrent.Downloading) :
    torrentProgress torrent = 1000 ↔ ∀ file ∈ torrent.files, file.progress = file.size := by
  rw [torrentProgress_eq h, average_eq_iff h.map_ne_nil fun x hx => (h.thousandths_bounds x hx).2,
    List.forall_mem_map]
  exact forall₂_congr fun file hfile => FileStatus.thousandths_eq_iff (h.files file hfile)

theorem torrentProgress_mono (h : torrent.Downloading) (h' : torrent'.Downloading)
    (hgrows : torrent.Grows torrent') : torrentProgress torrent ≤ torrentProgress torrent' := by
  rw [torrentProgress_eq h, torrentProgress_eq h']
  refine average_mono ?_
  rw [List.forall₂_map_left_iff, List.forall₂_map_right_iff]
  exact hgrows.imp fun file file' hfile => FileStatus.thousandths_mono hfile.1 hfile.2

theorem getTorrentProgress_eq {gTorrents : Sha1Hash → Option TorrentHandle}
    {hashCode : Option JavaString} {hash : Sha1Hash}
    (he : enter true gTorrents hashCode = .ok (some (hash, torrent))) :
    getTorrentProgress true gTorrents hashCode = .ok (torrentProgress torrent) := by
  rw [getTorrentProgress, operation, he]

/-- **The progress of a torrent that is not seeding is a number from 0 to 1000, which is 1000 when
all files are complete and only then, and does not fall when files grow.** -/
theorem getTorrentProgress_scale {gTorrents : Sha1Hash → Option TorrentHandle}
    {hashCode : Option JavaString} {hash : Sha1Hash}
    (he : enter true gTorrents hashCode = .ok (some (hash, torrent))) (h : torrent.Downloading) :
    ∃ result, getTorrentProgress true gTorrents hashCode = .ok result ∧
      0 ≤ result ∧ result ≤ 1000 ∧
      (result = 1000 ↔ ∀ file ∈ torrent.files, file.progress = file.size) ∧
      ∀ gTorrents' hash' torrent', enter true gTorrents' hashCode = .ok (some (hash', torrent')) →
        torrent'.Downloading → torrent.Grows torrent' →
        ∃ result', getTorrentProgress true gTorrents' hashCode = .ok result' ∧ result ≤ result' := by
  obtain ⟨hnonneg, hle⟩ := torrentProgress_bounds h
  refine ⟨_, getTorrentProgress_eq he, hnonneg, hle, torrentProgress_eq_iff h, ?_⟩
  intro gTorrents' hash' torrent' he' h' hgrows
  exact ⟨_, getTorrentProgress_eq he', torrentProgress_mono h h' hgrows⟩

end Torrent

/-- An empty file and one of which 999 bytes of 1000 are there. -/
def almostComplete : TorrentHandle := ⟨true, false, [⟨0, 0⟩, ⟨1000, 999⟩]⟩

theorem getTorrentProgress_almostComplete : ∃ result,
    getTorrentProgress true (fun _ => some almostComplete) (some (List.replicate 40 0x30)) =
      .ok result ∧ 0 ≤ result ∧ result ≤ 1000 ∧ result ≠ 1000 := by
  have he : enter true (fun _ => some almostComplete) (some (List.replicate 40 0x30)) =
      .ok (some (zeroHash, almostComplete)) := enter_eq_ok_iff.2 ⟨by decide, by decide, rfl⟩
  have h : almostComplete.Downloading := by
    refine ⟨rfl, rfl, by decide, by decide, ?_⟩
    intro file hfile
    simp only [almostComplete, List.mem_cons, List.not_mem_nil, or_false] at hfile
    rcases hfile with rfl | rfl
    · exact ⟨by decide, by decide, by decide⟩
    · exact ⟨by decide, by decide, by decide⟩
  obtain ⟨result, hresult, hnonneg, hle, hiff, -⟩ := getTorrentProgress_scale he h
  refine ⟨result, hresult, hnonneg, hle, fun hfull => ?_⟩
  have hcomplete := hiff.1 hfull ⟨1000, 999⟩ (by simp [almostComplete])
  exact absurd hcomplete (by decide)

end P2Player.Native
