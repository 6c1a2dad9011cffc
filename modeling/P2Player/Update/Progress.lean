import P2Player.Java.Integer

/-!
# Reporting the progress of a download

`ComponentUpdater` downloads with a `SingleDownloader`, `SetupUpdater` with a `MultipartDownloader`.
The listener of both divides the bytes downloaded so far by the length that the server has announced.

* `Call`, `listen`: the listener;
* `Step`, `Run`, `Downloader.Runs`: the chunks and the times at which progress is reported;
* `Sound`: no call raises an exception, and all values are between 0 and 1000;
* `Reportable`: the lengths and bodies for which the quotient is right;
* `sound_iff`: these are the ones for which every run is sound.
-/

namespace P2Player.Update.Progress

open Java

/-! ### The listener -/

/-- The calls of a `DownloadListener`. -/
inductive Call
  | onStart
  | onProgress (downloaded total : ℤ)
  | onCompleted
  | onFailed

/-- The `downloadProgress` values of the listener's answer, or its `ArithmeticException`. -/
def listen : Call → Except Unit (List ℤ)
  | .onProgress downloaded total =>
    if total = 0 then .error ()
    else .ok [toInt (toLong ((toLong (downloaded * 1000)).tdiv total))]
  | .onCompleted => .ok [1000]
  | .onStart | .onFailed => .ok []

/-! ### The downloaders -/

/-- A chunk is added to `downloaded`, or `onProgress` is called. -/
inductive Step
  | chunk (length : ℕ)
  | report

/-- `downloaded` at each report. -/
def reported : ℤ → List Step → List ℤ
  | _, [] => []
  | downloaded, .chunk length :: steps => reported (toLong (downloaded + length)) steps
  | downloaded, .report :: steps => downloaded :: reported downloaded steps

/-- The chunks of the steps. -/
def chunks : List Step → List ℕ
  | [] => []
  | .chunk length :: steps => length :: chunks steps
  | .report :: steps => chunks steps

/-- How a download ends after its last step. -/
inductive End
  | completed
  | failed
  | interrupted

/-- `onCompleted` or `onFailed`. -/
def End.calls : End → List Call
  | .completed => [.onCompleted]
  | .failed => [.onFailed]
  | .interrupted => []

/-- A download.  `locked` tells whether `MultipartDownloader` reports that it cannot delete the target,
after which it goes on. -/
structure Run where
  locked : Bool
  steps : List Step
  «end» : End

/-- The calls of the listener. -/
def Run.calls (run : Run) (total : ℤ) : List Call :=
  .onStart :: (if run.locked then [.onFailed] else []) ++
    (0 :: reported 0 run.steps).map (.onProgress · total) ++ run.end.calls

/-- `SingleDownloader` and `MultipartDownloader`. -/
inductive Downloader
  | single
  | multipart

/-- A report after each chunk. -/
def eachReported (body : List ℕ) : List Step := body.flatMap fun length => [.chunk length, .report]

/-- The runs on the chunks of a body.  `SingleDownloader` reports after each chunk;
`MultipartDownloader` when a wait for a part times out, which may be at any time. -/
def Downloader.Runs : Downloader → List ℕ → Run → Prop
  | .single, body, run => run.locked = false ∧ run.steps = eachReported body
  | .multipart, body, run => chunks run.steps = body

/-! ### What is reported -/

/-- No call raises an exception, and all reported values are between 0 and 1000. -/
def Sound (total : ℤ) (run : Run) : Prop :=
  ∀ c ∈ run.calls total, ∃ values, listen c = .ok values ∧ ∀ v ∈ values, 0 ≤ v ∧ v ≤ 1000

/-- The length is unknown and the body is empty; or it is not 0, and at no chunk a thousand times the
bytes so far is, modulo `2 ^ 64`, from `2 ^ 63` to `2 ^ 64` minus the length. -/
def Reportable (total : ℤ) (body : List ℕ) : Prop :=
  (total = -1 ∧ body = []) ∨ (1 ≤ total ∧ ∀ read, read <+: body →
    (1000 * read.sum : ℤ) % 2 ^ 64 < 2 ^ 63 ∨ 2 ^ 64 - total < (1000 * read.sum : ℤ) % 2 ^ 64)

/-! ### One report -/

/-- The value that is reported for `downloaded` bytes. -/
def value (total downloaded : ℤ) : ℤ := toInt (toLong ((toLong (downloaded * 1000)).tdiv total))

theorem sound_iff_reported {total : ℤ} {run : Run} :
    Sound total run ↔ ∀ d ∈ 0 :: reported 0 run.steps, total ≠ 0 ∧ 0 ≤ value total d ∧
      value total d ≤ 1000 := by
  constructor
  · intro h d hd
    obtain ⟨values, hlisten, hvalues⟩ := h (.onProgress d total) (by
      simp only [Run.calls, List.mem_append, List.mem_map]
      exact Or.inl (Or.inr ⟨d, hd, rfl⟩))
    rw [listen] at hlisten
    split_ifs at hlisten with h0
    cases hlisten
    exact ⟨h0, hvalues _ (List.mem_singleton.2 rfl)⟩
  · intro h c hc
    simp only [Run.calls, List.mem_append, List.mem_map, List.mem_cons] at hc
    rcases hc with (hc | ⟨d, hd, rfl⟩) | hc
    · have hnone : listen c = .ok [] := by
        split_ifs at hc <;> simp at hc
        · rcases hc with rfl | rfl <;> rfl
        · rw [hc]
          rfl
      exact ⟨[], hnone, fun v hv => absurd hv List.not_mem_nil⟩
    · obtain ⟨h0, hvalue⟩ := h d (List.mem_cons.2 hd)
      exact ⟨[value total d], if_neg h0, fun v hv => by rw [List.mem_singleton.1 hv]; exact hvalue⟩
    · cases hend : run.end with
      | completed =>
        rw [hend] at hc
        cases List.mem_singleton.1 hc
        exact ⟨[1000], rfl, fun v hv => by rw [List.mem_singleton.1 hv]; decide⟩
      | failed =>
        rw [hend] at hc
        cases List.mem_singleton.1 hc
        exact ⟨[], rfl, fun v hv => absurd hv List.not_mem_nil⟩
      | interrupted =>
        rw [hend] at hc
        exact absurd hc List.not_mem_nil

/-- With a length, a value is out of range when the product has become negative and is not divided away. -/
theorem value_iff {total d : ℤ} (hlong : IsLong total) (htotal : 1 ≤ total) (h0 : 0 ≤ d)
    (hle : d ≤ total) : (0 ≤ value total d ∧ value total d ≤ 1000) ↔
      (1000 * d) % 2 ^ 64 < 2 ^ 63 ∨ 2 ^ 64 - total < (1000 * d) % 2 ^ 64 := by
  obtain ⟨-, hmax⟩ := hlong
  rcases lt_or_ge ((1000 * d) % 2 ^ 64) (2 ^ 63) with hr | hr
  · have hwrap : toLong (d * 1000) = (1000 * d) % 2 ^ 64 := by
      unfold toLong
      omega
    have hquot : (1000 * d) % 2 ^ 64 / total ≤ 1000 :=
      Int.ediv_le_of_le_mul (by omega) (by omega)
    have hquot0 : 0 ≤ (1000 * d) % 2 ^ 64 / total := Int.ediv_nonneg (by omega) (by omega)
    have hvalue : value total d = (1000 * d) % 2 ^ 64 / total := by
      rw [value, hwrap, Int.tdiv_eq_ediv_of_nonneg (by omega), toLong_of_isLong ⟨by omega, by omega⟩,
        toInt_of_isInt ⟨by omega, by omega⟩]
    rw [hvalue]
    exact ⟨fun _ => Or.inl hr, fun _ => ⟨hquot0, hquot⟩⟩
  · have hwrap : toLong (d * 1000) = -(2 ^ 64 - (1000 * d) % 2 ^ 64) := by
      unfold toLong
      omega
    have hprod : (1000 * d) % 2 ^ 64 ≤ 1000 * d := by
      have hquot0 : 0 ≤ (1000 * d) / 2 ^ 64 := Int.ediv_nonneg (by omega) (by norm_num)
      have hdef := Int.emod_def (1000 * d) (2 ^ 64)
      omega
    have hquot : (2 ^ 64 - (1000 * d) % 2 ^ 64) / total ≤ 1000 :=
      Int.ediv_le_of_le_mul (by omega) (by omega)
    have hquot0 : 0 ≤ (2 ^ 64 - (1000 * d) % 2 ^ 64) / total := Int.ediv_nonneg (by omega) (by omega)
    have hvalue : value total d = -((2 ^ 64 - (1000 * d) % 2 ^ 64) / total) := by
      rw [value, hwrap, Int.neg_tdiv, Int.tdiv_eq_ediv_of_nonneg (by omega),
        toLong_of_isLong ⟨by omega, by omega⟩, toInt_of_isInt ⟨by omega, by omega⟩]
    have hzero : (2 ^ 64 - (1000 * d) % 2 ^ 64) / total < 1 ↔
        2 ^ 64 - (1000 * d) % 2 ^ 64 < 1 * total := Int.ediv_lt_iff_lt_mul (by omega)
    rw [hvalue]
    omega

/-- Without a length, no byte may be reported. -/
theorem value_neg_one {d : ℤ} (h0 : 0 < d) (hle : d ≤ 8192) : value (-1) d < 0 := by
  have hquot : (d * 1000).tdiv (-1) = -(d * 1000) := by rw [Int.tdiv_neg, Int.tdiv_one]
  have hprod : toLong (d * 1000) = d * 1000 := toLong_of_isLong ⟨by omega, by omega⟩
  rw [value, hprod, hquot, toLong_of_isLong ⟨by omega, by omega⟩,
    toInt_of_isInt ⟨by omega, by omega⟩]
  omega

/-! ### The reports of a run -/

theorem chunks_eachReported (body : List ℕ) : chunks (eachReported body) = body := by
  induction body with
  | nil => rfl
  | cons length body ih =>
    rw [eachReported, List.flatMap_cons, ← eachReported]
    exact congrArg (length :: ·) ih

/-- Every report is about the chunks so far. -/
theorem exists_of_mem_reported {steps : List Step} {a d : ℤ} (h0 : 0 ≤ a)
    (hmax : a + (chunks steps).sum ≤ maxLong) (hd : d ∈ reported a steps) :
    ∃ read, read <+: chunks steps ∧ d = a + read.sum := by
  induction steps generalizing a with
  | nil => exact absurd hd List.not_mem_nil
  | cons step steps ih =>
    cases step with
    | chunk length =>
      have hsum : ((chunks (.chunk length :: steps)).sum : ℤ) = length + (chunks steps).sum := by
        exact_mod_cast List.sum_cons
      have hlong : toLong (a + length) = a + length :=
        toLong_of_isLong ⟨by omega, by rw [hsum] at hmax; unfold maxLong at hmax; omega⟩
      rw [reported, hlong] at hd
      obtain ⟨read, hread, rfl⟩ := ih (by omega) (by omega) hd
      refine ⟨length :: read, List.prefix_cons_inj _ |>.2 hread, ?_⟩
      rw [List.sum_cons, Nat.cast_add, add_assoc]
    | report =>
      rcases List.mem_cons.1 hd with rfl | hd
      · exact ⟨[], List.nil_prefix, by simp⟩
      · exact ih h0 hmax hd

/-- With a report after each chunk, every beginning of the body is reported. -/
theorem mem_reported_eachReported {body read : List ℕ} {a : ℤ} (h0 : 0 ≤ a)
    (hmax : a + body.sum ≤ maxLong) (hread : read <+: body) :
    a + read.sum ∈ a :: reported a (eachReported body) := by
  induction body generalizing a read with
  | nil =>
    rw [List.prefix_nil.1 hread]
    simp
  | cons length body ih =>
    rcases List.prefix_cons_iff.1 hread with rfl | ⟨read, rfl, hread'⟩
    · simp
    · rw [List.sum_cons, Nat.cast_add] at hmax ⊢
      have hlong : toLong (a + length) = a + length :=
        toLong_of_isLong ⟨by omega, by unfold maxLong at hmax; omega⟩
      have hmem := ih (a := a + length) (by omega) (by omega) hread'
      rw [eachReported, List.flatMap_cons, ← eachReported]
      simp only [List.cons_append, List.nil_append, reported, hlong]
      rw [← add_assoc]
      exact List.mem_cons_of_mem _ hmem

theorem Downloader.Runs.chunks_eq {downloader : Downloader} {body : List ℕ} {run : Run}
    (h : downloader.Runs body run) : chunks run.steps = body := by
  cases downloader with
  | single => rw [h.2, chunks_eachReported]
  | multipart => exact h

/-- The run that reports after each chunk. -/
def reportingRun (body : List ℕ) : Run := ⟨false, eachReported body, .completed⟩

theorem runs_reportingRun (downloader : Downloader) (body : List ℕ) :
    downloader.Runs body (reportingRun body) := by
  cases downloader with
  | single => exact ⟨rfl, rfl⟩
  | multipart => exact chunks_eachReported body

section Sound

variable {total : ℤ} {body : List ℕ}

/-- A run that reports the beginnings of a reportable body is sound. -/
theorem sound_of_reportable (hlong : IsLong total) (hbody : 0 ≤ total → body.sum ≤ total)
    (h : Reportable total body) {run : Run} (hrun : chunks run.steps = body) : Sound total run := by
  rw [sound_iff_reported]
  have hmax : total ≤ maxLong := hlong.2
  intro d hd
  rcases h with ⟨rfl, rfl⟩ | ⟨hpos, hwrap⟩
  · have hzero : d = 0 := by
      rcases List.mem_cons.1 hd with hd | hd
      · exact hd
      · obtain ⟨read, hread, rfl⟩ := exists_of_mem_reported le_rfl (by rw [hrun]; decide) hd
        rw [hrun] at hread
        rw [List.prefix_nil.1 hread]
        rfl
    rw [hzero]
    decide
  · obtain ⟨read, hread, rfl⟩ : ∃ read, read <+: body ∧ d = read.sum := by
      rcases List.mem_cons.1 hd with rfl | hd
      · exact ⟨[], List.nil_prefix, rfl⟩
      · obtain ⟨read, hread, rfl⟩ := exists_of_mem_reported le_rfl
          (by rw [hrun]; have := hbody (by omega); omega) hd
        exact ⟨read, hrun ▸ hread, zero_add _⟩
    have hsum : (read.sum : ℤ) ≤ total := by
      have hle : read.sum ≤ body.sum := hread.sublist.sum_le_sum fun _ _ => Nat.zero_le _
      have hbody := hbody (by omega)
      omega
    refine ⟨by omega, (value_iff hlong hpos (Int.natCast_nonneg _) hsum).2 (hwrap read hread)⟩

/-- **Whatever the times of the reports, no call raises an exception and all values are in range,
exactly when the length and the body are reportable.** -/
theorem sound_iff (downloader : Downloader) (htotal : -1 ≤ total) (hlong : IsLong total)
    (hchunk : ∀ length ∈ body, 1 ≤ length ∧ length ≤ 8192)
    (hbody : 0 ≤ total → body.sum ≤ total) :
    (∀ run, downloader.Runs body run → Sound total run) ↔ Reportable total body := by
  have hmax : total ≤ maxLong := hlong.2
  constructor
  · intro h
    have hsound := sound_iff_reported.1 (h _ (runs_reportingRun downloader body))
    have h0 : total ≠ 0 := (hsound 0 List.mem_cons_self).1
    rcases lt_or_ge total 1 with hlt | hpos
    · -- the first chunk would be reported with a negative value
      obtain rfl : total = -1 := by omega
      refine Or.inl ⟨rfl, ?_⟩
      cases body with
      | nil => rfl
      | cons length body =>
        obtain ⟨hlen, hlen'⟩ := hchunk length List.mem_cons_self
        have hlong' : toLong (0 + length) = length := by
          rw [zero_add, toLong_of_isLong ⟨by omega, by omega⟩]
        have hmem : (length : ℤ) ∈ 0 :: reported 0 (reportingRun (length :: body)).steps := by
          rw [reportingRun, eachReported, List.flatMap_cons]
          simp only [List.cons_append, reported, hlong']
          exact List.mem_cons_of_mem _ List.mem_cons_self
        have hneg := value_neg_one (d := length) (by omega) (by omega)
        have hvalue := hsound length hmem
        omega
    · refine Or.inr ⟨hpos, fun read hread => ?_⟩
      have hle : read.sum ≤ body.sum := hread.sublist.sum_le_sum fun _ _ => Nat.zero_le _
      have hsum := hbody (by omega)
      have hmem := mem_reported_eachReported le_rfl (by omega) hread
      rw [zero_add] at hmem
      exact (value_iff hlong hpos (Int.natCast_nonneg _) (by omega)).1 (hsound _ hmem).2
  · intro h run hrun
    exact sound_of_reportable hlong hbody h hrun.chunks_eq

/-- **Every announced length up to a thousandth of the largest `long` is reportable.** -/
theorem reportable_of_le (hpos : 1 ≤ total) (hle : total ≤ maxLong / 1000)
    (hbody : body.sum ≤ total) : Reportable total body := by
  refine Or.inr ⟨hpos, fun read hread => Or.inl ?_⟩
  have hsum : read.sum ≤ body.sum := hread.sublist.sum_le_sum fun _ _ => Nat.zero_le _
  unfold maxLong at hle
  rw [Int.emod_eq_of_lt (by omega) (by omega)]
  omega

end Sound

/-- A body of 10,000 bytes in two chunks, with a report between them and a failure afterwards. -/
theorem sound_twoChunks :
    Sound 10000 ⟨false, [.chunk 8192, .report, .chunk 1808, .report], .failed⟩ :=
  (@sound_iff 10000 [8192, 1808] .multipart (by decide) (by decide) (by decide)
    (fun _ => by decide)).2 (reportable_of_le (by decide) (by decide) (by decide)) _ rfl

/-- A first chunk of a body of unknown length. -/
theorem not_sound_unknown : ¬ ∀ run, Downloader.single.Runs [1] run → Sound (-1) run := by
  intro h
  have hsound := sound_iff_reported.1 (h _ (runs_reportingRun .single [1]))
  have hvalue := hsound 1 (by decide)
  exact absurd hvalue.2.1 (by decide)

end P2Player.Update.Progress
