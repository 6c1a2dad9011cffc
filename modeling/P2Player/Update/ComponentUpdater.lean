import Mathlib.Tactic
import P2Player.Java.Text

/-!
# The components of an update

`ComponentUpdater.update` collects the files of all components and starts the update tool with their
paths.  A file that is there and has the right checksum is used again.  Otherwise it is downloaded to
a `.part` file, which is verified and moved.

* `downloadComponent`, `downloadComponents`, `update`: the state in which the tool is started;
* `Verified`: the paths are those of the components, and the files have their checksums;
* `Consistent`: no component spoils the file of another one;
* `safe_iff`: when the tool is started with verified files only.

Each file is verified when it is collected, not when the tool is started.
-/

namespace P2Player.Update

open Java

/-! ### Files -/

/-- `updateFolder` and `updateLib`. -/
inductive Folder
  | updateFolder
  | updateLib
  deriving DecidableEq

/-- A `File`: its folder and its name, which may have any characters. -/
structure Path where
  folder : Folder
  name : JString
  deriving DecidableEq

/-- What the updater runs on: the file that a path leads to, the digest of a content with `none` for an
unknown `hasher`, and the `toLowerCase(toUpperCase(c))` of `equalsIgnoreCase`. -/
structure Platform (α : Type) where
  locate : Path → α
  getHash : List UInt8 → Option JString
  fold : Char → Char

variable {α : Type} (P : Platform α)

/-- `equalsIgnoreCase`. -/
def Platform.equalsIgnoreCase (s t : JString) : Bool := s.map P.fold = t.map P.fold

/-- `Files.move` with `REPLACE_EXISTING`, which has no effect on one and the same file. -/
def move [DecidableEq α] (files : α → Option (List UInt8)) (source target : α) : α → Option (List UInt8) :=
  if source = target then files
  else Function.update (Function.update files target (files source)) source none

/-! ### Components -/

/-- An entry of `main` or `lib`. -/
structure Component where
  link : JString
  name : JString
  checksum : JString

/-- How a file is read by `getHash`. -/
inductive Read
  | done
  | ioException
  | interrupted

/-- How `downloader.download` ends, with the content that was saved. -/
inductive Download
  | completed (content : List UInt8)
  | failed
  | threw

/-- What happens to a component. -/
structure Attempt where
  readTarget : Read
  urlValid : Bool
  download : Download
  readTemp : Read
  moved : Bool

/-- `UpdateChecker.ErrorCode`. -/
inductive ErrorCode
  | networkError
  | corruptData

/-- How a component fails: false is returned after the listener was told, or an exception is thrown. -/
inductive Failure
  | downloadFailed (code : ErrorCode)
  | threw

/-- A component with its folder and with what happens to it. -/
structure Entry where
  folder : Folder
  component : Component
  attempt : Attempt

/-- `target`. -/
def Entry.target (e : Entry) : Path := ⟨e.folder, e.component.name⟩

/-- `temp`. -/
def Entry.temp (e : Entry) : Path := ⟨e.folder, e.component.name ++ ".part".toList⟩

/-- The files and the list `components`. -/
structure State (α : Type) where
  files : α → Option (List UInt8)
  components : List Path := []

/-- `verify` of a file with some content. -/
def verify (read : Read) (content : List UInt8) (checksum : JString) : Except Failure Bool :=
  match read with
  | .done =>
    match P.getHash content with
    | some hash => .ok (P.equalsIgnoreCase checksum hash)
    | none => .ok false
  | .ioException => .ok false
  | .interrupted => .error .threw

/-- The content has the checksum. -/
def Platform.Matches (checksum : JString) (content : List UInt8) : Prop :=
  ∃ hash, P.getHash content = some hash ∧ P.equalsIgnoreCase checksum hash = true

section

variable {P} {t u : JString}

theorem equalsIgnoreCase_iff :
    P.equalsIgnoreCase t u = true ↔ t.map P.fold = u.map P.fold := decide_eq_true_iff

/-- A content has one checksum. -/
theorem equalsIgnoreCase_of_matches {content : List UInt8}
    (ht : P.Matches t content) (hu : P.Matches u content) : P.equalsIgnoreCase t u = true := by
  obtain ⟨hash, hhash, heq⟩ := ht
  obtain ⟨hash', hhash', heq'⟩ := hu
  obtain rfl := Option.some.inj (hhash.symm.trans hhash')
  rw [equalsIgnoreCase_iff] at heq heq' ⊢
  exact heq.trans heq'.symm

theorem matches_of_equalsIgnoreCase {content : List UInt8}
    (hu : P.Matches u content) (h : P.equalsIgnoreCase t u = true) : P.Matches t content := by
  obtain ⟨hash, hhash, heq⟩ := hu
  rw [equalsIgnoreCase_iff] at h heq
  exact ⟨hash, hhash, equalsIgnoreCase_iff.2 (h.trans heq)⟩

theorem verify_eq_true {read : Read} {content : List UInt8} {checksum : JString}
    (h : verify P read content checksum = .ok true) : P.Matches checksum content := by
  unfold verify at h
  cases read with
  | done =>
    cases hhash : P.getHash content with
    | some hash =>
      rw [hhash] at h
      exact ⟨hash, hhash, Except.ok.inj h⟩
    | none =>
      rw [hhash] at h
      cases h
  | ioException => cases h
  | interrupted => cases h

end

/-- `target.isFile() && verify(target, hasher, hash)`. -/
def isThere (e : Entry) (s : State α) : Except Failure Bool :=
  match s.files (P.locate e.target) with
  | some content => verify P e.attempt.readTarget content e.component.checksum
  | none => .ok false

/-- The file of the entry is there and is used again. -/
def Reused (e : Entry) (s : State α) : Prop := isThere P e s = .ok true

variable {P} in
/-- What is used again has the checksum. -/
theorem matches_of_reused {e : Entry} {s : State α} (h : Reused P e s) : ∃ content,
    s.files (P.locate e.target) = some content ∧ P.Matches e.component.checksum content := by
  unfold Reused isThere at h
  cases hfile : s.files (P.locate e.target) with
  | some content =>
    rw [hfile] at h
    exact ⟨content, rfl, verify_eq_true h⟩
  | none =>
    rw [hfile] at h
    cases h

variable [DecidableEq α]

/-- `downloadComponent`. -/
def downloadComponent (e : Entry) (s : State α) : Except Failure (State α) :=
  match isThere P e s with
  | .error failure => .error failure
  | .ok true => .ok { s with components := s.components ++ [e.target] }
  | .ok false =>
    if e.attempt.urlValid then
      match e.attempt.download with
      | .threw => .error .threw
      | .failed => .error (.downloadFailed .networkError)
      | .completed content =>
        let files := Function.update s.files (P.locate e.temp) (some content)
        match verify P e.attempt.readTemp content e.component.checksum with
        | .error failure => .error failure
        | .ok true =>
          if e.attempt.moved then
            .ok
              { files := move files (P.locate e.temp) (P.locate e.target)
                components := s.components ++ [e.target] }
          else .error .threw
        | .ok false => .error (.downloadFailed .corruptData)
    else .error .threw

/-- `downloadComponents`. -/
def downloadComponents : List Entry → State α → Except Failure (State α)
  | [], s => .ok s
  | e :: es, s => (downloadComponent P e s).bind (downloadComponents es)

/-- The entries of an array, in its folder. -/
def entriesOf (folder : Folder) (components : List (Component × Attempt)) : List Entry :=
  components.map fun c => ⟨folder, c.1, c.2⟩

/-- `update`: the state in which `performUpdate` is called, if it is. -/
def update (main lib : List (Component × Attempt)) (downloadCompleted : Bool)
    (files : α → Option (List UInt8)) : Option (State α) :=
  match (downloadComponents P (entriesOf .updateFolder main) { files }).bind
      (downloadComponents P (entriesOf .updateLib lib)) with
  | .ok s => if downloadCompleted then some s else none
  | .error _ => none

/-! ### What is right, and when -/

/-- The paths are those of the entries in order, and the content of each file has the checksum of its
entry. -/
structure Verified (entries : List Entry) (s : State α) : Prop where
  components : s.components = entries.map Entry.target
  files : ∀ e ∈ entries, ∃ content, s.files (P.locate e.target) = some content ∧
    P.Matches e.component.checksum content

/-- Entries with one file have one checksum.  An entry that is not there, in the state `s` before it,
does not have its `.part` file on the file of an entry before it, unless an entry behind it has this
file again. -/
structure Consistent (entries : List Entry) (s₀ : State α) : Prop where
  checksums : ∀ e ∈ entries, ∀ e' ∈ entries, P.locate e.target = P.locate e'.target →
    P.equalsIgnoreCase e.component.checksum e'.component.checksum = true
  parts : ∀ before e behind s, entries = before ++ e :: behind →
    downloadComponents P before s₀ = .ok s → ¬ Reused P e s →
      P.locate e.temp ≠ P.locate e.target →
      (∃ d ∈ before, P.locate d.target = P.locate e.temp) →
        ∃ d ∈ behind, P.locate d.target = P.locate e.temp

/-! ### One component -/

section

variable {P} {e : Entry} {s s' : State α}

/-- What one component does: nothing to the files when it is used again, and else its file gets a content
with the checksum and its `.part` file is gone. -/
theorem downloadComponent_cases (h : downloadComponent P e s = .ok s') :
    s'.components = s.components ++ [e.target] ∧
      ((Reused P e s ∧ s'.files = s.files) ∨
        (¬ Reused P e s ∧ ∃ content, P.Matches e.component.checksum content ∧
          s'.files = move (Function.update s.files (P.locate e.temp) (some content))
            (P.locate e.temp) (P.locate e.target))) := by
  unfold downloadComponent at h
  split at h
  · cases h
  · rename_i hthere
    cases h
    exact ⟨rfl, Or.inl ⟨hthere, rfl⟩⟩
  · rename_i hthere
    have hnot : ¬ Reused P e s := by
      unfold Reused
      rw [hthere]
      exact fun h => by cases h
    split at h
    · split at h
      · cases h
      · cases h
      · rename_i content _
        dsimp only at h
        split at h
        · cases h
        · rename_i hverify
          split_ifs at h
          cases h
          exact ⟨rfl, Or.inr ⟨hnot, content, verify_eq_true hverify, rfl⟩⟩
        · cases h
    · cases h

/-- Afterwards the file of the component has a content with the checksum. -/
theorem file_of_downloadComponent (h : downloadComponent P e s = .ok s') : ∃ content,
    s'.files (P.locate e.target) = some content ∧ P.Matches e.component.checksum content := by
  obtain ⟨-, ⟨hreused, hfiles⟩ | ⟨-, content, hmatches, hfiles⟩⟩ := downloadComponent_cases h
  · rw [hfiles]
    exact matches_of_reused hreused
  · refine ⟨content, ?_, hmatches⟩
    rw [hfiles, move]
    split_ifs with hsame
    · rw [← hsame, Function.update_self]
    · rw [Function.update_of_ne (Ne.symm hsame), Function.update_self, Function.update_self]

/-- Another file is left alone, unless it is the `.part` file. -/
theorem file_of_ne (h : downloadComponent P e s = .ok s') {f : α} (htarget : P.locate e.target ≠ f)
    (htemp : ¬ Reused P e s → P.locate e.temp ≠ f) : s'.files f = s.files f := by
  obtain ⟨-, ⟨-, hfiles⟩ | ⟨hnot, content, -, hfiles⟩⟩ := downloadComponent_cases h
  · rw [hfiles]
  · have hne := htemp hnot
    rw [hfiles, move]
    split_ifs with hsame
    · rw [Function.update_of_ne hne.symm]
    · rw [Function.update_of_ne hne.symm, Function.update_of_ne htarget.symm,
        Function.update_of_ne hne.symm]

/-- The `.part` file is gone. -/
theorem file_temp (h : downloadComponent P e s = .ok s') (hnot : ¬ Reused P e s)
    (hne : P.locate e.temp ≠ P.locate e.target) : s'.files (P.locate e.temp) = none := by
  obtain ⟨-, ⟨hreused, -⟩ | ⟨-, content, -, hfiles⟩⟩ := downloadComponent_cases h
  · exact absurd hreused hnot
  · rw [hfiles, move, if_neg hne, Function.update_self]

/-- What is gone is not brought back by another component. -/
theorem file_none (h : downloadComponent P e s = .ok s') {f : α} (htarget : P.locate e.target ≠ f)
    (hnone : s.files f = none) : s'.files f = none := by
  by_cases htemp : ¬ Reused P e s ∧ P.locate e.temp = f
  · obtain ⟨hnot, rfl⟩ := htemp
    exact file_temp h hnot htarget.symm
  · rw [file_of_ne h htarget fun hnot heq => htemp ⟨hnot, heq⟩, hnone]

end

/-! ### All components -/

section

variable {P} {es es' : List Entry} {s s' : State α}

theorem downloadComponents_cons {e : Entry} (h : downloadComponents P (e :: es) s = .ok s') :
    ∃ t, downloadComponent P e s = .ok t ∧ downloadComponents P es t = .ok s' := by
  rw [downloadComponents] at h
  cases ht : downloadComponent P e s with
  | ok t =>
    rw [ht] at h
    exact ⟨t, rfl, h⟩
  | error failure =>
    rw [ht] at h
    cases h

theorem downloadComponents_append : downloadComponents P (es ++ es') s =
    (downloadComponents P es s).bind (downloadComponents P es') := by
  induction es generalizing s with
  | nil => rfl
  | cons e es ih =>
    rw [List.cons_append, downloadComponents, downloadComponents]
    cases downloadComponent P e s with
    | ok t => exact ih
    | error failure => rfl

theorem downloadComponents_split (h : downloadComponents P (es ++ es') s = .ok s') :
    ∃ t, downloadComponents P es s = .ok t ∧ downloadComponents P es' t = .ok s' := by
  rw [downloadComponents_append] at h
  cases ht : downloadComponents P es s with
  | ok t =>
    rw [ht] at h
    exact ⟨t, rfl, h⟩
  | error failure =>
    rw [ht] at h
    cases h

theorem components_of_downloadComponents (h : downloadComponents P es s = .ok s') :
    s'.components = s.components ++ es.map Entry.target := by
  induction es generalizing s with
  | nil =>
    cases h
    rw [List.map_nil, List.append_nil]
  | cons e es ih =>
    obtain ⟨t, he, ht⟩ := downloadComponents_cons h
    rw [ih ht, (downloadComponent_cases he).1, List.append_assoc]
    rfl

/-- Components with other files leave a file alone, unless it is the `.part` file of one of them. -/
theorem files_of_downloadComponents (h : downloadComponents P es s = .ok s') {f : α}
    (htarget : ∀ e ∈ es, P.locate e.target ≠ f)
    (htemp : ∀ before e behind t, es = before ++ e :: behind →
      downloadComponents P before s = .ok t → ¬ Reused P e t → P.locate e.temp ≠ f) :
    s'.files f = s.files f := by
  induction es generalizing s with
  | nil =>
    cases h
    rfl
  | cons e es ih =>
    obtain ⟨t, he, ht⟩ := downloadComponents_cons h
    have hrest := ih ht (fun d hd => htarget d (List.mem_cons_of_mem e hd))
      fun before d behind u hsplit hu => htemp (e :: before) d behind u (by rw [hsplit]; rfl)
        (by rw [downloadComponents, he]; exact hu)
    rw [hrest]
    exact file_of_ne he (htarget e List.mem_cons_self) (htemp [] e es s rfl rfl)

theorem files_none (h : downloadComponents P es s = .ok s') {f : α}
    (htarget : ∀ e ∈ es, P.locate e.target ≠ f) (hnone : s.files f = none) :
    s'.files f = none := by
  induction es generalizing s with
  | nil =>
    cases h
    exact hnone
  | cons e es ih =>
    obtain ⟨t, he, ht⟩ := downloadComponents_cons h
    exact ih ht (fun d hd => htarget d (List.mem_cons_of_mem e hd))
      (file_none he (htarget e List.mem_cons_self) hnone)

end

/-! ### The main result -/

/-- The last element of a list with a property. -/
theorem exists_last {β : Type} {p : β → Prop} {l : List β} (h : ∃ x ∈ l, p x) :
    ∃ before x behind, l = before ++ x :: behind ∧ p x ∧ ∀ y ∈ behind, ¬ p y := by
  induction l with
  | nil =>
    obtain ⟨x, hx, -⟩ := h
    cases hx
  | cons a l ih =>
    by_cases hl : ∃ x ∈ l, p x
    · obtain ⟨before, x, behind, rfl, hx⟩ := ih hl
      exact ⟨a :: before, x, behind, rfl, hx⟩
    · obtain ⟨x, hx, hpx⟩ := h
      rcases List.mem_cons.1 hx with rfl | hx
      · exact ⟨[], x, l, rfl, hpx, fun y hy hpy => hl ⟨y, hy, hpy⟩⟩
      · exact absurd ⟨x, hx, hpx⟩ hl

section

variable {P} {entries : List Entry} {s₀ s : State α}

theorem consistent_of_verified (h : downloadComponents P entries s₀ = .ok s)
    (hv : Verified P entries s) : Consistent P entries s₀ := by
  constructor
  · intro e he e' he' hsame
    obtain ⟨content, hfile, hmatches⟩ := hv.files e he
    obtain ⟨content', hfile', hmatches'⟩ := hv.files e' he'
    rw [hsame] at hfile
    obtain rfl := Option.some.inj (hfile.symm.trans hfile')
    exact equalsIgnoreCase_of_matches hmatches hmatches'
  · rintro before e behind t hsplit ht hnot hne ⟨d, hd, hfile⟩
    by_contra hnone
    -- the file of `d` is gone after `e`, and nothing brings it back
    rw [hsplit] at h
    obtain ⟨t', ht', hrest⟩ := downloadComponents_split h
    obtain rfl := Except.ok.inj (ht.symm.trans ht')
    obtain ⟨u, hu, hbehind⟩ := downloadComponents_cons hrest
    have hgone := files_none hbehind (fun k hk heq => hnone ⟨k, hk, heq⟩) (file_temp hu hnot hne)
    obtain ⟨content, hcontent, -⟩ := hv.files d (by rw [hsplit]; exact List.mem_append_left _ hd)
    rw [hfile, hgone] at hcontent
    cases hcontent

theorem verified_of_consistent (h : downloadComponents P entries s₀ = .ok s)
    (hstart : s₀.components = []) (hc : Consistent P entries s₀) : Verified P entries s := by
  refine ⟨?_, fun e he => ?_⟩
  · rw [components_of_downloadComponents h, hstart, List.nil_append]
  · obtain ⟨before, m, behind, hsplit, hm, hlast⟩ :=
      exists_last (p := fun d => P.locate d.target = P.locate e.target) ⟨e, he, rfl⟩
    rw [hsplit] at h
    obtain ⟨t, ht, hrest⟩ := downloadComponents_split h
    obtain ⟨u, hu, hbehind⟩ := downloadComponents_cons hrest
    obtain ⟨content, hcontent, hmatches⟩ := file_of_downloadComponent hu
    rw [hm] at hcontent
    have hkeep := files_of_downloadComponents hbehind hlast ?_
    · refine ⟨content, by rw [hkeep, hcontent], matches_of_equalsIgnoreCase hmatches ?_⟩
      exact hc.checksums e he m (by rw [hsplit]; simp) hm.symm
    · intro b k c t' hsplit' ht' hnot htemp
      have hk : P.locate k.target ≠ P.locate e.target := hlast k (by rw [hsplit']; simp)
      obtain ⟨d, hd, hfile⟩ := hc.parts (before ++ m :: b) k c t'
        (by rw [hsplit, hsplit', List.append_assoc]; rfl)
        (by rw [downloadComponents_append, ht]
            show downloadComponents P (m :: b) t = _
            rw [downloadComponents, hu]
            exact ht')
        hnot (by rw [htemp]; exact hk.symm) ⟨m, by simp, by rw [hm, htemp]⟩
      exact hlast d (by rw [hsplit']; simp [hd]) (by rw [hfile, htemp])

end

/-- All components in order. -/
def allEntries (main lib : List (Component × Attempt)) : List Entry :=
  entriesOf .updateFolder main ++ entriesOf .updateLib lib

/-- The tool is started with verified files only, and not at all when a component fails. -/
structure Safe (main lib : List (Component × Attempt)) (downloadCompleted : Bool)
    (files : α → Option (List UInt8)) : Prop where
  verified : ∀ s, update P main lib downloadCompleted files = some s →
    Verified P (allEntries main lib) s
  fails : ∀ before e behind t failure, allEntries main lib = before ++ e :: behind →
    downloadComponents P before { files } = .ok t → downloadComponent P e t = .error failure →
      update P main lib downloadCompleted files = none

theorem update_eq_some_iff {main lib : List (Component × Attempt)} {downloadCompleted : Bool}
    {files : α → Option (List UInt8)} {s : State α} :
    update P main lib downloadCompleted files = some s ↔
      downloadComponents P (allEntries main lib) { files } = .ok s ∧ downloadCompleted = true := by
  rw [allEntries, downloadComponents_append, update]
  cases (downloadComponents P (entriesOf .updateFolder main) { files }).bind
      (downloadComponents P (entriesOf .updateLib lib)) with
  | ok t => cases downloadCompleted <;> simp
  | error failure => simp

/-- **Verified updates.** For all components and whatever happens to them, the tool is started with
verified files only exactly when the components are consistent whenever it is started. -/
theorem safe_iff (main lib : List (Component × Attempt)) (downloadCompleted : Bool)
    (files : α → Option (List UInt8)) :
    Safe P main lib downloadCompleted files ↔
      (update P main lib downloadCompleted files ≠ none →
        Consistent P (allEntries main lib) { files }) := by
  constructor
  · intro h hstarted
    obtain ⟨s, hs⟩ := Option.ne_none_iff_exists'.1 hstarted
    exact consistent_of_verified ((update_eq_some_iff P).1 hs).1 (h.verified s hs)
  · intro h
    refine ⟨fun s hs => ?_, fun before e behind t failure hsplit ht he => ?_⟩
    · exact verified_of_consistent ((update_eq_some_iff P).1 hs).1 rfl
        (h (by rw [hs]; exact Option.some_ne_none s))
    · rw [Option.eq_none_iff_forall_ne_some]
      intro s hs
      have hrun := ((update_eq_some_iff P).1 hs).1
      rw [hsplit, downloadComponents_append, ht] at hrun
      replace hrun : (downloadComponent P e t).bind (downloadComponents P behind) = .ok s := hrun
      rw [he] at hrun
      cases hrun

/-! ### Two components with one name -/

/-- A component `a` with its checksum, which is downloaded with the content given. -/
def componentA (checksum : JString) (content : List UInt8) : Component × Attempt :=
  (⟨['l'], ['a'], checksum⟩, ⟨.done, true, .completed content, .done, true⟩)

/-- Every path is a file of its own, and the digest of a content is its first byte. -/
def bytePlatform : Platform Path where
  locate := id
  getHash := fun content => content.head?.map fun b => [Char.ofNat b.toNat]
  fold := id

/-- The first file is replaced by the second one, and the tool is started. -/
theorem not_safe_one_name :
    ¬ Safe bytePlatform [componentA ['1'] [49], componentA ['2'] [50]] [] true fun _ => none := by
  intro h
  obtain ⟨content, hcontent, hash, hhash, heq⟩ := (h.verified _ rfl).files
    ⟨.updateFolder, (componentA ['1'] [49]).1, (componentA ['1'] [49]).2⟩ List.mem_cons_self
  obtain rfl : [50] = content := Option.some.inj hcontent
  obtain rfl : ['2'] = hash := Option.some.inj hhash
  exact absurd heq (by decide)

end P2Player.Update
