import P2Player.Java.Text
import P2Player.Lib.PaddedLex

/-!
# Comparing versions

`UpdateChecker.compareVersions` decides whether an update is installed.  It puts a zero before a
version that starts with a dot, replaces everything but digits and dots by dots, and compares the
numbers between them one after the other.

* `compareVersions`: the two tokenizers and the loop;
* `digitRuns`, `components`: the numbers in a version;
* `compareLoop_eq`: the loop compares the zero-padded sequences of the components;
* `compareVersions_lexicographic`: the order of versions, and what follows for it.
-/

namespace P2Player.Update

open Java

/-! ### The comparison -/

/-- `replaceAll("[^0-9.]", ".")`. -/
def replaceAll (version : JString) : JString :=
  version.map fun c => if c.isDigit || c == '.' then c else '.'

/-- A version that starts with a dot gets a zero, and separators become dots. -/
def normalizeVersion (version : JString) : JString :=
  replaceAll (if version.head? = some '.' then '0' :: version else version)

/-- The tokens of a `StringTokenizer` with the delimiter `"."`. -/
def tokens (version : JString) : List JString :=
  (version.splitOnP (· == '.')).filter fun token => !token.isEmpty

/-- The loop once one tokenizer has no more tokens, with `none` for an exception: the other one's
version is higher if it has a token that is not 0. -/
def restLoop (higher : ℤ) : List JString → Option ℤ
  | [] => some 0
  | t :: tok => do
    let i ← parseInt t
    if i ≠ 0 then some higher else restLoop higher tok

/-- The loop over the tokens. -/
def compareLoop : List JString → List JString → Option ℤ
  | t1 :: tok1, t2 :: tok2 => do
    let i1 ← parseInt t1
    let i2 ← parseInt t2
    if i1 ≠ i2 then some (toInt (i1 - i2)) else compareLoop tok1 tok2
  | tok1, [] => restLoop 1 tok1
  | [], tok2 => restLoop (-1) tok2

/-- `compareVersions`. -/
def compareVersions (version_1 version_2 : JString) : ℤ :=
  (compareLoop (tokens (normalizeVersion version_1)) (tokens (normalizeVersion version_2))).getD 0

/-! ### Components -/

/-- The maximal runs of digits. -/
def digitRuns (version : JString) : List JString :=
  (version.splitOnP fun c => !c.isDigit).filter fun run => !run.isEmpty

/-- The number that a run denotes. -/
def runValue (run : JString) : ℕ := Nat.ofDigitChars 10 run 0

/-- The numbers in a version. -/
def runValues (version : JString) : List ℕ := (digitRuns version).map runValue

/-- The numbers in a version; one that starts with a dot has a zero in front. -/
def components (version : JString) : List ℕ :=
  if version.head? = some '.' then 0 :: runValues version else runValues version

/-- All runs denote numbers of type `int`. -/
def IsVersion (version : JString) : Prop := ∀ run ∈ digitRuns version, runValue run < 2 ^ 31

instance (version : JString) : Decidable (IsVersion version) :=
  inferInstanceAs (Decidable (∀ run ∈ digitRuns version, runValue run < 2 ^ 31))

/-! ### Tokens are runs of digits -/

theorem splitOnP_replaceAll (version : JString) :
    (replaceAll version).splitOnP (· == '.') = version.splitOnP fun c => !c.isDigit := by
  induction version with
  | nil => rfl
  | cons c version ih =>
    rw [replaceAll] at ih ⊢
    rw [List.map_cons, List.splitOnP_cons_eq_if_modifyHead, List.splitOnP_cons_eq_if_modifyHead, ih]
    by_cases hdigit : c.isDigit = true
    · have hdot : c ≠ '.' := by
        rintro rfl
        exact absurd hdigit (by decide)
      simp [hdigit, hdot]
    · simp [hdigit]

theorem tokens_replaceAll (version : JString) : tokens (replaceAll version) = digitRuns version := by
  rw [tokens, splitOnP_replaceAll, digitRuns]

theorem digitRuns_of_separator {c : Char} (h : c.isDigit = false) (version : JString) :
    digitRuns (c :: version) = digitRuns version := by
  rw [digitRuns, List.splitOnP_cons_eq_if_modifyHead]
  simp [h, digitRuns]

/-- A run before a separator. -/
theorem digitRuns_append_separator (version rest : JString) {c : Char} (h : c.isDigit = false) :
    digitRuns (version ++ c :: rest) = digitRuns version ++ digitRuns rest := by
  rw [digitRuns, List.splitOnP_append_cons _ _ (by simp [h]), List.filter_append]
  rfl

theorem tokens_normalizeVersion (version : JString) :
    tokens (normalizeVersion version) =
      if version.head? = some '.' then ['0'] :: digitRuns version else digitRuns version := by
  rw [normalizeVersion, tokens_replaceAll]
  split_ifs with hdot
  · obtain ⟨rest, rfl⟩ : ∃ rest, version = '.' :: rest := by
      cases version with
      | nil => cases hdot
      | cons c rest => exact ⟨rest, by rw [Option.some.inj hdot]⟩
    exact (digitRuns_append_separator ['0'] rest (c := '.') (by decide)).trans
      (congrArg _ (digitRuns_of_separator (by decide) rest).symm)
  · rfl

theorem isDigit_of_mem_splitOnP {version run : JString}
    (h : run ∈ version.splitOnP fun c => !c.isDigit) : ∀ c ∈ run, c.isDigit = true := by
  induction version generalizing run with
  | nil =>
    rw [List.mem_singleton.1 h]
    exact fun c hc => absurd hc List.not_mem_nil
  | cons c version ih =>
    rw [List.splitOnP_cons_eq_if_modifyHead] at h
    split_ifs at h with hc
    · rcases List.mem_cons.1 h with rfl | h
      · exact fun d hd => absurd hd List.not_mem_nil
      · exact ih h
    · obtain ⟨first, rest, hsplit⟩ := List.exists_cons_of_ne_nil
        (List.splitOnP_ne_nil (fun c => !c.isDigit) version)
      rw [hsplit] at h ih
      rcases List.mem_cons.1 h with rfl | h
      · intro d hd
        rcases List.mem_cons.1 hd with rfl | hd
        · simpa using hc
        · exact ih List.mem_cons_self d hd
      · exact ih (List.mem_cons_of_mem _ h)

/-- A token of digits, whose number is an `int`. -/
def IsToken (token : JString) : Prop :=
  token ≠ [] ∧ (∀ c ∈ token, c.isDigit = true) ∧ runValue token < 2 ^ 31

theorem IsToken.parseInt {token : JString} (h : IsToken token) :
    Java.parseInt token = some (runValue token : ℤ) :=
  parseInt_of_isDigit h.1 h.2.1 h.2.2

theorem IsVersion.isToken {version : JString} (h : IsVersion version) {run : JString}
    (hrun : run ∈ digitRuns version) : IsToken run := by
  obtain ⟨hsplit, hne⟩ := List.mem_filter.1 hrun
  exact ⟨by simpa using hne, isDigit_of_mem_splitOnP hsplit, h run hrun⟩

/-- The tokens of a version are the components. -/
theorem IsVersion.tokens {version : JString} (h : IsVersion version) :
    (∀ token ∈ Update.tokens (normalizeVersion version), IsToken token) ∧
      (Update.tokens (normalizeVersion version)).map runValue = components version := by
  rw [tokens_normalizeVersion, components]
  split_ifs
  · refine ⟨fun token htoken => ?_, rfl⟩
    rcases List.mem_cons.1 htoken with rfl | htoken
    · exact ⟨by decide, List.all_eq_true.1 (by decide), by decide⟩
    · exact h.isToken htoken
  · exact ⟨fun token htoken => h.isToken htoken, rfl⟩

/-! ### The loop -/

/-- The rest of a version is compared with zeros. -/
theorem restLoop_eq (higher : ℤ) {tok : List JString} (h : ∀ t ∈ tok, IsToken t) :
    (padded ([] : List ℕ) < padded (tok.map runValue) ∧ restLoop higher tok = some higher) ∨
      (¬ padded ([] : List ℕ) < padded (tok.map runValue) ∧ restLoop higher tok = some 0) := by
  induction tok with
  | nil => exact Or.inr ⟨lt_irrefl _, rfl⟩
  | cons t tok ih =>
    obtain ⟨ht, h⟩ := List.forall_mem_cons.1 h
    have hcons : padded ([] : List ℕ) < padded ((t :: tok).map runValue) ↔
        0 < runValue t ∨ 0 = runValue t ∧ padded ([] : List ℕ) < padded (tok.map runValue) := by
      nth_rewrite 1 [padded_nil]
      exact padded_cons_lt_cons
    rw [hcons, restLoop, ht.parseInt]
    rcases Nat.eq_zero_or_pos (runValue t) with h0 | hpos
    · rcases ih h with ⟨hlt, hloop⟩ | ⟨hnot, hloop⟩
      · exact Or.inl ⟨Or.inr ⟨h0.symm, hlt⟩, by simp [h0, hloop]⟩
      · exact Or.inr ⟨by simp [h0, hnot], by simp [h0, hloop]⟩
    · exact Or.inl ⟨Or.inl hpos, by simp [hpos.ne']⟩

theorem not_padded_lt_nil (l : List ℕ) : ¬ padded l < padded ([] : List ℕ) := by
  rintro ⟨i, -, hlt⟩
  exact absurd hlt (Nat.not_lt_zero _)

/-- **The result of the loop has the sign of the comparison of the zero-padded numbers.** -/
theorem compareLoop_eq {tok1 tok2 : List JString} (h1 : ∀ t ∈ tok1, IsToken t)
    (h2 : ∀ t ∈ tok2, IsToken t) : ∃ r, compareLoop tok1 tok2 = some r ∧
      (r < 0 ↔ padded (tok1.map runValue) < padded (tok2.map runValue)) ∧
      (0 < r ↔ padded (tok2.map runValue) < padded (tok1.map runValue)) := by
  induction tok1 generalizing tok2 with
  | nil =>
    have hnot := not_padded_lt_nil (tok2.map runValue)
    have hloop : compareLoop [] tok2 = restLoop (-1) tok2 := by
      cases tok2 <;> rfl
    rw [hloop]
    rcases restLoop_eq (-1) h2 with ⟨hlt, hrest⟩ | ⟨hge, hrest⟩
    · exact ⟨-1, hrest, iff_of_true (by decide) hlt, iff_of_false (by decide) hnot⟩
    · exact ⟨0, hrest, iff_of_false (by decide) hge, iff_of_false (by decide) hnot⟩
  | cons t1 tok1 ih =>
    cases tok2 with
    | nil =>
      have hnot := not_padded_lt_nil ((t1 :: tok1).map runValue)
      rcases restLoop_eq 1 h1 with ⟨hlt, hrest⟩ | ⟨hge, hrest⟩
      · exact ⟨1, hrest, iff_of_false (by decide) hnot, iff_of_true (by decide) hlt⟩
      · exact ⟨0, hrest, iff_of_false (by decide) hnot, iff_of_false (by decide) hge⟩
    | cons t2 tok2 =>
      obtain ⟨ht1, h1⟩ := List.forall_mem_cons.1 h1
      obtain ⟨ht2, h2⟩ := List.forall_mem_cons.1 h2
      rw [compareLoop, ht1.parseInt, ht2.parseInt, List.map_cons, List.map_cons,
        padded_cons_lt_cons, padded_cons_lt_cons]
      by_cases heq : runValue t1 = runValue t2
      · obtain ⟨r, hr, hneg, hpos⟩ := ih h1 h2
        refine ⟨r, by simp [heq, hr], ?_, ?_⟩
        · rw [hneg, heq]
          simp
        · rw [hpos, heq]
          simp
      · have hlt1 := ht1.2.2
        have hlt2 := ht2.2.2
        have hwrap : toInt ((runValue t1 : ℤ) - runValue t2) = runValue t1 - runValue t2 :=
          toInt_of_isInt ⟨by omega, by omega⟩
        refine ⟨(runValue t1 : ℤ) - runValue t2, by simp [heq, hwrap], ?_, ?_⟩
        · simp only [heq, false_and, or_false]
          omega
        · simp only [Ne.symm heq, false_and, or_false]
          omega

/-- The result of `compareVersions` has the sign of the comparison of the components. -/
theorem compareVersions_sign {a b : JString} (ha : IsVersion a) (hb : IsVersion b) :
    (compareVersions a b < 0 ↔ padded (components a) < padded (components b)) ∧
      (0 < compareVersions a b ↔ padded (components b) < padded (components a)) := by
  obtain ⟨ha, hcompa⟩ := ha.tokens
  obtain ⟨hb, hcompb⟩ := hb.tokens
  obtain ⟨r, hr, hsign⟩ := compareLoop_eq ha hb
  rw [hcompa, hcompb] at hsign
  rw [compareVersions, hr]
  exact hsign

/-! ### The order of versions -/

/-- A component 0 at the end. -/
def trailingZero (version : JString) : JString := version ++ ['.', '0']

theorem digitRuns_trailingZero (version : JString) :
    digitRuns (trailingZero version) = digitRuns version ++ [['0']] :=
  digitRuns_append_separator version ['0'] (by decide)

theorem IsVersion.trailingZero {version : JString} (h : IsVersion version) :
    IsVersion (Update.trailingZero version) := by
  intro run hrun
  rw [digitRuns_trailingZero] at hrun
  rcases List.mem_append.1 hrun with hrun | hrun
  · exact h run hrun
  · rw [List.mem_singleton.1 hrun]
    decide

theorem padded_components_trailingZero (version : JString) :
    padded (components (trailingZero version)) = padded (components version) := by
  cases version with
  | nil => exact padded_append_replicate ([] : List ℕ) 2
  | cons c version =>
    have hvalues : runValues (trailingZero (c :: version)) = runValues (c :: version) ++ [0] := by
      rw [runValues, digitRuns_trailingZero, List.map_append]
      rfl
    have happend : components (trailingZero (c :: version)) = components (c :: version) ++ [0] := by
      have hhead : (trailingZero (c :: version)).head? = (c :: version).head? := rfl
      rw [components, components, hhead, hvalues]
      split_ifs <;> rfl
    rw [happend]
    exact padded_append_replicate _ 1

theorem IsVersion.iterate_trailingZero {version : JString} (h : IsVersion version) (n : ℕ) :
    IsVersion (Update.trailingZero^[n] version) ∧
      padded (components (Update.trailingZero^[n] version)) = padded (components version) := by
  induction n with
  | zero => exact ⟨h, rfl⟩
  | succ n ih =>
    rw [Function.iterate_succ_apply']
    exact ⟨ih.1.trailingZero, (padded_components_trailingZero _).trans ih.2⟩

/-- Both lists padded to the length of the longer one. -/
def paddedTo (x y : List ℕ) : List ℕ := pad (max x.length y.length) x

theorem paddedTo_lt_iff {x y : List ℕ} :
    paddedTo x y < paddedTo y x ↔ padded x < padded y := by
  rw [paddedTo, paddedTo, max_comm y.length]
  exact pad_lt_pad_iff (le_max_left _ _) (le_max_right _ _)

theorem sign_eq_sign {x y : ℤ} (hneg : x < 0 ↔ y < 0) (hpos : 0 < x ↔ 0 < y) : x.sign = y.sign := by
  rcases lt_trichotomy x 0 with h | rfl | h
  · rw [Int.sign_eq_neg_one_of_neg h, Int.sign_eq_neg_one_of_neg (hneg.1 h)]
  · have hy : y = 0 := by omega
    rw [hy]
  · rw [Int.sign_eq_one_of_pos h, Int.sign_eq_one_of_pos (hpos.1 h)]

/-- **Versions are compared as their lists of components are, padded with zeros to equal length;
hence the comparison is antisymmetric and transitive, and components 0 at the end do not matter.** -/
theorem compareVersions_lexicographic {a b c : JString} (ha : IsVersion a) (hb : IsVersion b)
    (hc : IsVersion c) :
    (compareVersions a b < 0 ↔
      paddedTo (components a) (components b) < paddedTo (components b) (components a)) ∧
    (0 < compareVersions a b ↔
      paddedTo (components b) (components a) < paddedTo (components a) (components b)) ∧
    (compareVersions b a).sign = -(compareVersions a b).sign ∧
    (compareVersions a b ≤ 0 → compareVersions b c ≤ 0 → compareVersions a c ≤ 0) ∧
    ∀ m n, (compareVersions (trailingZero^[m] a) (trailingZero^[n] b)).sign =
      (compareVersions a b).sign := by
  obtain ⟨hneg, hpos⟩ := compareVersions_sign ha hb
  obtain ⟨hneg', hpos'⟩ := compareVersions_sign hb ha
  obtain ⟨-, hbc⟩ := compareVersions_sign hb hc
  obtain ⟨-, hac⟩ := compareVersions_sign ha hc
  refine ⟨?_, ?_, ?_, ?_, fun m n => ?_⟩
  · rw [hneg, paddedTo_lt_iff]
  · rw [hpos, paddedTo_lt_iff]
  · rw [← Int.sign_neg]
    refine sign_eq_sign ?_ ?_
    · rw [hneg', neg_lt_zero, hpos]
    · rw [hpos', neg_pos, hneg]
  · intro h1 h2
    have hab : padded (components a) ≤ padded (components b) :=
      not_lt.1 fun h => h1.not_gt (hpos.2 h)
    have hbc : padded (components b) ≤ padded (components c) :=
      not_lt.1 fun h => h2.not_gt (hbc.2 h)
    exact not_lt.1 fun h => (hab.trans hbc).not_gt (hac.1 h)
  · obtain ⟨ham, hpa⟩ := ha.iterate_trailingZero m
    obtain ⟨hbn, hpb⟩ := hb.iterate_trailingZero n
    obtain ⟨htneg, htpos⟩ := compareVersions_sign ham hbn
    rw [hpa, hpb] at htneg htpos
    exact sign_eq_sign (htneg.trans hneg.symm) (htpos.trans hpos.symm)

/-- `1.9` comes before `1.10`. -/
theorem compareVersions_nine_ten : compareVersions ['1', '.', '9'] ['1', '.', '1', '0'] < 0 :=
  (@compareVersions_lexicographic ['1', '.', '9'] ['1', '.', '1', '0'] ['1', '_', '9', 'b', '0']
    (by decide) (by decide) (by decide)).1.2 (by decide)

/-- `.5` comes before `5`, although 5 is the only number in both. -/
theorem not_lexicographic_leadingDot : ¬ ∀ a b : JString, IsVersion a → IsVersion b →
    ((compareVersions a b < 0 ↔
      paddedTo (runValues a) (runValues b) < paddedTo (runValues b) (runValues a)) ∧
    (0 < compareVersions a b ↔
      paddedTo (runValues b) (runValues a) < paddedTo (runValues a) (runValues b))) := by
  intro h
  have hlt := (h ['.', '5'] ['5'] (by decide) (by decide)).1.1 (by decide)
  exact absurd hlt (by decide)

end P2Player.Update
