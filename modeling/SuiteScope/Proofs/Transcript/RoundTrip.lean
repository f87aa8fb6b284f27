import SuiteScope.Proofs.Transcript.Written
import SuiteScope.Transcript.Report

/-!
# The report of a written transcript

The transcript of an outcome is read back : each failed case is an entry with its name, its file and
its message, in order, and the counts of the summary line are the totals
(`Outcome.ofTranscript_text`). The entries of a file are those of its cases
(`TestFile.failures_text`), no file disturbs the one before it (`TestFile.failures_append`), and no
line in front of the summary is taken for it (`Outcome.stats_text`).
-/

namespace SuiteScope.Transcript

open SuiteScope.Text

/-! ## Entries -/

/-- What an entry says of its test. -/
def Failure.key (f : Failure) : String × String × String :=
  (f.testName, f.originFile, f.errorMessage)

/-- What the entry of a case has to say. -/
def FailedCase.key (path : TestPath) (case : FailedCase) : String × String × String :=
  (String.ofList case.name, String.ofList path.text, String.ofList case.message)

/-- A text behind a path that names no other test file and does not prolong the path. -/
structure NoPath (rest : List Char) : Prop where
  head : ∀ c ∈ rest.head?, isPathChar c = false
  marks : ∀ mark ∈ testMarks, ¬mark <:+: rest

theorem noPath_of_no_dot {rest : List Char} (hhead : ∀ c ∈ rest.head?, isPathChar c = false)
    (hdot : '.' ∉ rest) : NoPath rest :=
  ⟨hhead, fun _ hmark => not_infix_of_not_mem (dot_mem_mark hmark) hdot⟩

theorem NoPath.append_blank {x y : List Char} (hx : NoPath x)
    (hy : ∀ mark ∈ testMarks, ¬mark <:+: y) : NoPath (x ++ ' ' :: y) := by
  have hspace : ∀ mark ∈ testMarks, ' ' ∉ mark := by decide
  refine ⟨?_, fun mark hmark => ?_⟩
  · cases x with
    | nil => exact fun c hc => by simp at hc; subst hc; decide
    | cons c x => exact hx.head
  · rw [infix_append_cons (hspace mark hmark), not_or]
    exact ⟨hx.marks mark hmark, hy mark hmark⟩

/-- The lines of a case name no test file. -/
theorem NoPath.append_case {x : List Char} (hx : NoPath x) (case : FailedCase) :
    NoPath (x ++ case.text) := by
  have hshape : case.text = ' ' :: ([' ', ' ', '×'] ++ ' ' :: (case.name ++ ' ' ::
      ((numeral case.durationMs ++ ['m', 's']) ++ '\n' :: ([' ', ' ', ' ', ' ', ' ', '→'] ++ ' ' ::
        (case.message ++ '\n' :: []))))) := by
    simp [FailedCase.text, FailedCase.label, FailedCase.messageLine, timing, indent]
  have htiming : '.' ∉ numeral case.durationMs ++ ['m', 's'] := by
    simp [not_mem_numeral]
  have hall : ∀ mark ∈ testMarks, ' ' ∉ mark ∧ '\n' ∉ mark := by decide
  rw [hshape]
  refine hx.append_blank fun mark hmark => ?_
  obtain ⟨hspace, hline⟩ := hall mark hmark
  have hdot := dot_mem_mark hmark
  rw [infix_append_cons hspace, infix_append_cons hspace, infix_append_cons hline,
    infix_append_cons hspace, infix_append_cons hline]
  simp only [not_or]
  exact ⟨not_infix_of_not_mem hdot (by decide), case.name_marks mark hmark,
    not_infix_of_not_mem hdot htiming, not_infix_of_not_mem hdot (by decide),
    case.message_marks mark hmark, not_infix_of_not_mem hdot (by decide)⟩

/-- The message of a case is read from its own line. -/
theorem FailedCase.errorIn?_segment (case : FailedCase) {z : List Char} (hz : ':' ∉ z) :
    errorIn? ('\n' :: (case.messageLine ++ '\n' :: z)) = some (String.ofList case.message) := by
  have hpieces : ('\n' :: (List.replicate 5 ' ' ++ '→' :: ' ' :: (case.message ++ '\n' :: z))) =
      [] ++ '\n' :: ([' ', ' ', ' ', ' ', ' ', '→'] ++ ' ' :: (case.message ++ '\n' :: z)) := by
    simp
  have herror : ¬"Error:".toList <:+:
      '\n' :: (List.replicate 5 ' ' ++ '→' :: ' ' :: (case.message ++ '\n' :: z)) := by
    rw [hpieces, infix_append_cons (by decide), infix_append_cons (by decide),
      infix_append_cons (by decide), not_or, not_or, not_or]
    exact ⟨not_infix_of_not_mem (c := ':') (by decide) (by decide),
      not_infix_of_not_mem (c := ':') (by decide) (by decide), case.message_labels,
      not_infix_of_not_mem (c := ':') (by decide) hz⟩
  rw [FailedCase.messageLine, List.append_assoc]
  exact errorIn?_arrow (by decide) case.message_bare case.message_line herror

/-- The path in the header of a file is the only one in front of its cases. -/
theorem originFile_indent (path : TestPath) {rest : List Char} (h : NoPath rest) :
    originFile (lead ++ (path.text ++ rest) ++ indent) = String.ofList path.text := by
  have hrest : NoPath (rest ++ indent) := h.append_blank (y := [' ', ' ']) (by decide)
  rw [List.append_assoc, List.append_assoc]
  exact originFile_append path (by decide) hrest.head hrest.marks

/-- The failing lines behind the header of a file have the entries of its cases. -/
theorem key_failingLinesOf {z : List Char} (hz : ':' ∉ z) (path : TestPath) {rest : List Char}
    (hrest : NoPath rest) (cases : List FailedCase) (blockError? : Option String)
    (blockFrame? : Option (List Char × List Char)) :
    ((failingLinesOf z (lead ++ (path.text ++ rest)) cases).map
      (FailingLine.entry blockError? blockFrame?)).map Failure.key =
        cases.map (FailedCase.key path) := by
  induction cases generalizing rest with
  | nil => rfl
  | cons case cases ih =>
    have hsegment : ':' ∉ upToCross z cases := by
      cases cases with
      | nil => exact hz
      | cons other cases => simp [upToCross, indent]
    have herror := case.errorIn?_segment hsegment
    have htail := ih (hrest.append_case case)
    rw [← List.append_assoc path.text, ← List.append_assoc lead] at htail
    rw [failingLinesOf, List.map_cons, List.map_cons, List.map_cons, htail]
    simp only [FailingLine.entry, Failure.key, FailedCase.key, herror, FailedCase.label,
      testName_append case.name_bare, originFile_indent path hrest, Option.some_or,
      Option.getD_some]

theorem TestFile.noPath_counts (file : TestFile) : NoPath (file.counts ++ ['\n']) := by
  have hdot : '.' ∉ file.counts := file.not_mem_counts (by decide) (by decide)
  refine noPath_of_no_dot (fun c hc => ?_) (by simp [hdot])
  obtain rfl : ' ' = c := by simpa [TestFile.counts] using hc
  decide

/-- The entries of a file are those of its cases, whatever may follow them. -/
theorem TestFile.failures_text (file : TestFile) {z : List Char} (hz : Tail z) :
    (failures (file.text ++ z)).map Failure.key = file.cases.map (FailedCase.key file.path) := by
  rw [failures_eq_flatMap, file.blocks_text hz, List.flatMap_singleton, blockFailures,
    file.failingLines_text hz, TestFile.header, List.append_assoc, List.append_assoc,
    key_failingLinesOf hz.labels file.path file.noPath_counts]

theorem getLast?_cases (cases : List FailedCase) :
    ('\n' :: cases.flatMap FailedCase.text).getLast? = some '\n' := by
  rcases List.eq_nil_or_concat cases with rfl | ⟨cases, case, rfl⟩
  · rfl
  · have hshape : '\n' :: (cases ++ [case]).flatMap FailedCase.text =
        ('\n' :: (cases.flatMap FailedCase.text ++ indent ++ '×' :: ' ' :: case.label ++
          '\n' :: case.messageLine)) ++ ['\n'] := by
      simp [FailedCase.text]
    rw [List.concat_eq_append, hshape, List.getLast?_concat]

theorem TestFile.getLast?_text (file : TestFile) : file.text.getLast? = some '\n' := by
  rw [TestFile.text, List.getLast?_append, getLast?_cases, Option.some_or]

/-- The entries of a file do not depend on the files behind it. -/
theorem TestFile.failures_append (file next : TestFile) (s : List Char) :
    failures (file.text ++ (next.text ++ s)) = failures file.text ++ failures (next.text ++ s) := by
  have hbegins : BeginsBlock (next.text ++ s) := ⟨[' '], _, by decide, .inl rfl⟩
  obtain ⟨b, bs, hblocks, hstart⟩ := exists_block hbegins
  rw [failures_eq_flatMap, failures_eq_flatMap, failures_eq_flatMap,
    blocks_append file.getLast?_text hblocks hstart, List.flatMap_append]

/-- What the entries of a run have to say, in order. -/
def keysOf (files : List TestFile) : List (String × String × String) :=
  files.flatMap fun file => file.cases.map (FailedCase.key file.path)

/-- Every failed case is read with its file and its message, by induction over the files. -/
theorem failures_files {files : List TestFile} (hne : files ≠ []) {z : List Char} (hz : Tail z) :
    (failures (files.flatMap TestFile.text ++ z)).map Failure.key = keysOf files := by
  induction files with
  | nil => exact absurd rfl hne
  | cons file files ih =>
    have hfile := file.failures_text tail_nil
    rw [List.append_nil] at hfile
    cases files with
    | nil => simpa [keysOf] using file.failures_text hz
    | cons next files =>
      have hrest := ih (List.cons_ne_nil next files)
      rw [List.flatMap_cons, List.append_assoc] at hrest
      rw [List.flatMap_cons, List.append_assoc, List.flatMap_cons, List.append_assoc,
        file.failures_append, List.map_append, hfile, hrest]
      rfl

/-! ## The summary -/

theorem FailedCase.quiet_summary (case : FailedCase) (before : Option Char) (s : List Char) :
    Quiet summary? before case.text s := by
  have hshape : case.text = (indent ++ '×' :: (' ' :: case.label ++ ['\n'])) ++
      (List.replicate 5 ' ' ++ '→' :: (' ' :: case.message ++ ['\n'])) := by
    simp [FailedCase.text, FailedCase.messageLine]
  rw [hshape]
  refine quiet_append ?_ ?_
  · exact quiet_summary_line (by decide) (by decide) (by decide)
      (by simp [case.newline_not_mem_label]) _ _
  · exact quiet_summary_line (by decide) (by decide) (by decide) (by simp [case.message_line]) _ _

/-- No line of a file is taken for a summary. -/
theorem TestFile.quiet_summary (file : TestFile) (before : Option Char) (s : List Char) :
    Quiet summary? before file.text s := by
  have hshape : file.text =
      ([' '] ++ '❯' :: ((' ' :: (file.path.text ++ file.counts)) ++ ['\n'])) ++
        file.cases.flatMap FailedCase.text := by
    simp [TestFile.text, TestFile.header, lead]
  have hheader := file.newline_not_mem_header
  rw [hshape]
  refine quiet_append ?_ (quiet_flatMap (fun case _ => case.quiet_summary) _ _)
  refine quiet_summary_line (by decide) (by decide) (by decide) (fun hmem => hheader ?_) _ _
  exact List.mem_cons_of_mem ' ' hmem

theorem isLineStart_files (files : List TestFile) :
    isLineStart (files.flatMap TestFile.text).getLast? = true := by
  rcases List.eq_nil_or_concat files with rfl | ⟨files, file, rfl⟩
  · rfl
  · rw [List.concat_eq_append, List.flatMap_append, List.flatMap_singleton, List.getLast?_append,
      file.getLast?_text]
    rfl

/-- The summary line gives the counts, whatever numerals stand in the names and the messages. -/
theorem Outcome.stats_text (outcome : Outcome) (ended : Bool) :
    stats (outcome.text ended) = .combined (count? (numeral outcome.failed))
      (count? (numeral outcome.passed)) none (count? (numeral outcome.total)) := by
  have hquiet : Quiet summary? none (outcome.files.flatMap TestFile.text)
      (outcome.summary ended) := quiet_flatMap (fun file _ => file.quiet_summary) _ _
  have hread := summary?_summaryLine (isLineStart_files outcome.files) outcome.failed
    outcome.passed outcome.total (if ended then ['\n'] else [])
  rw [stats, Outcome.text, findValue?_append hquiet hread]

/-! ## The report -/

theorem FailedCase.escape_not_mem_text (case : FailedCase) : escape ∉ case.text := by
  have htiming : escape ∉ timing case.durationMs := not_mem_timing (by decide) (by decide) _
  have hfixed : escape ∉ indent ++ ['×', ' ', '\n', '→'] := by decide
  simp only [indent, List.cons_append, List.nil_append, List.mem_cons, not_or] at hfixed
  simp [FailedCase.text, FailedCase.label, FailedCase.messageLine, indent, case.name_escape,
    case.message_escape, htiming, hfixed]

theorem TestFile.escape_not_mem_text (file : TestFile) : escape ∉ file.text := by
  have hcounts : escape ∉ file.counts := file.not_mem_counts (by decide) (by decide)
  have hlead : escape ∉ lead ++ ['\n'] := by decide
  have hcases : escape ∉ file.cases.flatMap FailedCase.text := fun hmem => by
    obtain ⟨case, -, hcase⟩ := List.mem_flatMap.mp hmem
    exact case.escape_not_mem_text hcase
  rw [List.mem_append, not_or, List.mem_singleton] at hlead
  simp [TestFile.text, TestFile.header, hlead, file.path_escape, hcounts, hcases]

/-- There is nothing to strip. -/
theorem Outcome.strip_text (outcome : Outcome) (ended : Bool) :
    strip (outcome.text ended) = outcome.text ended := by
  refine strip_eq_self ?_
  rw [Outcome.text, List.mem_append, not_or]
  refine ⟨fun hmem => ?_, outcome.not_mem_summary ended (by decide) (by decide) (by decide)⟩
  obtain ⟨file, -, hfile⟩ := List.mem_flatMap.mp hmem
  exact file.escape_not_mem_text hfile

theorem Outcome.files_ne_nil (outcome : Outcome) : outcome.files ≠ [] := by
  obtain ⟨file, hfile, -⟩ := outcome.some_case
  exact List.ne_nil_of_mem hfile

/-- Something has failed. -/
theorem Outcome.failed_pos (outcome : Outcome) : 0 < outcome.failed := by
  obtain ⟨file, hfile, hcases⟩ := outcome.some_case
  obtain ⟨case, hcase⟩ := List.exists_mem_of_ne_nil _ hcases
  exact List.length_pos_of_mem (List.mem_flatMap.mpr ⟨file, hfile, hcase⟩)

theorem Outcome.length_keysOf (outcome : Outcome) :
    (keysOf outcome.files).length = outcome.failed := by
  simp [keysOf, Outcome.failed, List.length_flatMap]

/-- As many failures are read as cases have failed. -/
theorem Outcome.length_failures (outcome : Outcome) (ended : Bool) :
    (failures (outcome.text ended)).length = outcome.failed := by
  rw [← List.length_map Failure.key, Outcome.text,
    failures_files outcome.files_ne_nil (outcome.tail_summary ended), outcome.length_keysOf]

/-- The number of failed tests is read off the summary line if it can be read, and is otherwise
known from the exit code and the entries alone. -/
theorem Outcome.reconcile_text (outcome : Outcome) (ended : Bool) (exitCode : Int) :
    Totals.reconcile (stats (outcome.text ended)) outcome.failed exitCode =
      { total := outcome.total
        passed := outcome.passed
        failed := if outcome.failed < countBound ∨ exitCode ≠ 0 then outcome.failed else 0
        skipped := 0 } := by
  have hpos := outcome.failed_pos
  have htotal : (some outcome.total).filter (0 < ·) = some outcome.total := by
    simp [Option.filter, outcome.total_pos]
  rw [outcome.stats_text]
  simp only [count?, readCount?_numeral, if_pos outcome.passed_lt, if_pos outcome.total_lt]
  have hmax : max outcome.failed 1 = outcome.failed := Nat.max_eq_left hpos
  have hne : outcome.failed ≠ 0 := Nat.ne_of_gt hpos
  by_cases hbound : outcome.failed < countBound
  · simp [Totals.reconcile, Stats.failed, Stats.passed, Stats.skipped, Stats.statedTotal?, htotal,
      hbound, hne]
  · simp [Totals.reconcile, Stats.failed, Stats.passed, Stats.skipped, Stats.statedTotal?, htotal,
      hbound, hmax]

/-- A written transcript is read back : one entry for each failed case, in order, and the counts of
the summary line. -/
theorem Outcome.ofTranscript_text (outcome : Outcome) (ended : Bool) (durationMs : Nat)
    (exitCode : Int) :
    let report := Report.ofTranscript (String.ofList (outcome.text ended)) durationMs exitCode
    report.failures.map Failure.key = keysOf outcome.files ∧
      report.totals = {
        total := outcome.total
        passed := outcome.passed
        failed := if outcome.failed < countBound ∨ exitCode ≠ 0 then outcome.failed else 0
        skipped := 0 } ∧
      report.allPassed = false := by
  intro report
  have htext : strip (String.ofList (outcome.text ended)).toList = outcome.text ended := by
    rw [String.toList_ofList, outcome.strip_text]
  have hlength := outcome.length_failures ended
  have hempty : (failures (outcome.text ended)).isEmpty = false := by
    rw [List.isEmpty_eq_false_iff, ← List.length_pos_iff, hlength]
    exact outcome.failed_pos
  refine ⟨?_, ?_, ?_⟩
  · simp only [report, Report.ofTranscript, htext]
    exact failures_files outcome.files_ne_nil (outcome.tail_summary ended)
  · simp only [report, Report.ofTranscript, htext, hlength, outcome.reconcile_text]
  · simp only [report, Report.ofTranscript, htext, hempty, Bool.and_false, Bool.false_and]

/-- A case whose name holds a cross and a timing, and whose message looks like a header. -/
def crowdedCase : FailedCase :=
  ⟨"adds × 2s".toList, 7, "FAIL, not 3".toList, by decide, by decide, by decide,
    fun _ hmark => not_infix_of_not_mem (dot_mem_mark hmark) (by decide), by decide, by decide,
    by decide, fun _ hmark => not_infix_of_not_mem (dot_mem_mark hmark) (by decide), by decide,
    not_infix_of_not_mem (c := ':') (by decide) (by decide)⟩

/-- A run of two files, of which only the second has failed cases. -/
def crowdedOutcome : Outcome :=
  let path (stem : List Char) (h : stem ≠ [] ∧ stem.all isPathChar = true) : TestPath :=
    ⟨stem, ".spec.".toList, "ts".toList, h.1, h.2, by decide, by decide⟩
  let file : TestFile :=
    ⟨path "src/b".toList (by decide), by decide, 4, 2, [crowdedCase, crowdedCase]⟩
  ⟨[⟨path "src/a".toList (by decide), by decide, 0, 9, []⟩, file], 3, 4,
    ⟨file, by simp, List.cons_ne_nil _ _⟩, by decide, by decide, by decide⟩

/-- A run with several files and cases is read back with its totals. -/
theorem ofTranscript_of_crowdedOutcome :
    let report := Report.ofTranscript (String.ofList (crowdedOutcome.text true)) 5 1
    crowdedOutcome.text true =
      (" ❯ src/a.spec.ts (0 tests | 9 failed)\n" ++
        " ❯ src/b.spec.ts (4 tests | 2 failed)\n" ++
        "   × adds × 2s 7ms\n" ++ "     → FAIL, not 3\n" ++
        "   × adds × 2s 7ms\n" ++ "     → FAIL, not 3\n" ++
        "      Tests  2 failed | 3 passed (4)\n").toList ∧
      report.failures.map Failure.key =
        [("adds × 2s", "src/b.spec.ts", "FAIL, not 3"),
          ("adds × 2s", "src/b.spec.ts", "FAIL, not 3")] ∧
      report.totals = ⟨4, 3, 2, 0⟩ := by
  intro report
  obtain ⟨hfailures, htotals, -⟩ := Outcome.ofTranscript_text crowdedOutcome true 5 1
  exact ⟨by decide +kernel, hfailures.trans (by decide +kernel), htotals.trans (by decide +kernel)⟩

end SuiteScope.Transcript
