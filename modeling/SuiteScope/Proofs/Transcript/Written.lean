import SuiteScope.Proofs.Transcript.Block
import SuiteScope.Proofs.Transcript.Stats

/-!
# Written transcripts

An `Outcome` is what a run has to say : test files with their failed cases, and the counts of the
whole run. Its text has a header line for each file, two lines for each case, and the summary line.
Names and messages are arbitrary as far as their lines allow. A name may hold crosses and timings,
and a message may hold counts and the sign of a header ; what they must not hold is stated field by
field.

The text of a file is one block (`TestFile.blocks_text`), and its failing lines are its cases, each
with the text before its cross and the text up to the next cross (`TestFile.failingLines_text`).
-/

namespace SuiteScope.Transcript

open SuiteScope.Text

theorem dot_mem_mark {mark : List Char} (h : mark ∈ testMarks) : '.' ∈ mark := by
  have hall : ∀ mark ∈ testMarks, '.' ∈ mark := by decide
  exact hall mark h

/-- A failed test with its duration and its message. -/
structure FailedCase where
  name : List Char
  durationMs : Nat
  message : List Char
  name_bare : Bare isBlank name
  name_line : '\n' ∉ name
  name_escape : escape ∉ name
  name_marks : ∀ mark ∈ testMarks, ¬mark <:+: name
  message_bare : Bare isLineTail message
  message_line : '\n' ∉ message
  message_escape : escape ∉ message
  message_marks : ∀ mark ∈ testMarks, ¬mark <:+: message
  message_crosses : message.any isCross = false
  message_labels : ¬"Error:".toList <:+: message

/-- A test file with the counts in its header, which may be any, and its failed cases. -/
structure TestFile where
  path : TestPath
  path_escape : escape ∉ path.text
  tests : Nat
  failed : Nat
  cases : List FailedCase

/-- A run with at least one failed case. -/
structure Outcome where
  files : List TestFile
  passed : Nat
  total : Nat
  some_case : ∃ file ∈ files, file.cases ≠ []
  passed_lt : passed < countBound
  total_lt : total < countBound
  total_pos : 0 < total

/-! ## Writing -/

/-- The gap in front of a cross. -/
def indent : List Char :=
  [' ', ' ', ' ']

/-- What a failing line says behind its cross. -/
def FailedCase.label (case : FailedCase) : List Char :=
  case.name ++ timing case.durationMs

/-- The line of the message. -/
def FailedCase.messageLine (case : FailedCase) : List Char :=
  List.replicate 5 ' ' ++ '→' :: ' ' :: case.message

/-- The two lines of a failed case. -/
def FailedCase.text (case : FailedCase) : List Char :=
  indent ++ '×' :: ' ' :: (case.label ++ '\n' :: (case.messageLine ++ ['\n']))

/-- What stands in front of the path of a file. -/
def lead : List Char :=
  [' ', '❯', ' ']

/-- What stands behind the path of a file. -/
def TestFile.counts (file : TestFile) : List Char :=
  ' ' :: '(' :: (countOf file.tests "tests" ++ ' ' :: '|' :: ' ' ::
    (countOf file.failed "failed" ++ [')']))

/-- The header line of a file. -/
def TestFile.header (file : TestFile) : List Char :=
  lead ++ (file.path.text ++ file.counts)

/-- The header of a file and the lines of its cases. -/
def TestFile.text (file : TestFile) : List Char :=
  file.header ++ '\n' :: file.cases.flatMap FailedCase.text

/-- The number of failed cases. -/
def Outcome.failed (outcome : Outcome) : Nat :=
  (outcome.files.flatMap (·.cases)).length

/-- The last line, with or without a line end. -/
def Outcome.summary (outcome : Outcome) (ended : Bool) : List Char :=
  summaryLine outcome.failed outcome.passed outcome.total ++ if ended then ['\n'] else []

/-- The transcript of a run. -/
def Outcome.text (outcome : Outcome) (ended : Bool) : List Char :=
  outcome.files.flatMap TestFile.text ++ outcome.summary ended

/-! ## Characters of a line -/

theorem not_mem_timing {c : Char} (hdigit : c.isDigit = false) (hc : c ∉ [' ', 'm', 's'])
    (durationMs : Nat) : c ∉ timing durationMs := by
  simp only [List.mem_cons, not_or] at hc
  simp [timing, not_mem_numeral hdigit, hc]

/-- The label of a case is on one line. -/
theorem FailedCase.newline_not_mem_label (case : FailedCase) : '\n' ∉ case.label := by
  rw [FailedCase.label, List.mem_append, not_or]
  exact ⟨case.name_line, not_mem_timing (by decide) (by decide) _⟩

theorem FailedCase.newline_not_mem_messageLine (case : FailedCase) : '\n' ∉ case.messageLine := by
  simp [FailedCase.messageLine, case.message_line]

theorem TestFile.not_mem_counts (file : TestFile) {c : Char} (hdigit : c.isDigit = false)
    (hc : c ∉ ' ' :: "tests".toList ++ "failed".toList ++ ['|', '(', ')']) : c ∉ file.counts := by
  simp only [List.mem_append, List.mem_cons, not_or] at hc
  obtain ⟨⟨⟨hspace, htests⟩, hfailed⟩, hbar, hopen, hclose, -⟩ := hc
  have hcount {word : String} (hword : c ∉ word.toList) (n : Nat) : c ∉ countOf n word :=
    not_mem_countOf hdigit (fun h => (List.mem_cons.mp h).elim hspace hword) n
  simp [TestFile.counts, hcount htests, hcount hfailed, hspace, hbar, hopen, hclose]

theorem isBlank_of_isPathChar {c : Char} (h : isPathChar c = true) : isBlank c = false := by
  unfold isPathChar at h
  cases hb : isBlank c with
  | false => rfl
  | true => simp [hb] at h

theorem isGap_of_isPathChar {c : Char} (h : isPathChar c = true) : isGap c = false :=
  Bool.eq_false_iff.mpr fun hgap => by
    have hblank := isBlank_of_isLineTail (isLineTail_of_isGap hgap)
    rw [isBlank_of_isPathChar h] at hblank
    exact absurd hblank (by decide)

/-- The path of a test has characters of paths only. -/
theorem TestPath.all_text (path : TestPath) : path.text.all isPathChar = true := by
  have hmarks : ∀ mark ∈ testMarks, mark.all isPathChar = true := by decide
  have hextensions : ∀ extension ∈ testExtensions, extension.all isPathChar = true := by decide
  rw [TestPath.text, List.all_append, List.all_append, path.stem_all, hmarks _ path.mark_mem,
    hextensions _ path.extension_mem]
  rfl

theorem TestPath.newline_not_mem_text (path : TestPath) : '\n' ∉ path.text := fun hmem =>
  absurd (List.all_eq_true.mp path.all_text _ hmem) (by decide)

/-! ## Blocks -/

/-- What may follow the cases of a file : no failing line, no error label and no other block. -/
structure Tail (z : List Char) : Prop where
  crosses : z.any isCross = false
  labels : ':' ∉ z
  start : startsBlock z = false
  uncut : Uncut z

theorem tail_nil : Tail [] :=
  ⟨rfl, by simp, rfl, trivial⟩

/-- Only the two crosses mark a failure. -/
theorem any_isCross_eq_false {z : List Char} (h : '×' ∉ z) (h' : '✕' ∉ z) :
    z.any isCross = false := by
  refine List.any_eq_false.mpr fun c hc => ?_
  simp only [isCross, Bool.or_eq_true, beq_iff_eq, not_or]
  exact ⟨ne_of_mem_of_not_mem hc h, ne_of_mem_of_not_mem hc h'⟩

theorem Outcome.not_mem_summary (outcome : Outcome) (ended : Bool) {c : Char}
    (hdigit : c.isDigit = false) (hline : c ≠ '\n')
    (hc : c ∉ ' ' :: "Tests".toList ++ "failed".toList ++ "passed".toList ++ ['|', '(', ')']) :
    c ∉ outcome.summary ended := by
  rw [Outcome.summary, List.mem_append, not_or]
  refine ⟨not_mem_summaryLine hdigit hc _ _ _, ?_⟩
  cases ended <;> simp [hline]

/-- The summary ends the cases of the last file. -/
theorem Outcome.tail_summary (outcome : Outcome) (ended : Bool) : Tail (outcome.summary ended) := by
  have hline : '\n' ∉ summaryLine outcome.failed outcome.passed outcome.total :=
    not_mem_summaryLine (by decide) (by decide) _ _ _
  refine ⟨any_isCross_eq_false ?_ ?_, ?_, ?_, ?_⟩
  · exact outcome.not_mem_summary ended (by decide) (by decide) (by decide)
  · exact outcome.not_mem_summary ended (by decide) (by decide) (by decide)
  · exact outcome.not_mem_summary ended (by decide) (by decide) (by decide)
  · rw [Outcome.summary, summaryLine, List.append_assoc]
    exact startsBlock_append (c := 'T') (by decide) (by decide) (by decide) _
  · cases ended with
    | true => exact uncut_line hline rfl trivial
    | false => exact uncut_append hline trivial

theorem FailedCase.text_append (case : FailedCase) (s : List Char) :
    case.text ++ s =
      (indent ++ '×' :: ' ' :: case.label) ++ '\n' :: (case.messageLine ++ '\n' :: s) := by
  simp [FailedCase.text]

/-- A case starts no block. -/
theorem FailedCase.startsBlock_text (case : FailedCase) (s : List Char) :
    startsBlock (case.text ++ s) = false := by
  rw [FailedCase.text, List.append_assoc]
  exact startsBlock_append (by decide) (by decide) (by decide) _

/-- All cases of a file are in the block of its header, by induction over them. -/
theorem uncut_cases (cases : List FailedCase) {z : List Char} (hz : Tail z) :
    startsBlock (cases.flatMap FailedCase.text ++ z) = false ∧
      Uncut (cases.flatMap FailedCase.text ++ z) := by
  induction cases with
  | nil => exact ⟨hz.start, hz.uncut⟩
  | cons case cases ih =>
    have hline : '\n' ∉ indent ++ '×' :: ' ' :: case.label := by
      simp [indent, case.newline_not_mem_label]
    have hmessage (t : List Char) : startsBlock (case.messageLine ++ t) = false := by
      rw [FailedCase.messageLine, List.append_assoc]
      exact startsBlock_append (by decide) (by decide) (by decide) _
    rw [List.flatMap_cons, List.append_assoc]
    refine ⟨case.startsBlock_text _, ?_⟩
    rw [case.text_append]
    exact uncut_line hline (hmessage _) (uncut_line case.newline_not_mem_messageLine ih.1 ih.2)

theorem TestFile.newline_not_mem_header (file : TestFile) : '\n' ∉ file.header := by
  have hcounts : '\n' ∉ file.counts := file.not_mem_counts (by decide) (by decide)
  simp [TestFile.header, lead, file.path.newline_not_mem_text, hcounts]

/-- The text of a file is one block, together with what may follow its cases. -/
theorem TestFile.blocks_text (file : TestFile) {z : List Char} (hz : Tail z) :
    blocks (file.text ++ z) = [file.text ++ z] := by
  have hcases := uncut_cases file.cases hz
  rw [TestFile.text, List.append_assoc, List.cons_append]
  exact blocks_eq_singleton (by simp) (uncut_line file.newline_not_mem_header hcases.1 hcases.2)

/-! ## Failing lines -/

/-- The text up to the cross of the next case, or else what follows the cases. -/
def upToCross (z : List Char) : List FailedCase → List Char
  | [] => z
  | _ :: _ => indent

/-- The failing lines of cases that stand between `a` and `z`. -/
def failingLinesOf (z : List Char) : (a : List Char) → List FailedCase → List FailingLine
  | _, [] => []
  | a, case :: cases =>
    ⟨a ++ indent, case.label, '\n' :: (case.messageLine ++ '\n' :: upToCross z cases)⟩ ::
      failingLinesOf z (a ++ case.text) cases

theorem FailedCase.bare_label (case : FailedCase) : Bare isLineTail case.label := by
  have hname := case.name_bare.imp fun _ => isBlank_of_isLineTail
  refine ⟨by simp [FailedCase.label, timing], hname.head_append _, ?_⟩
  have hlast : case.label.getLast? = some 's' := by
    have hsplit : case.label =
        (case.name ++ ' ' :: (numeral case.durationMs ++ ['m'])) ++ ['s'] := by
      simp [FailedCase.label, timing]
    rw [hsplit, List.getLast?_concat]
  intro c hc
  obtain rfl : 's' = c := by simpa [hlast] using hc
  decide

/-- The label of a case is read from its line. -/
theorem FailedCase.failingName?_append (case : FailedCase) (s : List Char) :
    failingName? ('×' :: ' ' :: (case.label ++ '\n' :: s)) = some case.label := by
  have hspace : '\n' ∉ ' ' :: case.label := by simpa using case.newline_not_mem_label
  have hgap : [' '].all isGap = true := by decide
  have hrest := restOfLine_append hspace s
  rw [List.cons_append] at hrest
  rw [failingName?, if_pos (by decide), hrest]
  exact lineValue?_append hgap case.bare_label (Nat.le_refl 1)

theorem FailedCase.any_isCross_messageLine (case : FailedCase) :
    ('\n' :: (case.messageLine ++ ['\n'])).any isCross = false := by
  have hgap : ('\n' :: List.replicate 5 ' ').any isCross = false := by decide
  have harrow : ['→', ' '].any isCross = false := by decide
  have hline : ['\n'].any isCross = false := by decide
  have hshape : '\n' :: (case.messageLine ++ ['\n']) =
      ('\n' :: List.replicate 5 ' ') ++ (['→', ' '] ++ (case.message ++ ['\n'])) := by
    simp [FailedCase.messageLine]
  rw [hshape, List.any_append, List.any_append, List.any_append, hgap, harrow, hline,
    case.message_crosses]
  rfl

/-- A case makes one failing line, whose segment goes up to the next one in `rest`. -/
theorem FailedCase.failingLinesFrom_text (case : FailedCase) (a rest : List Char) :
    failingLinesFrom false a.reverse (case.text ++ rest) =
      (indent, ⟨a ++ indent, case.label, '\n' :: (case.messageLine ++ '\n' ::
        (failingLinesFrom false (a ++ case.text).reverse rest).1)⟩ ::
          (failingLinesFrom false (a ++ case.text).reverse rest).2) := by
  have hlabel : '\n' ∉ ' ' :: case.label := by simpa using case.newline_not_mem_label
  have hindent : Quiet failing? none indent
      ('×' :: ' ' :: (case.label ++ '\n' :: (case.messageLine ++ '\n' :: rest))) :=
    quiet_failing_of_no_cross (by decide) none _
  have hseen : ('\n' :: (case.messageLine ++ ['\n'])).reverse ++
      (case.label.reverse ++ ' ' :: '×' :: (indent.reverse ++ a.reverse)) =
        (a ++ case.text).reverse := by
    simp [FailedCase.text]
  have hmessage := failingLinesFrom_quiet
    (quiet_failing_of_no_cross case.any_isCross_messageLine none rest)
    (case.label.reverse ++ ' ' :: '×' :: (indent.reverse ++ a.reverse))
  rw [hseen] at hmessage
  have hline := failingLinesFrom_restOfLine hlabel ('×' :: (indent.reverse ++ a.reverse))
    (case.messageLine ++ '\n' :: rest)
  have hinside : failingLinesFrom true ('×' :: (indent.reverse ++ a.reverse))
      (' ' :: (case.label ++ '\n' :: (case.messageLine ++ '\n' :: rest))) =
        ('\n' :: (case.messageLine ++ '\n' ::
          (failingLinesFrom false (a ++ case.text).reverse rest).1),
          (failingLinesFrom false (a ++ case.text).reverse rest).2) := by
    simpa using hline.trans (by simpa using hmessage)
  rw [case.text_append, List.append_assoc, List.cons_append, List.cons_append,
    failingLinesFrom_quiet hindent, failingLinesFrom_cross (case.failingName?_append _), hinside]
  simp

/-- Each case between `a` and `z` makes one failing line. -/
theorem failingLinesFrom_cases {z : List Char} (hz : Tail z) (a : List Char)
    (cases : List FailedCase) :
    failingLinesFrom false a.reverse (cases.flatMap FailedCase.text ++ z) =
      (upToCross z cases, failingLinesOf z a cases) := by
  induction cases generalizing a with
  | nil =>
    have hquiet := failingLinesFrom_quiet (quiet_failing_of_no_cross hz.crosses none []) a.reverse
    rw [List.append_nil] at hquiet
    rw [List.flatMap_nil, List.nil_append, hquiet]
    simp [failingLinesFrom, upToCross, failingLinesOf]
  | cons case cases ih =>
    rw [List.flatMap_cons, List.append_assoc, case.failingLinesFrom_text, ih]
    rfl

theorem quiet_failing_stem {stem : List Char} (hstem : stem.all isPathChar = true) {d : Char}
    (hd : isGap d = false) (before : Option Char) (s : List Char) :
    Quiet failing? before stem (d :: s) := by
  induction stem generalizing before with
  | nil => trivial
  | cons c stem ih =>
    rw [List.all_cons, Bool.and_eq_true] at hstem
    refine ⟨?_, ih hstem.2 _⟩
    cases stem with
    | nil => exact failing?_eq_none_of_next hd before s
    | cons e stem =>
      rw [List.all_cons, Bool.and_eq_true] at hstem
      exact failing?_eq_none_of_next (isGap_of_isPathChar hstem.2.1) before _

/-- A path may hold crosses, but no gap follows them. -/
theorem TestPath.quiet_failing (path : TestPath) (before : Option Char) (s : List Char) :
    Quiet failing? before path.text s := by
  obtain ⟨x, hx, -⟩ := exists_tail_suffix path.mark_mem path.extension_mem
  have hcrosses : ∀ mark ∈ testMarks, ∀ extension ∈ testExtensions,
      (mark ++ extension).any isCross = false := by decide
  have hsuffix := quiet_failing_of_no_cross
    (hcrosses _ path.mark_mem _ path.extension_mem)
  refine quiet_append ?_ (hsuffix _ s)
  rw [hx, List.cons_append]
  exact quiet_failing_stem path.stem_all (by decide) before _

theorem TestFile.any_isCross_counts (file : TestFile) :
    (file.counts ++ ['\n']).any isCross = false := by
  have hcounts (d : Char) (hdigit : d.isDigit = false) (hline : d ≠ '\n')
      (hd : d ∉ ' ' :: "tests".toList ++ "failed".toList ++ ['|', '(', ')']) :
      d ∉ file.counts ++ ['\n'] := by
    simp [file.not_mem_counts hdigit hd, hline]
  exact any_isCross_eq_false (hcounts '×' (by decide) (by decide) (by decide))
    (hcounts '✕' (by decide) (by decide) (by decide))

/-- The failing lines of a file are those of its cases. -/
theorem TestFile.failingLines_text (file : TestFile) {z : List Char} (hz : Tail z) :
    failingLines (file.text ++ z) =
      failingLinesOf z (file.header ++ ['\n']) file.cases := by
  have hheader : Quiet failing? none (file.header ++ ['\n'])
      (file.cases.flatMap FailedCase.text ++ z) := by
    rw [TestFile.header, List.append_assoc, List.append_assoc]
    refine quiet_append (quiet_failing_of_no_cross (by decide) _ _) (quiet_append ?_ ?_)
    · exact file.path.quiet_failing _ _
    · exact quiet_failing_of_no_cross file.any_isCross_counts _ _
  have hshape : file.text ++ z =
      (file.header ++ ['\n']) ++ (file.cases.flatMap FailedCase.text ++ z) := by
    simp [TestFile.text]
  rw [failingLines, hshape, failingLinesFrom_quiet hheader, List.append_nil,
    failingLinesFrom_cases hz]

end SuiteScope.Transcript
