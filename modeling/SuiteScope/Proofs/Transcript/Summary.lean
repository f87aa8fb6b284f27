import SuiteScope.Proofs.Transcript.Lines
import SuiteScope.Transcript.Stats

/-!
# Reading a summary line

A `Summary` is a summary line as it may be written : some of the four counts, in order, and the
total. Every count that is there is read for its own word and none for another, because the words
start with different letters (`optionalField_joined`), so the line gives back its counts
(`summary?_text`).

A line that does not start with the word of the summary is passed over, whatever words and numerals
are on it (`quiet_summary_lines`). So the first summary line of a transcript gives the statistics,
and nothing around it matters (`stats_append_summary`).
-/

namespace SuiteScope.Transcript

open SuiteScope.Text

/-- A count with its word. -/
def worded (d : Digits) (word : String) : List Char :=
  d.chars ++ ' ' :: word.toList

/-- The counts that are written, each with its word. -/
def written (counts : List (Option Digits × String)) : List (List Char) :=
  counts.filterMap fun (count, word) => count.map (worded · word)

/-- Counts with bars between them, and a space behind the last one. -/
def joined (fields : List (List Char)) : List Char :=
  [' ', '|', ' '].intercalate fields ++ if fields.isEmpty then [] else [' ']

/-- A summary line. -/
structure Summary where
  indent : List Char
  gap : List Char
  failed : Option Digits
  passed : Option Digits
  skipped : Option Digits
  todo : Option Digits
  total : Digits
  indent_gaps : indent.all isGap = true
  gap_gaps : gap.all isGap = true
  gap_ne_nil : gap ≠ []

/-- The line as it is written. -/
def Summary.text (summary : Summary) : List Char :=
  let fields := written [(summary.failed, "failed"), (summary.passed, "passed"),
    (summary.skipped, "skipped"), (summary.todo, "todo")]
  summary.indent ++ ("Tests".toList ++ (summary.gap ++
    (joined fields ++ '(' :: (summary.total.chars ++ [')']))))

/-- The number that a written count stands for, unless it has more than 64 bits. -/
def reported? (d : Digits) : Option Nat :=
  if d.value < Nat.pow 2 64 then some d.value else none

/-- The counts of a summary line. -/
def Summary.stats (summary : Summary) : Stats :=
  .combined (summary.failed.bind reported?) (summary.passed.bind reported?)
    (summary.skipped.bind reported?) (reported? summary.total)

/-- Behind its spaces and tabs the line starts with the word of a summary. -/
def StartsSummary (line : List Char) : Prop :=
  "Tests".toList <+: line.dropWhile isGap

instance (line : List Char) : Decidable (StartsSummary line) :=
  inferInstanceAs (Decidable (_ <+: _))

/-! ## Fields -/

theorem isGap_of_isDigit {c : Char} (h : c.isDigit = true) : isGap c = false :=
  Bool.eq_false_iff.mpr fun hgap => by
    have hblank := isBlank_of_isLineTail (isLineTail_of_isGap hgap)
    rw [isBlank_of_isDigit h] at hblank
    exact absurd hblank (by decide)

/-- A count is read if its word is the one that is looked for. -/
theorem field?_worded (d : Digits) {word other : String} (hother : Bare isGap other.toList)
    (s : List Char) :
    field? word (worded d other ++ s) =
      (word.toList.isPrefixOf? (other.toList ++ s)).map fun rest => (d.chars, afterBar rest) := by
  have hgap : isGap ' ' = true := by decide
  have hdrop : (' ' :: (other.toList ++ s)).dropWhile isGap = other.toList ++ s :=
    dropWhile_append_of_head (x := [' ']) (by decide) (hother.head_append s)
  rw [field?, worded, List.append_assoc, List.cons_append, digits?_append d (by simp; decide)]
  simp only [Option.bind_some, hgap, if_true, hdrop]

/-- A count is read with its own word. -/
theorem optionalField_same (d : Digits) {word : String} (hword : Bare isGap word.toList)
    (s : List Char) : optionalField word (worded d word ++ s) = (some d.chars, afterBar s) := by
  rw [optionalField, field?_worded d hword, List.isPrefixOf?_eq_some_iff_append_eq.mpr rfl,
    Option.map_some]

/-- A count with another word is left for that. -/
theorem optionalField_other (d : Digits) {word other : String} (hword : Bare isGap word.toList)
    (hother : Bare isGap other.toList) (hne : word.toList.head? ≠ other.toList.head?)
    (s : List Char) :
    optionalField word (worded d other ++ s) = (none, worded d other ++ s) := by
  have hnone : word.toList.isPrefixOf? (other.toList ++ s) = none := by
    obtain ⟨c, rest, hc⟩ := List.exists_cons_of_ne_nil hword.ne_nil
    obtain ⟨c', rest', hc'⟩ := List.exists_cons_of_ne_nil hother.ne_nil
    have hcc : c ≠ c' := by simpa [hc, hc'] using hne
    simp [hc, hc', List.isPrefixOf?, hcc]
  rw [optionalField, field?_worded d hother, hnone, Option.map_none]

theorem optionalField_parenthesis (word : String) (s : List Char) :
    optionalField word ('(' :: s) = (none, '(' :: s) := by
  have hdigit : isDecimalDigit '(' = false := by decide
  simp [optionalField, field?, digits?, hdigit]

/-- The total is read from its parentheses. -/
theorem grandTotal?_append (d : Digits) (s : List Char) :
    grandTotal? ('(' :: (d.chars ++ ')' :: s)) = some (d.chars, s) := by
  have hdigits := digits?_append d (s := ')' :: s) (by simp; decide)
  simp [grandTotal?, hdigits]

/-! ## Fields in a row -/

theorem exists_joined_cons (field : List Char) (fields : List (List Char)) :
    ∃ bar, joined (field :: fields) = field ++ (bar ++ joined fields) ∧
      (bar = [' '] ∧ fields = [] ∨ bar = [' ', '|', ' '] ∧ fields ≠ []) := by
  cases fields with
  | nil => exact ⟨[' '], by simp [joined], .inl ⟨rfl, rfl⟩⟩
  | cons next fields =>
    refine ⟨[' ', '|', ' '], ?_, .inr ⟨rfl, List.cons_ne_nil _ _⟩⟩
    simp [joined, List.intercalate_cons_cons]

theorem exists_of_mem_written {counts : List (Option Digits × String)} {field : List Char}
    (h : field ∈ written counts) : ∃ d, ∃ count ∈ counts, field = worded d count.2 := by
  obtain ⟨⟨count, word⟩, hmem, hfield⟩ := List.mem_filterMap.mp h
  obtain ⟨d, -, rfl⟩ := Option.map_eq_some_iff.mp hfield
  exact ⟨d, _, hmem, rfl⟩

/-- In front of the total no gap is left. -/
theorem head_joined (counts : List (Option Digits × String)) (s : List Char) :
    ∀ c ∈ (joined (written counts) ++ '(' :: s).head?, isGap c = false := by
  cases hfields : written counts with
  | nil => simp [joined]; decide
  | cons field fields =>
    obtain ⟨bar, hjoined, -⟩ := exists_joined_cons field fields
    obtain ⟨d, count, -, rfl⟩ := exists_of_mem_written (hfields ▸ List.mem_cons_self)
    rw [hjoined, worded, List.append_assoc, List.append_assoc]
    exact d.head_append (fun _ => isGap_of_isDigit) _

/-- A count is read off the row if it is there, and the row is left as it is if not. -/
theorem optionalField_joined (count : Option Digits) (word : String)
    (hword : Bare isGap word.toList) (counts : List (Option Digits × String))
    (hcounts : ∀ other ∈ counts,
      Bare isGap other.2.toList ∧ word.toList.head? ≠ other.2.toList.head?) (s : List Char) :
    optionalField word (joined (written ((count, word) :: counts)) ++ '(' :: s) =
      (count.map Digits.chars, joined (written counts) ++ '(' :: s) := by
  cases count with
  | some d =>
    have hwritten : written ((some d, word) :: counts) = worded d word :: written counts := rfl
    obtain ⟨bar, hjoined, hbar⟩ := exists_joined_cons (worded d word) (written counts)
    have hafter : afterBar (bar ++ (joined (written counts) ++ '(' :: s)) =
        joined (written counts) ++ '(' :: s := by
      rcases hbar with ⟨rfl, hnil⟩ | ⟨rfl, -⟩
      · rw [hnil]
        rfl
      · exact dropWhile_append_of_head (x := [' ']) (by decide) (head_joined counts s)
    rw [hwritten, hjoined, List.append_assoc, List.append_assoc, optionalField_same d hword, hafter,
      Option.map_some]
  | none =>
    have hwritten : written ((none, word) :: counts) = written counts := rfl
    rw [hwritten, Option.map_none]
    cases hfields : written counts with
    | nil => exact optionalField_parenthesis word s
    | cons field fields =>
      obtain ⟨bar, hjoined, -⟩ := exists_joined_cons field fields
      obtain ⟨d, other, hother, rfl⟩ := exists_of_mem_written (hfields ▸ List.mem_cons_self)
      obtain ⟨hbare, hne⟩ := hcounts other hother
      rw [hjoined, List.append_assoc, optionalField_other d hword hbare hne]

/-! ## The line -/

/-- A count that is too large is not reported. -/
theorem count?_chars (d : Digits) : count? d.chars = reported? d :=
  d.readCount?_chars countBound

theorem bind_count? (count : Option Digits) :
    (count.map Digits.chars).bind count? = count.bind reported? := by
  cases count with
  | none => rfl
  | some d => exact count?_chars d

/-- A summary line is read back. -/
theorem summary?_text {before : Option Char} (hbefore : isLineStart before = true)
    (summary : Summary) (s : List Char) :
    summary? before (summary.text ++ s) = some (summary.stats, s) := by
  obtain ⟨indent, gap, failed, passed, skipped, todo, total, hindent, hgap, hne⟩ := summary
  obtain ⟨c, rest, hcons⟩ := List.exists_cons_of_ne_nil hne
  have hc : isGap c = true := List.all_eq_true.mp hgap c (by simp [hcons])
  have htests : Bare isGap "Tests".toList := by decide
  have htodo := optionalField_joined todo "todo" (by decide) [] (by simp) (total.chars ++ ')' :: s)
  have hskipped := optionalField_joined skipped "skipped" (by decide) [(todo, "todo")]
    (by simp; decide) (total.chars ++ ')' :: s)
  have hpassed := optionalField_joined passed "passed" (by decide)
    [(skipped, "skipped"), (todo, "todo")] (by simp; decide) (total.chars ++ ')' :: s)
  have hfailed := optionalField_joined failed "failed" (by decide)
    [(passed, "passed"), (skipped, "skipped"), (todo, "todo")] (by simp; decide)
    (total.chars ++ ')' :: s)
  rw [summary?, if_pos hbefore]
  simp only [Summary.text, List.append_assoc, List.cons_append, List.nil_append]
  rw [dropWhile_append_of_head hindent (htests.head_append _),
    List.isPrefixOf?_eq_some_iff_append_eq.mpr rfl, Option.bind_some]
  have hdrop := dropWhile_append_of_head hgap (head_joined
    [(failed, "failed"), (passed, "passed"), (skipped, "skipped"), (todo, "todo")]
    (total.chars ++ ')' :: s))
  simp only [hcons, List.cons_append] at hdrop ⊢
  simp only [hc, if_true, hdrop, hfailed, hpassed, hskipped, htodo]
  have htotal : grandTotal? (joined (written []) ++ '(' :: (total.chars ++ ')' :: s)) =
      some (total.chars, s) := grandTotal?_append total s
  simp only [htotal, Option.map_some, bind_count?, count?_chars, Summary.stats]

/-! ## Other lines -/

/-- A line that does not start as a summary is none. -/
theorem summary?_eq_none {line : List Char} (h : ¬StartsSummary line) (before : Option Char)
    (s : List Char) : summary? before (line ++ '\n' :: s) = none := by
  have hnone : "Tests".toList.isPrefixOf? (line.dropWhile isGap ++ '\n' :: s) = none := by
    rw [← Option.not_isSome_iff_eq_none, Option.isSome_iff_exists]
    rintro ⟨rest, hrest⟩
    exact h (prefix_append_cons (by decide) ⟨rest, List.isPrefixOf?_eq_some_iff_append_eq.mp hrest⟩)
  rw [summary?, dropWhile_append_cons (by decide), hnone]
  simp

theorem quiet_summary_inside {c : Char} (hc : c ≠ '\n') {x : List Char} (hx : '\n' ∉ x)
    (s : List Char) : Quiet summary? (some c) (x ++ ['\n']) s := by
  have hnone {c : Char} (hc : c ≠ '\n') (t : List Char) : summary? (some c) t = none := by
    simp [summary?, isLineStart, hc]
  induction x generalizing c with
  | nil => exact ⟨hnone hc _, trivial⟩
  | cons d x ih =>
    rw [List.mem_cons, not_or] at hx
    exact ⟨hnone hc _, ih (Ne.symm hx.1) hx.2⟩

/-- No summary starts anywhere on a line that does not start with its word. -/
theorem quiet_summary_of_not_startsSummary {line : List Char} (hline : '\n' ∉ line)
    (h : ¬StartsSummary line) (before : Option Char) (s : List Char) :
    Quiet summary? before (line ++ ['\n']) s := by
  have hnone := summary?_eq_none h before s
  cases line with
  | nil => exact ⟨hnone, trivial⟩
  | cons c line =>
    rw [List.mem_cons, not_or] at hline
    exact ⟨by simpa using hnone, quiet_summary_inside (Ne.symm hline.1) hline.2 s⟩

/-- Nothing is read as a summary in front of the summary line. -/
theorem quiet_summary_lines {pre : List Char} (h : ∀ line ∈ lines pre, ¬StartsSummary line)
    (s : List Char) : Quiet summary? none (pre ++ ['\n']) s := by
  rw [← flatMap_lines]
  exact quiet_flatMap (fun line hline => quiet_summary_of_not_startsSummary
    (newline_not_mem_of_mem_lines hline) (h line hline)) none s

/-- The first line that starts with the word of a summary gives the statistics if it is one,
whatever words and numerals stand in front of it and behind. A count that is not written is absent,
and so is one that is too large. -/
theorem stats_append_summary (summary : Summary) {pre : List Char}
    (h : ∀ line ∈ lines pre, ¬StartsSummary line) (post : List Char) :
    stats (pre ++ '\n' :: (summary.text ++ '\n' :: post)) =
      .combined (summary.failed.bind reported?) (summary.passed.bind reported?)
        (summary.skipped.bind reported?) (reported? summary.total) := by
  have hstart : isLineStart (pre ++ ['\n']).getLast? = true := by simp [isLineStart]
  have hread := summary?_text hstart summary ('\n' :: post)
  have hfound := findValue?_append (quiet_summary_lines h _) hread
  rw [List.append_assoc, List.singleton_append] at hfound
  rw [stats, hfound, Summary.stats]

/-- Zeros in front, a count that is too large, and other summaries around the line. -/
theorem stats_of_crowded_summary :
    let summary : Summary :=
      { indent := ['\t'], gap := [' ', '\t'],
        failed := some ⟨"007".toList, by decide, by decide⟩, passed := none,
        skipped := some ⟨"18446744073709551616".toList, by decide, by decide⟩,
        todo := some ⟨"3".toList, by decide, by decide⟩,
        total := ⟨"12".toList, by decide, by decide⟩,
        indent_gaps := by decide, gap_gaps := by decide, gap_ne_nil := by decide }
    let pre := "2 failed\n- Tests  1 passed (1)".toList
    summary.text = "\tTests \t007 failed | 18446744073709551616 skipped | 3 todo (12)".toList ∧
      (∀ line ∈ lines pre, ¬StartsSummary line) ∧
      stats (pre ++ '\n' :: (summary.text ++ '\n' :: "Tests  5 passed (5)".toList)) =
        .combined (some 7) none none (some 12) := by
  intro summary pre
  have hpre : ∀ line ∈ lines pre, ¬StartsSummary line := by decide
  refine ⟨by decide, hpre, ?_⟩
  rw [stats_append_summary summary hpre]
  rfl

end SuiteScope.Transcript
