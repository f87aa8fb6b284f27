import SuiteScope.Proofs.Transcript.Summary

/-!
# The summary line of a run

The summary line of a run with failed and passed tests gives back the counts it was written with
(`summary?_summaryLine`), and lines that start with another word or sign are passed over on the way
to it (`quiet_summary_line`).
-/

namespace SuiteScope.Transcript

open SuiteScope.Text

/-- A count with its word. -/
def countOf (n : Nat) (word : String) : List Char :=
  numeral n ++ ' ' :: word.toList

/-- The summary line of a run with failed and passed tests. -/
def summaryLine (failed passed total : Nat) : List Char :=
  List.replicate 6 ' ' ++ ("Tests".toList ++ ' ' :: ' ' :: (countOf failed "failed" ++
    ' ' :: '|' :: ' ' :: (countOf passed "passed" ++ ' ' :: '(' :: (numeral total ++ [')']))))

example : summaryLine 1 20 21 = "      Tests  1 failed | 20 passed (21)".toList := by decide

theorem not_mem_countOf {c : Char} {word : String} (hdigit : c.isDigit = false)
    (hword : c ∉ ' ' :: word.toList) (n : Nat) : c ∉ countOf n word := by
  rw [countOf, List.mem_append, not_or]
  exact ⟨not_mem_numeral hdigit n, hword⟩

theorem not_mem_summaryLine {c : Char} (hdigit : c.isDigit = false)
    (hc : c ∉ ' ' :: "Tests".toList ++ "failed".toList ++ "passed".toList ++ ['|', '(', ')'])
    (failed passed total : Nat) : c ∉ summaryLine failed passed total := by
  simp only [List.mem_append, List.mem_cons, not_or] at hc
  obtain ⟨⟨⟨⟨hspace, htests⟩, hfailed⟩, hpassed⟩, hbar, hopen, hclose, -⟩ := hc
  have hcount {word : String} (hword : c ∉ word.toList) (n : Nat) : c ∉ countOf n word :=
    not_mem_countOf hdigit (fun h => (List.mem_cons.mp h).elim hspace hword) n
  simp only [summaryLine, List.mem_append, List.mem_cons, List.mem_replicate, not_or, not_and]
  exact ⟨fun _ => hspace, htests, hspace, hspace, hcount hfailed _, hspace, hbar, hspace,
    hcount hpassed _, hspace, hopen, not_mem_numeral hdigit _, hclose, List.not_mem_nil⟩

/-! ## Reading it -/

/-- The summary line of a run, as one of the lines that may be written. -/
def runSummary (failed passed total : Nat) : Summary where
  indent := List.replicate 6 ' '
  gap := [' ', ' ']
  failed := some (.ofNat failed)
  passed := some (.ofNat passed)
  skipped := none
  todo := none
  total := .ofNat total
  indent_gaps := by decide
  gap_gaps := by decide
  gap_ne_nil := by decide

theorem text_runSummary (failed passed total : Nat) :
    (runSummary failed passed total).text = summaryLine failed passed total := by
  simp [Summary.text, runSummary, summaryLine, written, joined, worded, countOf, Digits.ofNat,
    List.intercalate_cons_cons]

/-- The summary line is read back. -/
theorem summary?_summaryLine {before : Option Char} (hbefore : isLineStart before = true)
    (failed passed total : Nat) (s : List Char) :
    summary? before (summaryLine failed passed total ++ s) =
      some (.combined (count? (numeral failed)) (count? (numeral passed)) none
        (count? (numeral total)), s) := by
  rw [← text_runSummary, summary?_text hbefore, Summary.stats]
  simp only [runSummary, Option.bind_some, Option.bind_none, ← count?_chars, Digits.ofNat]

/-! ## Other lines -/

/-- A line is no summary if a character of another word stands behind its gap. -/
theorem quiet_summary_line {gap x : List Char} {c : Char} (hgap : gap.all isGap = true)
    (hc : isGap c = false) (hword : c ≠ 'T') (hx : '\n' ∉ c :: x) (before : Option Char)
    (s : List Char) : Quiet summary? before (gap ++ c :: (x ++ ['\n'])) s := by
  have hline : '\n' ∉ gap ++ c :: x := fun h =>
    (List.mem_append.mp h).elim (newline_not_mem_of_all_isGap hgap) hx
  have hother : ¬StartsSummary (gap ++ c :: x) := by
    rw [StartsSummary, dropWhile_append_of_head hgap (by simpa using hc)]
    exact fun h => hword (List.cons_prefix_cons.mp h).1.symm
  simpa using quiet_summary_of_not_startsSummary hline hother before s

end SuiteScope.Transcript
