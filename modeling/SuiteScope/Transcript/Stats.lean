import SuiteScope.Text.Line
import SuiteScope.Transcript.Failure

/-!
# Statistics of a transcript

A transcript may say how many tests failed, passed and were skipped. A summary line gives all
counts together : `Tests  1 failed | 2 passed (3)`. Without one, each count is taken from the first
numeral that its word follows. `stats` reads them, and `Totals.reconcile` makes totals of them that
never show a failing run as fully passed.
-/

namespace SuiteScope.Transcript

open SuiteScope.Text

/-- The counts a transcript states, and how it states them. -/
inductive Stats
  /-- A summary line gave the counts. -/
  | combined (failed passed skipped total : Option Nat)
  /-- The words gave the counts one by one. -/
  | perMetric (failed passed skipped : Option Nat)
  /-- No count was found. -/
  | absent
  deriving DecidableEq, Repr

/-! ## The summary line -/

/-- What follows the bar that may separate two counts, and the gaps around it. -/
def afterBar (s : List Char) : List Char :=
  match s.dropWhile isGap with
  | '|' :: rest => rest.dropWhile isGap
  | rest => rest

/-- A count with its word, such as `2 passed`, and the bar after it. -/
def field? (word : String) (s : List Char) : Option (List Char × List Char) :=
  (digits? s).bind fun (ds, rest) =>
    match rest with
    | c :: _ =>
      if isGap c then
        (word.toList.isPrefixOf? (rest.dropWhile isGap)).map fun rest => (ds, afterBar rest)
      else none
    | [] => none

/-- The numeral of the count that may stand here, and what follows. -/
def optionalField (word : String) (s : List Char) : Option (List Char) × List Char :=
  match field? word s with
  | some (ds, rest) => (some ds, rest)
  | none => (none, s)

/-- The count at the end of the summary line, in parentheses. -/
def grandTotal? : List Char → Option (List Char × List Char)
  | '(' :: s =>
    (digits? s).bind fun (ds, rest) =>
      match rest with
      | ')' :: rest => some (ds, rest)
      | _ => none
  | _ => none

/-- The value of a numeral, unless it is too large. -/
def count? (ds : List Char) : Option Nat :=
  readCount? countBound ds

/-- A summary line, read from the start of the line. -/
def summary? : Recognizer Stats := fun before s =>
  if isLineStart before then
    ("Tests".toList.isPrefixOf? (s.dropWhile isGap)).bind fun rest =>
      match rest with
      | c :: _ =>
        if isGap c then
          let (failed, rest) := optionalField "failed" (rest.dropWhile isGap)
          let (passed, rest) := optionalField "passed" rest
          let (skipped, rest) := optionalField "skipped" rest
          let (_, rest) := optionalField "todo" rest
          (grandTotal? rest).map fun (total, rest) =>
            (.combined (failed.bind count?) (passed.bind count?) (skipped.bind count?)
              (count? total), rest)
        else none
      | [] => none
  else none

/-! ## Single counts -/

/-- A numeral, white space and a word. The value is the numeral's, if it is not too large. -/
def metric? (word : String) : Recognizer (Option Nat) := fun _ s =>
  (digits? s).bind fun (ds, rest) =>
    match rest with
    | c :: _ =>
      if isBlank c then
        (word.toList.isPrefixOf? (rest.dropWhile isBlank)).map fun rest => (count? ds, rest)
      else none
    | [] => none

/-- The count that goes with the first occurrence of a word after a numeral. -/
def metricCount? (word : String) (s : List Char) : Option Nat :=
  (findValue? (metric? word) s).join

/-- The counts of a transcript without escapes. -/
def stats (s : List Char) : Stats :=
  match findValue? summary? s with
  | some summary => summary
  | none =>
    match metricCount? "failed" s, metricCount? "passed" s, metricCount? "skipped" s with
    | none, none, none => .absent
    | failed, passed, skipped => .perMetric failed passed skipped

/-! ## Totals -/

/-- How many tests there were, and how they ended. -/
structure Totals where
  total : Nat
  passed : Nat
  failed : Nat
  skipped : Nat
  deriving DecidableEq, Repr

/-- The number of failed tests that the counts state, when `discovered` failures were found. -/
def Stats.failed (discovered : Nat) : Stats → Nat
  | .combined failed _ _ _ => failed.getD 0
  | .perMetric failed _ _ => failed.getD discovered
  | .absent => discovered

/-- The number of passed tests that the counts state. -/
def Stats.passed : Stats → Nat
  | .combined _ passed _ _ | .perMetric _ passed _ => passed.getD 0
  | .absent => 0

/-- The number of skipped tests that the counts state. -/
def Stats.skipped : Stats → Nat
  | .combined _ _ skipped _ | .perMetric _ _ skipped => skipped.getD 0
  | .absent => 0

/-- The number of tests that the counts state, when it is positive. -/
def Stats.statedTotal? : Stats → Option Nat
  | .combined _ _ _ total => total.filter (0 < ·)
  | .perMetric .. | .absent => none

/-- Totals that agree with the exit code : a run that ended badly has a failed test, even when
nothing in its transcript says so. The sum of the counts is kept in 64 bits, without what does not fit. -/
def Totals.reconcile (stats : Stats) (discovered : Nat) (exitCode : Int) : Totals :=
  let stated := stats.failed discovered
  let failed := if exitCode ≠ 0 ∧ stated = 0 then max discovered 1 else stated
  { total := stats.statedTotal?.getD ((stats.passed + failed + stats.skipped) % countBound)
    passed := stats.passed
    failed
    skipped := stats.skipped }

end SuiteScope.Transcript
