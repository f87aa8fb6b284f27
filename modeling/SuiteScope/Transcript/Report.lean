import SuiteScope.Transcript.Escape
import SuiteScope.Transcript.Failure
import SuiteScope.Transcript.Stats

/-!
# Reports

A report is what one run of a test command comes to. `Report.ofTranscript` reads it off the
transcript, without escapes, and the exit code. All tests passed when the exit code is zero, no
failing line was found and no failed test was counted.
-/

namespace SuiteScope.Transcript

/-- The outcome of one run. -/
structure Report where
  allPassed : Bool
  exitCode : Int
  totals : Totals
  durationMs : Nat
  failures : List Failure
  /-- The transcript as it was captured, escapes included. -/
  rawText : String
  deriving DecidableEq, Repr

/-- Whether a test still fails. -/
def Report.isRed (r : Report) : Bool :=
  !r.allPassed

/-- The report of a complete transcript. -/
def Report.ofTranscript (transcript : String) (durationMs : Nat) (exitCode : Int) : Report :=
  let text := strip transcript.toList
  let found := Transcript.failures text
  let totals := Totals.reconcile (stats text) found.length exitCode
  { allPassed := exitCode == 0 && found.isEmpty && totals.failed == 0
    exitCode, totals, durationMs
    failures := found
    rawText := transcript }

end SuiteScope.Transcript
