import SuiteScope.CommandLine.Style
import SuiteScope.Duration
import SuiteScope.Json
import SuiteScope.Path
import SuiteScope.ScenarioMap
import SuiteScope.Transcript.Report

/-!
# Output of commands

Scenarios and reports are printed for people, or as JSON.
-/

namespace SuiteScope.CommandLine

open SuiteScope.Transcript

/-- A line of output. -/
def line (s : String) : String :=
  s ++ "\n"

/-! ## Scenarios -/

/-- A section as JSON. -/
def sectionJson (sec : Section) : Json :=
  .object [("name", .string sec.name), ("scenarios", .array (sec.scenarios.map .string))]

/-- Scenarios as JSON. -/
def mapJson (map : ScenarioMap) : Json :=
  .object (map.map fun (target, sections) => (target, .array (sections.map sectionJson)))

/-- The name of a target, taken from the project root where it lies below it. -/
def shownTarget (root : Path) (target : String) : String :=
  (((Path.ofString target).relativeTo? root).map Path.toString).getD target

/-- The lines of a section. -/
def sectionText (colour : Bool) (sec : Section) : String :=
  line ("  " ++ styled colour .cyan sec.name) ++
    String.join (sec.scenarios.map fun s => line ("    " ++ styled colour .dim "•" ++ " " ++ s))

/-- The lines of a target. -/
def targetText (colour : Bool) (root : Path) (target : String) (sections : List Section) : String :=
  line (styled colour .bold (shownTarget root target)) ++
    String.join (sections.map (sectionText colour)) ++ line ""

/-- Scenarios for people, where `files` test files have been read. -/
def mapText (colour : Bool) (root : Path) (map : ScenarioMap) (files : Nat) : String :=
  if map.isEmpty then line s!"No scenarios found in {files} test file(s)"
  else
    String.join (map.map fun (target, sections) => targetText colour root target sections) ++
      line (styled colour .green "✓" ++ s!" {map.scenarioCount} scenario(s) for " ++
        s!"{map.length} file(s) from {files} test file(s)")

/-! ## Reports -/

/-- A failure as JSON. -/
def failureJson (f : Failure) : Json :=
  .object ([("testName", .string f.testName), ("originFile", .string f.originFile),
      ("errorMessage", .string f.errorMessage)] ++
    (f.sourceLine?.map fun n => ("sourceLine", Json.number n)).toList ++
    (f.stackExcerpt?.map fun s => ("stackExcerpt", Json.string s)).toList)

/-- Totals as JSON. -/
def totalsJson (t : Totals) : Json :=
  .object [("total", .number t.total), ("passed", .number t.passed), ("failed", .number t.failed),
    ("skipped", .number t.skipped)]

/-- A report as JSON, made at the given time. -/
def reportJson (timestamp : String) (r : Report) : Json :=
  .object [("timestamp", .string timestamp), ("allPassed", .boolean r.allPassed),
    ("exitCode", .number r.exitCode), ("totals", totalsJson r.totals),
    ("durationMs", .number r.durationMs), ("failures", .array (r.failures.map failureJson)),
    ("rawText", .string r.rawText)]

/-- The place of a failure. -/
def location (f : Failure) : String :=
  match f.sourceLine? with
  | some n => s!"{f.originFile}:{n}"
  | none => f.originFile

/-- The lines of a failure. -/
def failureText (colour : Bool) (f : Failure) : String :=
  line ("\n  " ++ styled colour .red "✗" ++ " " ++ f.testName) ++
    line ("    " ++ styled colour .dim (location f)) ++
    line ("    " ++ styled colour .yellow f.errorMessage)

/-- The verdict of a report. -/
def verdictText (colour : Bool) (r : Report) : String :=
  if r.allPassed then
    line (styled colour .boldGreen "✓" ++ " " ++ styled colour .boldGreen "All tests passed")
  else
    line (styled colour .boldRed "✗" ++ " " ++ styled colour .boldRed "Tests failed") ++
      String.join (r.failures.map (failureText colour)) ++ line ""

/-- A report for people. -/
def reportText (colour : Bool) (r : Report) : String :=
  let t := r.totals
  line "" ++ verdictText colour r ++
    line (s!"  Tests: {styled colour .green (toString t.passed)} passed, " ++
      s!"{styled colour .red (toString t.failed)} failed, " ++
      s!"{styled colour .dim (toString t.skipped)} skipped ({t.total} total)") ++
    line s!"  Exit code: {r.exitCode}" ++
    line s!"  Duration: {Duration.format r.durationMs}"

end SuiteScope.CommandLine
