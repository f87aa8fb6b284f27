import SuiteScope.Capture
import SuiteScope.Invocation
import SuiteScope.Transcript.Report

/-!
# Test runs

A test run starts the test command in the project root and reports on what it wrote. A run of one
file hands the path of the file to the command, taken from the root where it lies below it.
-/

namespace SuiteScope.TestRun

open SuiteScope.Transcript

/-- The pattern that stands for a file. -/
def patternOf (root file : Path) : String :=
  ((file.relativeTo? root).getD file).toSlashes

/-- The options of a run of one file. -/
def optionsOf (coverage : Bool) (root file : Path) : RunOptions :=
  { coverage, pattern := some (patternOf root file) }

/-- What the test command writes, and the file tree that it leaves. -/
def captured (s : Surroundings) (testCommand : String) (root : Path) (options : RunOptions) :
    Except Error (Captured × Node) :=
  match Invocation.build testCommand options with
  | .error e => .error e
  | .ok inv => Capture.run s inv.program inv.args root

/-- The report on a process. -/
def report (c : Captured) : Report :=
  .ofTranscript c.transcript c.durationMs c.exitCode

end SuiteScope.TestRun
