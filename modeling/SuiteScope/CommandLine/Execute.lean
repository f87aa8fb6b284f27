import SuiteScope.CommandLine.Print
import SuiteScope.CommandLine.Request
import SuiteScope.Discovery
import SuiteScope.Session
import SuiteScope.Settings.Load
import SuiteScope.TestRun

/-!
# Commands

`execute` carries out a command line over a file system and an environment. Its outcome is what is
printed and the exit code : zero for success, one for failing tests and for errors, two for a
command line that has no reading. The test command may also write to standard error, and may change
files.
-/

namespace SuiteScope.CommandLine

open SuiteScope.Transcript

/-- What a command finds when it starts. -/
structure Context where
  files : FileSystem
  /-- The environment, in which no name stands twice. -/
  environment : List (String × String)
  /-- The time of the report. -/
  timestamp : String

/-- What a command comes to. -/
inductive Outcome
  | done (output : String)
  /-- The tests have been run, and some fail. -/
  | testsFailed (output : String)
  | failed (error : Error)
  | badUsage
  deriving DecidableEq, Repr

namespace Outcome

/-- The exit code. -/
def exitCode : Outcome → Nat
  | .done _ => 0
  | .testsFailed _ | .failed _ => 1
  | .badUsage => 2

/-- What goes to standard output. -/
def output : Outcome → String
  | .done output | .testsFailed output => output
  | .failed _ | .badUsage => ""

/-- The complaint that goes to standard error. -/
def complaint? : Outcome → Option String
  | .failed e => some ("Error: " ++ e.message)
  | _ => none

end Outcome

/-- What a command comes to, and what it leaves. -/
structure Ending where
  outcome : Outcome
  /-- What the test command wrote to standard error. -/
  complaints : String := ""
  /-- The file tree. -/
  top : Node

/-- Everything that goes to standard error. -/
def Ending.errorOutput (e : Ending) : String :=
  e.complaints ++ (e.outcome.complaint?.map (line ·)).getD ""

namespace Context

/-- The value of a variable of the environment. -/
def value? (c : Context) (name : String) : Option String :=
  c.environment.lookup name

/-- The directory in which the command was started. -/
def directory (c : Context) : Path :=
  c.files.workingDirectory

/-- The root of the project around that directory. -/
def root (c : Context) : Path :=
  Project.findRoot c.files c.directory

/-- Whether output is in colour. -/
def colour (c : Context) : Bool :=
  forcesColour c.value?

/-- The settings of the project. -/
def settings (c : Context) : Except Error Settings :=
  Settings.load c.files (Settings.userFile? c.value?) c.root (.ofEnvironment c.value?)

/-- A report in the form asked for. -/
def showReport (c : Context) (json : Bool) (r : Report) : String :=
  if json then line (reportJson c.timestamp r).pretty else reportText c.colour r

/-- The version line. -/
def versionLine : String := line "tdd 0.1.0"

/-- The scenarios of the test files at some paths, or of the whole project. -/
def mine (c : Context) (paths : List String) (target : Option String) (json : Bool) :
    Except Error String := do
  let settings := (← c.settings).mining
  let resolver : Resolver := ⟨c.root, settings⟩
  let fromHere := fun (p : String) => c.directory.join (.ofString p)
  let files :=
    if paths.isEmpty then Discovery.discover c.files c.root settings
    else Discovery.collectAll c.files settings (paths.map fromHere)
  let chosen ← target.mapM fun t =>
    match resolver.identify? c.files (fromHere t) with
    | some id => .ok id
    | none => .error (.missingTarget t)
  let (map, _) := Session.mine c.files resolver {} files
  let map := map.filter fun (t, _) => chosen.all (· == t)
  .ok (if json then line (mapJson map).pretty else mapText c.colour c.root map files.length)

/-- One run of the tests. What it writes is shown before the report, unless the report is JSON. -/
def run (c : Context) (pattern : Option String) (coverage json : Bool) : Except Error Ending := do
  let settings ← c.settings
  let options : RunOptions := { coverage := coverage || settings.runner.coverage, pattern }
  let surroundings : Surroundings := ⟨c.files, c.environment⟩
  let (captured, top) ←
    TestRun.captured surroundings settings.runner.testCommand c.root options
  let report := TestRun.report captured
  let text := (if json then "" else captured.shown) ++ c.showReport json report
  .ok
    { outcome := if report.isRed then .testsFailed text else .done text
      complaints := if json then "" else captured.complaints
      top }

/-- A report on the transcript in a file. -/
def parse (c : Context) (file : String) (exitCode : Int) (durationMs : Nat) (json : Bool) :
    Except Error String :=
  let path := c.directory.join (.ofString file)
  match c.files.readText path with
  | .ok transcript => .ok (c.showReport json (.ofTranscript transcript durationMs exitCode))
  | .error e => .error (.unreadable path.toString e)

end Context

/-- An ending that leaves the files as they were. -/
def Context.unchanged (c : Context) (outcome : Outcome) : Ending :=
  { outcome, top := c.files.top }

/-- What a request comes to. -/
def Context.answer (c : Context) : Request → Except Error Ending
  | .version => .ok (c.unchanged (.done Context.versionLine))
  | .mine paths target json =>
    (c.mine paths target json).map fun output => c.unchanged (.done output)
  | .run pattern coverage json => c.run pattern coverage json
  | .parse file exitCode durationMs json =>
    (c.parse file exitCode durationMs json).map fun output => c.unchanged (.done output)

/-- What a command line comes to. -/
def execute (c : Context) (args : List String) : Ending :=
  match Request.parse? args with
  | none => c.unchanged .badUsage
  | some request =>
    match c.answer request with
    | .ok ending => ending
    | .error e => c.unchanged (.failed e)

end SuiteScope.CommandLine
