import SuiteScope.Error
import SuiteScope.Text.Blank

/-!
# Settings

Settings name the project, the command that runs its tests, and how its test files are mined.
`problems` lists what makes settings unusable, and `withOverrides` lets the environment replace the
name and the command.
-/

namespace SuiteScope

/-- How test files are found, and how what they import is found. -/
structure MiningSettings where
  /-- Directories scanned for test files, taken from the project root. -/
  testDirs : List String := ["src/__tests__"]
  /-- Endings of the names of test files. -/
  testSuffixes : List String := [".spec.ts", ".spec.tsx", ".test.ts", ".test.tsx"]
  /-- Endings tried behind the path of a dependency. The empty one tries the path as written. -/
  extensions : List String :=
    ["", ".ts", ".tsx", ".js", ".jsx", "/index.ts", "/index.tsx", "/index.js"]
  /-- Beginnings of dependencies with the directories they stand for, in the order of the
  beginnings. -/
  aliases : List (String × String) := [("@/", "src")]
  /-- Names of directories that are not scanned. -/
  ignoreDirs : List String := ["node_modules", "dist", "build", ".git"]
  deriving DecidableEq, Repr

/-- How the tests are run. -/
structure RunnerSettings where
  testCommand : String := "pnpm test"
  coverage : Bool := false
  deriving DecidableEq, Repr

/-- All settings of a project. -/
structure Settings where
  projectName : String := "My Project"
  runner : RunnerSettings := {}
  mining : MiningSettings := {}
  deriving DecidableEq, Repr

namespace Settings

/-- What the environment may replace. -/
structure Overrides where
  projectName : Option String := none
  testCommand : Option String := none
  deriving DecidableEq, Repr

/-- The overrides of an environment. -/
def Overrides.ofEnvironment (lookup : String → Option String) : Overrides :=
  ⟨lookup "TDD_PROJECT_NAME", lookup "TDD_TEST_COMMAND"⟩

/-- Settings in which the environment has replaced what it sets. -/
def withOverrides (s : Settings) (o : Overrides) : Settings :=
  { s with
    projectName := o.projectName.getD s.projectName
    runner := { s.runner with testCommand := o.testCommand.getD s.runner.testCommand } }

/-- Whether a text holds nothing but white space. -/
def isVoid (s : String) : Bool :=
  (Text.trim s.toList).isEmpty

/-- Everything that makes settings unusable, in a fixed order. -/
def problems (s : Settings) : List Problem :=
  (if isVoid s.projectName then [.noProjectName] else []) ++
    (if isVoid s.runner.testCommand then [.noTestCommand] else []) ++
    (if s.mining.extensions.isEmpty then [.noExtensions] else []) ++
    (if s.mining.testSuffixes.isEmpty then [.noTestSuffixes] else [])

end Settings

end SuiteScope
