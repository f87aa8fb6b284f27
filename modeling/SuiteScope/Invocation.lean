import SuiteScope.Error
import SuiteScope.Shell.Words

/-!
# Invocations

An invocation is the program that runs the tests, with its arguments. `build` makes it of the test
command and the options of one run. When the command runs a script through a package manager, a
separator keeps the options for the script.
-/

namespace SuiteScope

/-- Options of one run. -/
structure RunOptions where
  coverage : Bool := false
  /-- The runner stays alive, so it is not told to run once. -/
  watch : Bool := false
  pattern : Option String := none
  deriving DecidableEq, Repr

/-- A program and its arguments. -/
structure Invocation where
  program : String
  args : List String
  deriving DecidableEq, Repr

namespace Invocation

/-- The arguments that the options add. An empty pattern adds none. -/
def optionArgs (options : RunOptions) : List String :=
  (if options.coverage then ["--coverage"] else []) ++
    (if options.watch then [] else ["--run"]) ++
    (options.pattern.filter (· ≠ "")).toList

/-- Whether a program is a package manager, going by its file name without extension. -/
def isPackageManager (program : String) : Bool :=
  match (Path.ofString program).fileStem? with
  | some stem => ["pnpm", "npm", "yarn"].contains stem.toString
  | none => false

/-- Whether arguments make a package manager run a script. -/
def runsScript (args : List String) : Bool :=
  match args with
  | first :: _ => ["test", "t", "run", "run-script"].contains first
  | [] => false

/-- Whether added arguments have to be kept apart from those of a package manager. -/
def needsSeparator (program : String) (args : List String) : Bool :=
  isPackageManager program && !args.contains "--" && runsScript args

/-- The invocation of a test command with the options of one run. -/
def build (testCommand : String) (options : RunOptions) : Except Error Invocation :=
  match Shell.Words.split? testCommand with
  | none => .error (.openQuote testCommand)
  | some [] => .error .emptyCommand
  | some (program :: args) =>
    let added := optionArgs options
    let separator := if added ≠ [] ∧ needsSeparator program args then ["--"] else []
    .ok ⟨program, args ++ separator ++ added⟩

/-- The command line of an invocation. -/
def display (inv : Invocation) : String :=
  Shell.Words.join (inv.program :: inv.args)

end Invocation

end SuiteScope
