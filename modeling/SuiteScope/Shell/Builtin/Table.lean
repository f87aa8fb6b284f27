import SuiteScope.Shell.Builtin.Directory
import SuiteScope.Shell.Builtin.Jobs
import SuiteScope.Shell.Builtin.Variables
import SuiteScope.Shell.Condition
import SuiteScope.Shell.Printf

/-!
# The commands of the shell

`builtin?` finds the command of a name, for the commands that carry out no other command. Such a
command is a step that answers its status. What it writes is kept until it has ended.
-/

namespace SuiteScope.Shell

open Step

namespace Builtin

/-- The commands `test` and `[`. -/
def condition (arguments : List Bytes) : Step Nat := do
  match Condition.holds? (← files) arguments with
  | .ok holds => return if holds then 0 else 1
  | .error message => fail message

/-- The command `[`, whose last argument closes it. -/
def bracket (arguments : List Bytes) : Step Nat := do
  if (arguments.getLast?.bind List.head?) != some ']' then fail "missing ]".toList
  condition arguments.dropLast

/-- The command `printf`. -/
def printf (arguments : List Bytes) : Step Nat := do
  match (← takeOptions "" arguments).2 with
  | [] => fail "usage: printf format [arg ...]".toList
  | format :: arguments =>
    let r := Printf.run .builtin format arguments
    for event in r.events do
      match event with
      | .text s => say s
      | .warning message => warn message
    match r.fault with
    | some message => fail message
    | none => return r.status

/-- The commands `break` and `continue`, of which each skips in its own way. -/
def leave (skip : Nat → Skip) (arguments : List Bytes) : Step Nat := do
  let wanted ← match arguments with
    | [] => pure 1
    | text :: _ => do
      let n ← countOf text
      if n = 0 then failNumber text
      pure n
  let n := min wanted (← process).loops
  if n ≠ 0 then change fun p => { p with skip := skip n }
  return 0

/-- The command `return`. -/
def returns (arguments : List Bytes) : Step Nat := do
  match arguments with
  | [] =>
    change fun p => { p with skip := .returningAsIs }
    return (← process).status
  | text :: _ =>
    let n ← countOf text
    change fun p => { p with skip := .returning }
    return n

/-- The command `exit`. -/
def exits (arguments : List Bytes) : Step Nat := do
  match arguments with
  | [] => throw .exits
  | text :: _ =>
    let n ← countOf text
    change fun p => { p with kept := some n }
    throw .exits

/-- The command `type`. -/
def type (arguments : List Bytes) : Step Nat := do
  let found ← arguments.mapM (describe true none)
  return found.foldl (· ||| ·) 0

/-- The command `command`, where it is asked what a name stands for. -/
def command (arguments : List Bytes) : Step Nat := do
  let (options, operands) ← takeOptions "pvV" arguments
  let asks := fun c => options.any (·.1 == c)
  let path? := if asks 'p' then some defaultSearchPath.toList else none
  match operands with
  | name :: _ =>
    if asks 'v' || asks 'V' then describe (asks 'V') path? name else return 0
  | [] => return 0

/-- The command `hash`. -/
def hash (arguments : List Bytes) : Step Nat := do
  let (options, names) ← takeOptions "r" arguments
  if !options.isEmpty then
    change fun p => { p with found := [] }
    return 0
  if names.isEmpty then listRemembered
  let mut status := 0
  for name in names do
    remember name none
    match ← lookupName {} name with
    | .unknown wording =>
      warn (name ++ [':', ' '] ++ wording)
      status := 1
    | _ => pure ()
  return status

end Builtin

/-- The command of the shell of a name, as a step from its arguments to its status. -/
def builtin? (name : String) : Option (List Bytes → Step Nat) :=
  match name with
  | ":" | "true" => some fun _ => return 0
  | "false" => some fun _ => return 1
  | "[" => some Builtin.bracket
  | "test" => some Builtin.condition
  | "alias" => some Builtin.defineAliases
  | "bg" | "fg" => some Builtin.moveJob
  | "break" => some (Builtin.leave .leaving)
  | "continue" => some (Builtin.leave .repeating)
  | "cd" | "chdir" => some Builtin.cd
  | "command" => some Builtin.command
  | "echo" => some fun arguments => do
    say (echoBuiltin arguments)
    return 0
  | "exit" => some Builtin.exits
  | "export" => some (Builtin.markVariables "export" true false)
  | "getopts" => some Builtin.getopts
  | "hash" => some Builtin.hash
  | "jobs" => some Builtin.jobs
  | "kill" => some Builtin.kill
  | "local" => some Builtin.localVariables
  | "printf" => some Builtin.printf
  | "pwd" => some Builtin.pwd
  | "read" => some Builtin.read
  | "readonly" => some (Builtin.markVariables "readonly" false true)
  | "return" => some Builtin.returns
  | "set" => some Builtin.set
  | "shift" => some Builtin.shift
  | "times" => some fun _ => Builtin.times
  | "trap" => some Builtin.trap
  | "type" => some Builtin.type
  | "ulimit" => some Builtin.ulimit
  | "umask" => some Builtin.umask
  | "unalias" => some Builtin.unalias
  | "unset" => some Builtin.unset
  | "wait" => some Builtin.wait
  | _ => none

end SuiteScope.Shell
