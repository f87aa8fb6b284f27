import SuiteScope.Shell.Program
import SuiteScope.Shell.Run.Fork

/-!
# Programs in a process

`startProgram` lets a process become a program. If the program is the shell itself, `startShell`
sets up its variables from those that are exported, its options and its script, and runs it to its
end.
-/

namespace SuiteScope.Shell

/-- The variables that every shell has, with their values. -/
def firstVariables : List (String × String) :=
  [("IFS", " \t\n"), ("OPTIND", "1"), ("PATH", defaultSearchPath), ("PS1", "# "), ("PS2", "> "),
    ("PS4", "+ ")]

/-- The exported variables of a process. -/
def Process.environment (p : Process) : List (Bytes × Variable) :=
  p.bindings.filterMap fun (name, v) =>
    if v.isExported && v.value.isSome then some (name, { v with isReadOnly := false }) else none

/-- The variables of a shell that gets some from the process that starts it. -/
def shellVariables (given : List (Bytes × Variable)) (parent : Nat) : List (Bytes × Variable) :=
  let plain := fun (value : Bytes) => ({ value := some value } : Variable)
  let fixed := ["IFS", "OPTIND"]
  let first := firstVariables.filter fun (name, _) =>
    fixed.contains name || (given.lookup name.toList).isNone
  let kept := given.filter fun (name, _) => !fixed.contains (String.ofList name)
  first.map (fun (name, value) => (name.toList, plain value.toList))
    ++ ("PPID".toList, plain (decimal parent)) :: kept

/-- The shell that a process becomes. -/
def Process.fresh (p : Process) (name : Bytes) : Process :=
  let isIgnored := fun (signal : Nat) =>
    p.ignored.contains signal || p.traps.lookup signal == some []
  { name
    arguments := []
    number := p.number
    root := p.number
    parent := p.parent
    here := p.here
    directory := p.directory
    bindings := shellVariables p.environment p.parent
    descriptors := p.descriptors
    ignored := (List.range Signal.count).filter isIgnored
    umask := p.umask }

namespace Step

/-- The name of the directory of a new shell : the one it is told, if that is right. -/
def nameDirectory : Step Unit := do
  let fs ← files
  let told := (← value? "PWD".toList).filter fun name =>
    name.head? == some '/' && (fs.place (pathOf name)).toOption == some fs.here
  let directory := told.getD (Text.spread fs.workingDirectory.toBytes)
  change fun p => { p with directory }
  setVariable "PWD".toList (some directory) true

/-- The text of a script file. -/
def scriptText (name : Bytes) : Step Bytes := do
  let fs ← files
  match fs.place (pathOf name) with
  | .ok place =>
    let text := Text.spread ((← get).world.content place)
    return text.filter (· != '\x00')
  | .error e => fail ("cannot open ".toList ++ name ++ [':', ' '] ++ openingError .read e)

/-- A shell with its arguments is run. -/
def shellBody (r : Runner) (arguments : List Bytes) : Step Unit := do
  nameDirectory
  let setting ← setOptions true arguments
  let named := fun (operands : List Bytes) =>
    change fun p => { p with name := operands.headD p.name, arguments := operands.drop 1 }
  match setting.isScript, setting.operands with
  | true, [] => fail "-c requires an argument".toList
  | true, script :: operands =>
    named operands
    let readsInput ← hasOption "stdin"
    let _ ← runText r false { isLast := !readsInput } script
    if readsInput then
      let _ ← runText r true {} ((← readAll 0).getD [])
  | false, operands =>
    if operands.isEmpty then setOption "stdin" true
    if ← hasOption "stdin" then
      change fun p => { p with arguments := operands }
      let _ ← runText r true {} (((← readAll 0).getD []).filter (· != '\x00'))
    else
      let text ← scriptText (operands.headD [])
      named operands
      let _ ← runText r true {} text

/-- The process becomes a shell with these arguments, which is run to its end. -/
def startShell (r : Runner) (name : Bytes) (arguments : List Bytes) : Step Ended := do
  change fun p => p.fresh name
  (toEnd r (shellBody r arguments) : StateM State Ended)

/-- The process becomes the program at a path, which is run to its end. Its name is the first of the
words that it is started with. -/
def startProgram (r : Runner) (path : Bytes) (words : List Bytes) :
    Step (Except FileError Ended) := do
  let fs ← files
  let name := words.headD []
  let arguments := words.drop 1
  match fs.place (pathOf path) with
  | .error e => return .error e
  | .ok place =>
    match installed? place with
    | none => return .error .permissionDenied
    | some program =>
      match program? program with
      | some run => return .ok (.exited (← run ⟨name, arguments⟩))
      | none => return .ok (← startShell r name arguments)

end Step

end SuiteScope.Shell
