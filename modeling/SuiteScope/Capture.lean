import SuiteScope.Shell.Run.Command

/-!
# Captured processes

A process is a program that is started in a directory and runs to its end. `launch` finds the
program and runs it : a name without a slash on the search path, any other name in the file tree.
`Captured` is what is kept of a process. The file tree that it leaves is given along with it.
-/

namespace SuiteScope

/-- What a process wrote and how it ended. -/
structure Captured where
  /-- Everything written, with replacement characters for bytes that are not text. -/
  transcript : String
  /-- The part that was written to standard output. -/
  shown : String
  /-- The part that was written to standard error. -/
  complaints : String
  /-- The exit code. A process that a signal ended has the code zero. -/
  exitCode : Nat
  /-- The time up to the end of the process and of its outputs. -/
  durationMs : Nat
  deriving DecidableEq, Repr

/-- Whether a process ended well. -/
def Captured.isSuccess (c : Captured) : Bool :=
  c.exitCode == 0

/-- What is kept of a process. -/
def Captured.ofWorld (w : Shell.World) (ended : Shell.Ended) : Captured :=
  let written := Shell.Part.inOrder w.captured
  let textOf := fun (parts : List Shell.Part) => Text.readable (parts.flatMap (·.bytes))
  { transcript := textOf written
    shown := textOf (written.filter (!·.isError))
    complaints := textOf (written.filter (·.isError))
    exitCode := match ended with
      | .exited n => n
      | .killed _ => 0
    durationMs := Shell.Part.latest w.now w.captured / 1000 }

/-- What a process finds when it starts. -/
structure Surroundings where
  files : FileSystem
  environment : List (String × String)

namespace Capture

open Shell

/-- The variable that holds the search path. -/
def searchPath (s : Surroundings) : String :=
  (s.environment.lookup "PATH").getD defaultSearchPath

/-- The files that a command may name. -/
def paths (s : Surroundings) (command : String) : Except FileError (List Bytes) :=
  let name := Text.bytewise command
  if command.contains '/' then .ok [name]
  else if FileSystem.nameLimit < command.utf8ByteSize then .error .nameTooLong
  else if command.isEmpty then .error .notFound
  else .ok (candidates (Text.bytewise (searchPath s)) name)

/-- The first of some files that is a program. The result otherwise is why there is none. -/
def firstProgram (fs : FileSystem) : (why : FileError) → List Bytes → Except FileError Bytes
  | why, [] => .error why
  | why, path :: rest =>
    match fs.place (pathOf path) with
    | .ok place =>
      if (installed? place).isSome then .ok path else firstProgram fs .permissionDenied rest
    | .error e =>
      let isAbsent := e = .notFound ∨ e = .notADirectory
      firstProgram fs (if isAbsent ∧ why = .permissionDenied then why else e) rest

/-- The number of the process that is captured. -/
def processNumber : Nat := 4242

/-- The time at which a process is started, unless something in the file tree is later. -/
def startTime : Nat := 1800000000

/-- The process that becomes a program, with its outputs captured. -/
def startState (s : Surroundings) (command : String) (here : List FileName) : State :=
  let readable : Opened := { target := .nothing, isReadable := true, isWritable := false }
  let writable := fun (target : Shell.Target) =>
    ({ target, isReadable := false, isWritable := true } : Opened)
  let bytes := fun (text : String) => Text.bytewise text
  let world : World :=
    { top := s.files.top
      clock := max startTime (s.files.top.latest + 1)
      opened := #[readable, writable .out, writable .err]
      lastProcess := processNumber
      living := [processNumber, processNumber - 1] }
  let process : Process :=
    { name := bytes command
      arguments := []
      number := processNumber
      root := processNumber
      parent := processNumber - 1
      here
      directory := Text.spread (⟨s.files.top, here⟩ : FileSystem).workingDirectory.toBytes
      bindings := s.environment.map fun (name, value) =>
        (bytes name, { value := some (bytes value), isExported := true })
      descriptors := [(0, 0), (1, 1), (2, 2)] }
  ⟨world, process⟩

/-- How a process has ended that becomes a program. -/
def endedOf : Except Stop (Except FileError Ended) → Except FileError Ended
  | .ok result => result
  | .error (.killed n) => .ok (.killed n)
  | .error (.replaced how) => .ok how
  | .error _ => .ok (.exited 2)

/-- What a command writes in the directory at a place, and the file tree that it leaves. -/
def launchAt (s : Surroundings) (command : String) (args : List String) (place : List FileName) :
    Except FileError (Captured × Node) := do
  let path ← firstProgram { s.files with here := place } .notFound (← paths s command)
  let words := (command :: args).map Text.bytewise
  let process : Step (Except FileError Ended) := Step.startProgram Step.run path words
  let (result, state) := process (startState s command place)
  return (.ofWorld state.world (← endedOf result), state.world.top)

/-- What a command writes in a directory, and the file tree that it leaves. -/
def launch (s : Surroundings) (command : String) (args : List String) (dir : Path) :
    Except FileError (Captured × Node) :=
  if (command :: dir.toString :: args).any (·.contains '\x00') then .error .nulInWord
  else
    match s.files.place dir with
    | .error e => .error e
    | .ok place =>
      match s.files.top.at? place with
      | some (.directory ..) => launchAt s command args place
      | _ => .error .notADirectory

/-- The error of a command that could not be started. -/
def launchError (command : String) : FileError → Error
  | .notFound => .commandNotFound command
  | cause => .launch command cause

/-- What a command writes in a directory, and the file tree that it leaves. -/
def run (s : Surroundings) (command : String) (args : List String) (dir : Path) :
    Except Error (Captured × Node) :=
  (launch s command args dir).mapError (launchError command)

end Capture

end SuiteScope
