import SuiteScope.Shell.Number
import SuiteScope.Shell.World

/-!
# Processes

A `Process` is a shell that runs : its variables, functions and options, the files that its
descriptors stand for, and where it is in its script. A `Step` is a computation of a process, which
may stop : because of an error, because the shell exits, or because a signal ends it.
-/

namespace SuiteScope.Shell

/-- A variable. One without a value has only its attributes. -/
structure Variable where
  value : Option Bytes
  isExported : Bool := false
  isReadOnly : Bool := false
  deriving DecidableEq, Repr

/-- A program that has been found on the search path. It is looked for again if the directory has
changed since. -/
structure Remembered where
  path : Bytes
  isOld : Bool := false
  deriving DecidableEq, Repr

/-- Commands that are passed over. -/
inductive Skip
  | nothing
  /-- The rest of this many loops. -/
  | leaving (loops : Nat)
  /-- The rest of a turn, in a loop this many levels up. -/
  | repeating (loops : Nat)
  /-- The rest of a function or of a script, which has its status. -/
  | returning
  /-- As `returning`, with the status of the command before. -/
  | returningAsIs
  deriving DecidableEq, Repr

/-- How a process has ended. -/
inductive Ended
  | exited (status : Nat)
  | killed (signal : Nat)
  deriving DecidableEq, Repr

/-- The status that a shell sees of a process. -/
def Ended.status : Ended → Nat
  | .exited n => n
  | .killed signal => 128 + signal

/-- Processes that are not waited for at once. -/
structure Job where
  number : Nat
  /-- The process that was started last. -/
  process : Nat
  /-- How that process ended. -/
  ended : Ended
  /-- The time at which the last of its processes ends. -/
  endTime : Nat
  /-- The number of processes. -/
  size : Nat := 1
  /-- Whether it has been waited for since. -/
  isWaited : Bool := false
  deriving Repr

/-- A shell that runs. -/
structure Process where
  /-- What the shell is called in messages. -/
  name : Bytes
  arguments : List Bytes
  number : Nat
  /-- The number of the shell that this one is a part of, which scripts see. -/
  root : Nat
  parent : Nat
  /-- The directory in which the shell is. -/
  here : List FileName
  /-- The name of that directory, by the way it was reached. -/
  directory : Bytes
  bindings : List (Bytes × Variable) := []
  functions : List (Bytes × Command) := []
  aliases : List (Bytes × Bytes) := []
  /-- The options that are set. -/
  options : List String := []
  descriptors : List (Nat × Nat) := []
  status : Nat := 0
  /-- The status that the shell exits with if a trap does not say otherwise. -/
  kept : Option Nat := none
  skip : Skip := .nothing
  /-- The number of loops around the present command. -/
  loops : Nat := 0
  /-- The line of the present command, for messages. -/
  line : Nat := 0
  /-- The line up to which the script has been read. -/
  scriptLine : Nat := 0
  /-- The command of the shell that is carried out. -/
  command : Option Bytes := none
  /-- The number of functions that are being carried out. -/
  calls : Nat := 0
  /-- What is restored at the end of each function, innermost first. -/
  locals : List (List (Bytes × Option Variable)) := []
  /-- The options that are restored at the end of each function. -/
  localOptions : List (Option (List String)) := []
  traps : List (Nat × Bytes) := []
  /-- Signals whose trap has not been carried out yet. -/
  caught : List Nat := []
  /-- Signals that were ignored when the shell was started. -/
  ignored : List Nat := []
  /-- The jobs of the shell, the one started last first. -/
  jobs : List Job := []
  lastAside : Option Nat := none
  /-- The status of the last command whose output was wanted by the present one. -/
  outputStatus : Nat := 0
  /-- Where the reading of options goes on : the argument, and the place in it. -/
  optionPlace : Nat × Option Nat := (1, none)
  /-- Programs that have been found on the search path. -/
  found : List (Bytes × Remembered) := []
  /-- What the present command writes at its end, last part first. -/
  buffer : List Bytes := []
  umask : Nat := 0o022
  deriving Inhabited

/-- Why a process stops. -/
inductive Stop
  /-- An error has been complained about. -/
  | failed
  /-- The process ends with its status. -/
  | ends
  /-- The process has been told to end. -/
  | exits
  | killed (signal : Nat)
  /-- A program has taken the place of the shell, and has ended. -/
  | replaced (how : Ended)
  deriving DecidableEq, Repr

/-- A process and what it acts on. -/
structure State where
  world : World
  process : Process

/-- A computation of a process. -/
abbrev Step := ExceptT Stop (StateM State)

namespace Step

/-- The process. -/
def process : Step Process := do
  return (← get).process

/-- The process is changed. -/
def change (f : Process → Process) : Step Unit :=
  modify fun s => { s with process := f s.process }

/-- What the process acts on is changed. -/
def changeWorld (f : World → World) : Step Unit :=
  modify fun s => { s with world := f s.world }

/-- A step that is taken until it gives a result. It is taken at most `bound` times. -/
@[specialize] def repeated {σ α : Type} (step : σ → Step (σ ⊕ α)) : (bound : Nat) → σ → Step α
  | 0, _ => throw (.killed 9)
  | bound + 1, s => do
    match ← step s with
    | .inl s => repeated step bound s
    | .inr a => return a

/-- More turns than any loop takes. -/
def turnBound : Nat := 1000000000000

/-- A step that is taken until it gives a result. -/
@[inline] def untilDone {σ α : Type} (step : σ → Step (σ ⊕ α)) (s : σ) : Step α :=
  repeated step turnBound s

/-- The status becomes `n`. -/
def setStatus (n : Nat) : Step Unit :=
  change fun p => { p with status := n }

/-- The time at which processes are ended, in millionths of a second. -/
def timeLimit : Nat := 1000000000

/-- The present time is a later one. -/
def goToTime (time : Nat) : Step Unit := do
  changeWorld fun w => { w with now := max time w.now }
  if timeLimit ≤ (← get).world.now then throw (.killed 9)

/-- Whether an option is set. -/
def hasOption (name : String) : Step Bool := do
  return (← process).options.contains name

/-! ## Writing -/

/-- The open file of a descriptor. -/
def openedAt? (descriptor : Nat) : Step (Option (Nat × Opened)) := do
  let s ← get
  return (s.process.descriptors.lookup descriptor).bind fun n =>
    (s.world.opened[n]?).map (n, ·)

/-- Bytes are written to a descriptor. The result tells whether that could be done. -/
def write (descriptor : Nat) (bytes : Bytes) : Step Bool := do
  if bytes.isEmpty then return true
  match ← openedAt? descriptor with
  | some (n, o) =>
    if o.isWritable then
      let writer := (← process).number
      changeWorld (·.write writer n bytes)
    return o.isWritable
  | none => return false

/-- Bytes are written by the present command, when it ends. -/
def say (bytes : Bytes) : Step Unit :=
  change fun p => { p with buffer := bytes :: p.buffer }

/-- What the present command has to write is written. -/
def flush : Step Bool := do
  let bytes := (← process).buffer.reverse.flatten
  change fun p => { p with buffer := [] }
  write 1 bytes

/-- A complaint with the name of the shell, the line and the present command. -/
def warn (message : Bytes) : Step Unit := do
  let p ← process
  let command := match p.command with
    | some c => c ++ [':', ' ']
    | none => []
  let _ ← write 2 (p.name ++ [':', ' '] ++ decimal p.line ++ [':', ' '] ++ command ++ message
    ++ ['\n'])

/-- A complaint that stops the process, or the command that it is carrying out. -/
def fail {α : Type} (message : Bytes) : Step α := do
  warn message
  let _ ← flush
  setStatus 2
  throw .failed

/-- A complaint about how a script is written, which has the line up to which it has been read. -/
def failSyntax {α : Type} (message : Bytes) : Step α := do
  change fun p => { p with line := p.scriptLine }
  fail ("Syntax error: ".toList ++ message)

/-- The complaint about a text that is no number. -/
def failNumber {α : Type} (text : Bytes) : Step α :=
  fail ("Illegal number: ".toList ++ text)

/-- The count that a text is. -/
def countOf (text : Bytes) : Step Nat :=
  match count? text with
  | some n => return n
  | none => failNumber text

/-! ## Variables -/

/-- The value of a variable. -/
def value? (name : Bytes) : Step (Option Bytes) := do
  return ((← process).bindings.lookup name).bind (·.value)

/-- A list with the value of a key replaced, or added at the end. -/
def put {α : Type} (key : Bytes) (v : α) : List (Bytes × α) → List (Bytes × α)
  | [] => [(key, v)]
  | (k, old) :: rest => if k == key then (k, v) :: rest else (k, old) :: put key v rest

/-- What else happens when a variable gets a value. -/
def noticeValue (name : Bytes) (value : Option Bytes) : Step Unit := do
  if name == "PATH".toList then change fun p => { p with found := [] }
  if name == "OPTIND".toList then
    let n ← countOf (value.getD [])
    change fun p => { p with optionPlace := (max n 1, none) }

/-- A variable gets a value, or loses it, and may become exported or read-only. -/
def setVariable (name : Bytes) (value : Option Bytes) (exports : Bool := false)
    (locks : Bool := false) : Step Unit := do
  if !isName name then fail (name ++ ": bad variable name".toList)
  let p ← process
  let old := p.bindings.lookup name
  if old.any (·.isReadOnly) then fail (name ++ ": is read only".toList)
  noticeValue name value
  let exports := exports || (value.isSome && p.options.contains "allexport")
  if value.isNone && !exports && !locks then
    change fun p => { p with bindings := p.bindings.filter (·.1 != name) }
  else
    let v : Variable :=
      { value
        isExported := exports || old.any (·.isExported)
        isReadOnly := locks }
    change fun p => { p with bindings := put name v p.bindings }

/-- A variable gets a value. -/
def assign (name value : Bytes) : Step Unit :=
  setVariable name (some value)

/-- A variable gets attributes and keeps its value. -/
def mark (name : Bytes) (exports locks : Bool) : Step Unit := do
  if !isName name then fail (name ++ ": bad variable name".toList)
  let old := (← process).bindings.lookup name
  let v : Variable :=
    { value := old.bind (·.value)
      isExported := exports || old.any (·.isExported)
      isReadOnly := locks || old.any (·.isReadOnly) }
  change fun p => { p with bindings := put name v p.bindings }

/-- The name and the value in the text of an assignment. -/
def splitAssignment (text : Bytes) : Bytes × Option Bytes :=
  let name := text.takeWhile (· != '=')
  match text.drop name.length with
  | [] => (name, none)
  | _ :: value => (name, some value)

/-- A variable belongs to the present function from now on, with a value if one is given. -/
def makeLocal (text : Bytes) (exports : Bool) : Step Unit := do
  if text == ['-'] then
    change fun p =>
      { p with
        localOptions := match p.localOptions with
          | none :: rest => some p.options :: rest
          | all => all }
  else
    let (name, value) := splitAssignment text
    if !isName name then fail (name ++ ": bad variable name".toList)
    let old := (← process).bindings.lookup name
    let remember : Process → Process := fun p =>
      match p.locals with
      | top :: rest => { p with locals := ((name, old) :: top) :: rest }
      | [] => p
    if value.isSome then setVariable name value exports
    else if old.isNone then
      let v : Variable := { value := none, isExported := exports }
      change fun p => { p with bindings := put name v p.bindings }
    change remember

/-- From now on variables may be local. -/
def enterScope : Step Unit :=
  change fun p => { p with locals := [] :: p.locals, localOptions := none :: p.localOptions }

/-- A variable becomes what it was. -/
def restoreVariable (name : Bytes) (old : Option Variable) (p : Process) : Process :=
  match old with
  | some v => { p with bindings := put name v p.bindings }
  | none => { p with bindings := p.bindings.filter (·.1 != name) }

/-- Local variables become what they were. -/
def leaveScope : Step Unit := do
  change fun p =>
    let restored := (p.locals.headD []).foldl (fun p (name, old) => restoreVariable name old p) p
    { restored with
      options := (p.localOptions.headD none).getD p.options
      locals := p.locals.drop 1
      localOptions := p.localOptions.drop 1
      found := if (p.locals.headD []).any (·.1 == "PATH".toList) then [] else p.found }

/-- The scopes opened since there were `depth` of them are left. -/
def leaveScopes (depth : Nat) : Step Unit := do
  let n := (← process).locals.length
  for _ in List.range (n - depth) do leaveScope

end Step

end SuiteScope.Shell
