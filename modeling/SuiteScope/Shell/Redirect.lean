import SuiteScope.Shell.Expand
import SuiteScope.Shell.Grammar

/-!
# Redirections

A redirection opens a file or copies a descriptor. First the words of all redirections of a command
are replaced, which gives a list of `Planned` ones, and then these are carried out in order.
`restore` gives descriptors back what they stood for before.
-/

namespace SuiteScope.Shell

/-- A redirection whose word has been replaced. -/
inductive Planned
  | file (descriptor : Nat) (opening : Opening) (name : Bytes)
  /-- The descriptor is closed if there is no source. -/
  | copy (descriptor : Nat) (source : Option Nat)
  | text (descriptor : Nat) (live : Bool) (number : Nat)

/-- The descriptor that a redirection changes. -/
def Planned.descriptor : Planned → Nat
  | .file d .. | .copy d _ | .text d .. => d

/-- What some descriptors stood for. -/
abbrev Saved := List (Nat × Option Nat)

/-- Whether a file is made if there is none. -/
def Opening.creates (o : Opening) : Bool :=
  o != .read

/-- Whether the content of a file is thrown away. -/
def Opening.empties (o : Opening) : Bool :=
  o == .write || o == .force

/-- An open file that has just been opened. -/
def Opening.opened (o : Opening) (target : Target) : Opened :=
  { target
    isReadable := o == .read || o == .both
    isWritable := o.creates
    appends := o == .append }

/-- The descriptor that a file name stands for. -/
def descriptorNamed? (name : Bytes) : Option Nat :=
  match String.ofList name with
  | "/dev/stdin" => some 0
  | "/dev/stdout" => some 1
  | "/dev/stderr" => some 2
  | _ =>
    match "/dev/fd/".toList.isPrefixOf? name with
    | some [c] => digitValue? 10 c
    | _ => none

namespace Step

/-- One more open file. -/
def addOpened (o : Opened) : Step Nat := do
  let s ← get
  let (n, world) := s.world.add o
  set { s with world }
  return n

/-- A descriptor stands for an open file, or for nothing. -/
def setDescriptor (descriptor : Nat) (opened : Option Nat) : Step Unit :=
  change fun p =>
    { p with
      descriptors := (opened.map (descriptor, ·)).toList
        ++ p.descriptors.filter (·.1 != descriptor) }

/-! ## Files -/

/-- The complaint about a file that cannot be opened. -/
def failOpening {α : Type} (opening : Opening) (name wording : Bytes) : Step α :=
  let action := if opening.creates then "cannot create " else "cannot open "
  fail (action.toList ++ name ++ [':', ' '] ++ wording)

/-- How it is said that a file cannot be opened. -/
def openingError (opening : Opening) (e : FileError) : Bytes :=
  let wording :=
    match e with
    | .notFound | .notADirectory =>
      if opening.creates then "Directory nonexistent" else "No such file"
    | e => e.wording
  wording.toList

/-- The file at a place is opened. -/
def openPlace (opening : Opening) (name : Bytes) (place : List FileName) : Step Nat := do
  match (← get).world.top.at? place with
  | some (.device _) => addOpened (opening.opened .nothing)
  | found =>
    let isFile := found.any (·.isFile)
    if isFile && opening = .write && (← hasOption "noclobber") then
      failOpening opening name "File exists".toList
    if found.isNone || (isFile && opening.empties) then changeWorld (·.putContent place [])
    addOpened (opening.opened (.file place))

/-- The file of a name is opened. -/
def openFile (opening : Opening) (name : Bytes) : Step Nat := do
  match descriptorNamed? name with
  | some d =>
    match ← openedAt? d with
    | some (_, ⟨.file place, _, _, _, _⟩) => openPlace opening name place
    | some (_, o) => addOpened (opening.opened o.target)
    | none => failOpening opening name (openingError opening .notFound)
  | none =>
    let fs ← files
    let path := pathOf name
    match if opening.creates then fs.placeToWrite path else fs.place path with
    | .ok place => openPlace opening name place
    | .error e =>
      let isKept := e = .isADirectory && opening = .write && (← hasOption "noclobber")
      let opening := if isKept then .read else opening
      failOpening opening name (openingError opening e)

/-- The reading end of a pipe that holds a text. -/
def openText (text : Bytes) : Step Nat := do
  let s ← get
  let ((source, sink), world) := s.world.openPipe
  set { s with world := world.write s.process.number sink text }
  return source

/-! ## Lists of redirections -/

/-- A redirection with its word replaced. -/
def plan (output : Option Command → Step Bytes) : Redirection → Step Planned
  | .file d opening name => return .file d opening (← textOfWord output .whole name)
  | .copy d _ source => do
    match ← textOfWord output .whole source with
    | [c] =>
      match digitValue? 10 c with
      | some n => return .copy d (some n)
      | none => if c = '-' then return .copy d none else failSyntax "Bad fd number".toList
    | _ => failSyntax "Bad fd number".toList
  | .text d live number => return .text d live number

/-- What the descriptors of redirections stand for. -/
def saved (planned : List Planned) : Step Saved := do
  let now := (← process).descriptors
  return planned.map fun r => (r.descriptor, now.lookup r.descriptor)

/-- Descriptors stand for what they stood for before. -/
def restore (s : Saved) : Step Unit :=
  s.forM fun (descriptor, opened) => setDescriptor descriptor opened

/-- A redirection is carried out. If descriptors are restored later, they are closed before they
become a copy, so a complaint about the copy is not seen if it should go there. -/
def redirect (output : Option Command → Step Bytes) (isRestored : Bool) : Planned → Step Unit
  | .file d opening name => do
    setDescriptor d (some (← openFile opening name))
  | .copy d none => setDescriptor d none
  | .copy d (some source) => do
    if d ≠ source then
      match ← openedAt? source with
      | some (n, _) => setDescriptor d (some n)
      | none =>
        if isRestored && d = 2 then setDescriptor 2 none
        fail (decimal source ++ ": Bad file descriptor".toList)
  | .text d live number => do
    let word := (← get).world.texts.getD number []
    let text ← if live then textOfWord output { isQuoted := true } word else pure (unquoted word)
    setDescriptor d (some (← openText text))

/-- Redirections are carried out in order. -/
def redirectAll (output : Option Command → Step Bytes) (isRestored : Bool)
    (planned : List Planned) : Step Unit :=
  planned.forM (redirect output isRestored)

/-- Redirections are carried out that are restored later. The result tells whether none of them has
failed. -/
def tryRedirect (output : Option Command → Step Bytes) (planned : List Planned) : Step Bool :=
  tryCatch (do redirectAll output true planned; return true) fun
    | .failed => return false
    | stop => throw stop

end Step

end SuiteScope.Shell
