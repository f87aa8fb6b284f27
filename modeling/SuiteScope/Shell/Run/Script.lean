import SuiteScope.Shell.Builtin.Jobs
import SuiteScope.Shell.Grammar

/-!
# Scripts

A script is carried out line by line : the commands of a line are read, and then they are run, so
that what they change counts for the reading of the next line. `runText` does this for any text, and
`runTraps` for the actions of the signals that have come in. The way in which a command is run is
given to both as a `Runner`.
-/

namespace SuiteScope.Shell

/-- How a command is run. -/
structure Manner where
  /-- Its failure does not end a shell that stops on errors. -/
  isTested : Bool := false
  /-- It is the last thing that its process does. -/
  isLast : Bool := false

/-- A way to run commands. The result is the status. -/
abbrev Runner := Manner → Command → Step Nat

/-- The part of the text of a reader that has been read since an earlier state, up to the end of its
last line. -/
def linesRead (before after : Reader) : Bytes :=
  let ahead := fun (r : Reader) => (r.frames.getLast?.map (·.text)).getD []
  let old := ahead before
  let new := ahead after
  let taken := old.take (old.length - new.length)
  if taken.isEmpty || taken.getLast? == some '\n' then taken
  else taken ++ new.takeWhile (· != '\n') ++ (new.dropWhile (· != '\n')).take 1

namespace Step

/-- The commands of the next line of a script. -/
def nextLine (isFile : Bool) (reader : Reader) : Step (Line × Reader) := do
  let s ← get
  let reader := { reader with aliases := s.process.aliases, texts := s.world.texts }
  let tell := fun (after : Reader) => do
    if isFile && s.process.options.contains "verbose" then
      let _ ← write 2 (linesRead reader after)
  match readLine reader with
  | .ok (line, after) =>
    tell after
    changeWorld fun w => { w with texts := after.texts }
    change fun p => { p with scriptLine := after.line }
    return (line, after)
  | .error (complaint, after) =>
    tell after
    change fun p => { p with scriptLine := complaint.line }
    failSyntax complaint.message.toList

/-- Whether commands are being passed over. -/
def isSkipping : Step Bool := do
  return (← process).skip != .nothing

/-- A text is carried out as a script. In a file, the end of a function ends the script. -/
def runText (r : Runner) (isFile : Bool) (m : Manner) (text : Bytes) : Step Nat := do
  let outer := (← process).scriptLine
  let status ← untilDone (fun (status, reader) => do
    let (line, reader) ← nextLine isFile reader
    match line with
    | .endOfScript => return .inr status
    | .commands found =>
      let isLast := m.isLast && reader.isBack && reader.token == .endOfFile
      let status ← match found with
        | some c => r { m with isLast } c
        | none => pure status
      let p ← process
      if p.skip = .nothing then return .inl (status, reader)
      if isFile && (p.skip = .returning || p.skip = .returningAsIs) then
        change fun p => { p with skip := .nothing }
      return .inr status) (0, ({ frames := [⟨text, none, false⟩] } : Reader))
  change fun p => { p with scriptLine := outer }
  return status

/-- The first signal after `n` that has come in. -/
def nextCaught? (caught : List Nat) (n : Option Nat) : Option Nat :=
  (caught.filter fun signal => n.all (· < signal)).min?

/-- The actions of the signals that have come in are carried out. They leave the status as it was,
unless one of them returns with a status. -/
def runTraps (r : Runner) : Step Unit := do
  let start ← process
  if start.caught.isEmpty then return
  let status := start.kept.getD start.status
  change fun p => { p with kept := some status }
  untilDone (fun last => do
    let p ← process
    match (nextCaught? p.caught last).filter fun _ => p.skip == .nothing with
    | none => return .inr ()
    | some signal =>
      change fun p => { p with caught := p.caught.filter (· != signal) }
      match p.traps.lookup signal with
      | none => return .inl (some signal)
      | some action =>
        let _ ← runText r false {} action
        if (← process).skip != .returning then setStatus status
        return .inl (some signal)) none
  change fun p => { p with kept := start.kept }

end Step

end SuiteScope.Shell
