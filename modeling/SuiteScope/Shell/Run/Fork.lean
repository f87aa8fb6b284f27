import SuiteScope.Shell.Redirect
import SuiteScope.Shell.Run.Script

/-!
# Processes to their end

`toEnd` runs a process to its end, where the action for the end of a shell is carried out. `fork`
runs a copy of the present process, which shares its world, and `output` does so for the output of a
command.
-/

namespace SuiteScope.Shell

/-- The process after what it was doing has been broken off. -/
def Process.brokenOff (isExit : Bool) (p : Process) : Process :=
  let status :=
    match p.kept with
    | some n => if isExit || p.skip == .returningAsIs then n else p.status
    | none => p.status
  { p with status, kept := none, skip := .nothing, loops := 0 }

/-- The copy of a process that has a number of its own. It has no traps, apart from signals that are
ignored, and no jobs. -/
def Process.copy (p : Process) (number : Nat) : Process :=
  { p with
    number
    parent := p.number
    traps := p.traps.filter (·.2.isEmpty)
    caught := []
    jobs := []
    buffer := [] }

/-- A shell ends : the action for this is carried out first. -/
def atExit (r : Runner) : StateM State Ended := do
  modify fun s => { s with process := { s.process with kept := some s.process.status } }
  let p := (← get).process
  let stop ←
    match p.traps.lookup 0 with
    | none => pure none
    | some action => do
      let traps := p.traps.filter (·.1 != 0)
      modify fun s => { s with process := { s.process with traps, skip := .nothing } }
      match ← (Step.runText r false {} action).run with
      | .ok _ =>
        modify fun s => { s with process := { s.process with skip := .returningAsIs } }
        pure none
      | .error stop => pure (some stop)
  match stop with
  | some (.killed n) => return .killed n
  | some (.replaced how) => return how
  | stop =>
    modify fun s => { s with process := s.process.brokenOff (stop == some .exits) }
    return .exited ((← get).process.status % 256)

/-- A process is run to its end. -/
def toEnd (r : Runner) (body : Step Unit) : StateM State Ended := do
  match ← body.run with
  | .error (.killed n) => return .killed n
  | .error (.replaced how) => return how
  | .error stop =>
    modify fun s => { s with process := s.process.brokenOff (stop == .exits) }
    atExit r
  | .ok () => atExit r

namespace Step

/-- A process that has been run to its end. -/
structure Child where
  number : Nat
  ended : Ended
  /-- The time at which it ended. -/
  time : Nat

/-- A copy of the process is run to its end, while no time passes for the process itself. -/
def fork (r : Runner) (body : Step Unit) : Step Child := do
  let s ← get
  let number := s.world.lastProcess + 1
  let living := number :: s.world.living
  let start : State := ⟨{ s.world with lastProcess := number, living }, s.process.copy number⟩
  let (ended, after) := (toEnd r body).run start
  let living := after.world.living.filter (· != number)
  set { s with world := { after.world with living, now := s.world.now } }
  return ⟨number, ended, after.world.now⟩

/-- A copy of the process is run to its end and waited for. -/
def forkAndWait (r : Runner) (body : Step Unit) : Step Ended := do
  let _ ← claimJob
  let child ← fork r body
  passTime child.time
  tellEnd child.ended
  return child.ended

/-- The ends of one more pipe, that for reading and that for writing. -/
def openPipe : Step (Nat × Nat) := do
  let s ← get
  let (ends, world) := s.world.openPipe
  set { s with world }
  return ends

/-- A text without line ends at its end. -/
def withoutLineEnds (s : Bytes) : Bytes :=
  (s.reverse.dropWhile (· == '\n')).reverse

/-- The output of a command, without zero bytes and without line ends at its end. -/
def output (r : Runner) : Option Command → Step Bytes
  | none => return []
  | some c => do
    let (source, sink) ← openPipe
    let ended ← forkAndWait r do
      setDescriptor 1 (some sink)
      let _ ← r { isLast := true } c
    change fun p => { p with outputStatus := ended.status }
    let world := (← get).world
    let written := ((world.opened[source]?).map world.ahead).getD []
    changeWorld (·.advance source written.length [])
    return withoutLineEnds (written.filter (· != '\x00'))

end Step

end SuiteScope.Shell
