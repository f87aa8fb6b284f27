import SuiteScope.Shell.Lookup
import SuiteScope.Shell.Signal

/-!
# Commands about signals and jobs

`bg`, `fg`, `jobs`, `kill`, `times`, `trap` and `wait`. A process runs to its end before the one
that started it goes on, so it is known of every job when and how it ends, unless a signal ends it
before that time. A signal to another process waits until that one goes on.
-/

namespace SuiteScope.Shell

namespace Step

/-! ## Signals -/

/-- Whether the process ignores a signal. -/
def ignores (p : Process) (signal : Nat) : Bool :=
  !Signal.isFinal signal && (p.ignored.contains signal || p.traps.lookup signal == some [])

/-- The process gets a signal : it ignores it, remembers it for its trap, or ends. -/
def receive (signal : Nat) : Step Unit := do
  let p ← process
  if ignores p signal then return
  if !Signal.isFinal signal && (p.traps.lookup signal).isSome then
    change fun p => { p with caught := signal :: p.caught.filter (· != signal) }
  else if !Signal.isHarmless signal then throw (.killed signal)

/-- A signal ends the last process of a job. -/
def endJob (job : Job) (signal : Nat) : Step Unit := do
  changeWorld (·.forget job.process)
  let now := (← get).world.now
  change fun p =>
    { p with
      jobs := p.jobs.map fun j =>
        if j.number = job.number then { j with ended := .killed signal, endTime := now } else j }

/-- A signal is sent to a process. The result tells whether there is such a process. -/
def signal (target n : Nat) : Step Bool := do
  let s ← get
  if target = s.process.number then
    receive n
    return true
  else if s.world.living.contains target then
    let sent : Sent := ⟨target, n, s.world.now⟩
    changeWorld fun w => { w with signals := w.signals ++ [sent] }
    return true
  else
    match s.process.jobs.find? fun job => job.process == target && !job.isWaited with
    | none => return false
    | some job =>
      if s.world.now < job.endTime && !Signal.isHarmless n then endJob job n
      return true

/-- The process gets the signals that are on their way to it. -/
def receiveAll : Step Unit := do
  let s ← get
  let (own, others) := s.world.signals.partition fun sent =>
    sent.target == s.process.number && sent.time ≤ s.world.now
  changeWorld fun w => { w with signals := others }
  for sent in own do receive sent.signal

/-- The present time is a later one, and signals come in that have been sent. -/
def passTime (time : Nat) : Step Unit := do
  goToTime time
  receiveAll

/-- Time passes up to a later time, or until a signal comes in. The result is the signal. -/
def waitUntil (time : Nat) : Step (Option Nat) := do
  let s ← get
  let earlier := s.world.signals.filter fun sent =>
    sent.target == s.process.number && sent.time < time && !ignores s.process sent.signal
  match (earlier.mergeSort fun a b => a.time ≤ b.time).head? with
  | none =>
    passTime time
    return none
  | some sent =>
    passTime sent.time
    return some sent.signal

/-- What is said about a process that a signal has ended. -/
def tellEnd (ended : Ended) : Step Unit := do
  match ended with
  | .killed signal =>
    if !Signal.isSilent signal then
      let _ ← write 2 ((Signal.wording signal).toList ++ ['\n'])
  | .exited _ => return

/-! ## Jobs -/

/-- The number of the next job. A job that has been waited for gives its number away. -/
def claimJob : Step Nat := do
  let p ← process
  let isTaken := fun n => p.jobs.any fun job => job.number == n && !job.isWaited
  let n := ((List.range (p.jobs.length + 1)).map (· + 1)).find? fun n => !isTaken n
  let n := n.getD 1
  change fun p => { p with jobs := p.jobs.filter (·.number != n) }
  return n

/-- The job that a text such as `%1` names. -/
def jobNamed (text : Bytes) : Step Job := do
  let jobs := (← process).jobs
  let found := fun (job : Option Job) (message : Bytes) =>
    match job with
    | some job => pure job
    | none => fail message
  let unknown := "No such job: ".toList ++ text
  match text with
  | '%' :: [] | '%' :: '%' :: [] | '%' :: '+' :: [] => found jobs.head? "No current job".toList
  | '%' :: '-' :: [] => found jobs[1]? "No previous job".toList
  | '%' :: digits => found (jobs.find? fun job => decimal job.number == digits) unknown
  | _ => fail unknown

end Step

namespace Builtin

open Step

/-- What a job is said to be. -/
def jobState (isRunning : Bool) : Ended → String
  | .exited n => if isRunning then "Running" else if n = 0 then "Done" else s!"Done({n})"
  | .killed signal => if isRunning then "Running" else Signal.wording signal

/-- The command `jobs`. A job that has ended is listed once. -/
def jobs (arguments : List Bytes) : Step Nat := do
  let (options, operands) ← takeOptions "lp" arguments
  let all := (← process).jobs
  let chosen ← if operands.isEmpty then pure all else operands.mapM jobNamed
  let mode := (options.getLast?).map (·.1)
  for job in chosen do
    if mode = some 'p' then say (decimal job.process ++ ['\n'])
    else
      let place := (← process).jobs.findIdx (·.number == job.number)
      let sign := if place = 0 then '+' else if place = 1 then '-' else ' '
      let number := '[' :: decimal job.number ++ [']', ' ', sign, ' ']
      let shown := number ++ if mode = some 'l' then decimal job.process ++ [' '] else []
      let isRunning := (← get).world.now < job.endTime
      let text := shown ++ (jobState isRunning job.ended).toList
      let blanks := List.replicate (max 1 (33 - text.length)) ' '
      let others := if mode = some 'l' then [] else List.replicate (job.size - 1) " | ".toList
      say (text ++ blanks ++ others.flatten ++ ['\n'])
      if !isRunning then
        change fun p => { p with jobs := p.jobs.filter (·.number != job.number) }
  return 0

/-- The commands `bg` and `fg`, which need jobs of their own process groups. -/
def moveJob (arguments : List Bytes) : Step Nat := do
  let (_, operands) ← takeOptions "" arguments
  let name := operands.headD ['%']
  let _ ← jobNamed name
  fail ("job ".toList ++ name ++ " not created under job control".toList)

/-- The status of a job that is waited for, or of the signal that comes in. -/
def waitFor (job : Job) : Step Nat := do
  match ← waitUntil job.endTime with
  | some signal => return 128 + signal
  | none =>
    if !job.isWaited then tellEnd job.ended
    change fun p =>
      { p with
        jobs := p.jobs.map fun j =>
          if j.number = job.number then { j with isWaited := true } else j }
    return job.ended.status

/-- The command `wait` without arguments. -/
def waitForAll : Step Nat := do
  let time := (← process).jobs.foldl (fun time job => max time job.endTime) 0
  match ← waitUntil time with
  | some signal => return 128 + signal
  | none =>
    change fun p => { p with jobs := p.jobs.map fun job => { job with isWaited := true } }
    return 0

/-- The command `wait`. -/
def wait (arguments : List Bytes) : Step Nat := do
  let (_, operands) ← takeOptions "" arguments
  if operands.isEmpty then return ← waitForAll
  let mut status := 127
  for operand in operands do
    let job ←
      if operand.head? == some '%' then some <$> jobNamed operand
      else do
        let n ← countOf operand
        pure ((← process).jobs.find? (·.process == n))
    match job with
    | some job => status ← waitFor job
    | none => pure ()
  return status

/-- How `kill` is used. -/
def killUsage : Bytes :=
  ("Usage: kill [-s sigspec | -signum | -sigspec] [pid | job]... or\n"
    ++ "kill -l [exitstatus]").toList

/-- What `kill` is asked to do. -/
inductive KillRequest
  | list (operands : List Bytes)
  | send (signal : Nat) (operands : List Bytes)

/-- What the arguments of `kill` ask for. -/
def killRequest (arguments : List Bytes) : Step KillRequest := do
  let plain : KillRequest := .send 15 arguments
  match arguments with
  | ('-' :: name) :: rest =>
    match Signal.number? 1 name with
    | some signal => return .send signal rest
    | none =>
      let (options, operands) ← takeOptions "ls:" arguments
      let signal ← options.foldlM (fun signal (letter, name) => do
        if letter = 's' then
          match Signal.number? 1 name with
          | some n => return some n
          | none => fail ("invalid signal number or name: ".toList ++ name)
        else return signal) none
      if options.any (·.1 == 'l') then return .list operands
      else return .send (signal.getD 15) operands
  | _ => return plain

/-- A signal is sent to what an operand of `kill` names. -/
def killOne (n : Nat) (operand : Bytes) : Step Bool := do
  match operand with
  | '%' :: _ =>
    let _ ← jobNamed operand
    return false
  | '-' :: group =>
    let _ ← countOf group
    return false
  | target => signal (← countOf target) n

/-- The command `kill`. -/
def kill (arguments : List Bytes) : Step Nat := do
  if arguments.isEmpty then fail killUsage
  match ← killRequest arguments with
  | .list [] =>
    say ['0', '\n']
    for name in Signal.names.drop 1 do say (name.toList ++ ['\n'])
    return 0
  | .list (operand :: _) =>
    let n ← countOf operand
    let n := if 128 < n then n - 128 else n
    if 0 < n && n < Signal.count then say ((Signal.name n).toList ++ ['\n'])
    else fail ("invalid signal number or exit status: ".toList ++ operand)
    return 0
  | .send n operands =>
    if operands.isEmpty then fail killUsage
    let mut status := 0
    for operand in operands do
      if !(← killOne n operand) then
        warn "No such process\n".toList
        status := 1
    return status

/-- The command `trap`. -/
def trap (arguments : List Bytes) : Step Nat := do
  let (_, operands) ← takeOptions "" arguments
  match operands with
  | [] =>
    let traps := (← process).traps
    for (n, action) in traps.mergeSort fun a b => a.1 ≤ b.1 do
      say ("trap -- ".toList ++ singleQuoted action ++ ' ' :: (Signal.name n).toList ++ ['\n'])
    return 0
  | first :: rest =>
    let isReset := rest.isEmpty || (Signal.ofDigits? first).isSome
    let names := if isReset then operands else rest
    let action := if isReset || first == ['-'] then none else some first
    for name in names do
      match Signal.number? 0 name with
      | none =>
        let _ ← write 2 ("trap: ".toList ++ name ++ ": bad trap\n".toList)
        return 1
      | some n =>
        change fun p =>
          { p with
            traps := (action.map (n, ·)).toList ++ p.traps.filter (·.1 != n) }
    return 0

/-- The command `times`, for processes that take no time. -/
def times : Step Nat := do
  let line := "0m0.000000s 0m0.000000s\n".toList
  say (line ++ line)
  return 0

end Builtin

end SuiteScope.Shell
