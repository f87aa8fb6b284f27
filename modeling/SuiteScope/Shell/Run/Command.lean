import SuiteScope.Shell.Run.Simple

/-!
# Commands

`evaluate` carries out a command, where the commands that it is made of are carried out by a
`Runner`. `runTo` ties the knot : it is the runner for commands that nest less than a number of
levels deep. A process whose commands nest deeper runs out of memory.
-/

namespace SuiteScope.Shell

/-- The commands of a sequence. -/
def Command.parts : Command → List Command
  | .sequence first second => first.parts ++ [second]
  | c => [c]

namespace Step

/-! ## Loops -/

/-- How a loop goes on after one of its parts. -/
inductive Turn
  | next
  /-- The next turn starts at once. -/
  | again
  | over
  /-- The function around the loop has been left with a status. -/
  | overWithStatus
  deriving DecidableEq, Repr

/-- How a loop goes on after one of its parts. A level of loops that are left is counted off. -/
def endTurn : Step Turn := do
  let skip := fun (skip : Skip) => change fun p => { p with skip }
  match (← process).skip with
  | .nothing => return .next
  | .leaving n =>
    skip (if n ≤ 1 then .nothing else .leaving (n - 1))
    return .over
  | .repeating n =>
    skip (if n ≤ 1 then .nothing else .repeating (n - 1))
    return if n ≤ 1 then .again else .over
  | .returning => return .overWithStatus
  | .returningAsIs => return .over

/-- The number of loops around the present command changes. -/
def changeLoops (f : Nat → Nat) : Step Unit :=
  change fun p => { p with loops := f p.loops }

/-- A loop with a test. -/
def runLoop (r : Runner) (m : Manner) (untilTrue : Bool) (test body : Command) : Step Nat := do
  changeLoops (· + 1)
  let status ← untilDone (fun status => do
    let tested ← r { isTested := true } test
    match ← endTurn with
    | .overWithStatus => return .inr tested
    | .over => return .inr status
    | .again => return .inl status
    | .next =>
      if (tested == 0) == untilTrue then return .inr status
      let status ← r { isTested := m.isTested } body
      match ← endTurn with
      | .next | .again => return .inl status
      | .over | .overWithStatus => return .inr status) 0
  changeLoops (· - 1)
  return status

/-- A loop over texts. -/
def runEach (r : Runner) (m : Manner) (name : Bytes) (body : Command) (texts : List Bytes) :
    Step Nat := do
  changeLoops (· + 1)
  let status ← untilDone (fun (status, texts) => do
    match texts with
    | [] => return .inr status
    | text :: texts =>
      assign name text
      let status ← r { isTested := m.isTested } body
      match ← endTurn with
      | .next | .again => return .inl (status, texts)
      | .over | .overWithStatus => return .inr status) (0, texts)
  changeLoops (· - 1)
  return status

/-! ## Choices -/

/-- Whether a text matches one of some patterns. -/
def matchesOne (out : Option Command → Step Bytes) (text : Bytes) : List Word → Step Bool
  | [] => return false
  | pattern :: patterns => do
    if Pattern.isMatch (← patternOfWord out pattern) text then return true
    matchesOne out text patterns

/-- The first case with a pattern that a text matches is carried out. -/
def runCases (r : Runner) (m : Manner) (text : Bytes) :
    List (List Word × Option Command) → Step Nat
  | [] => return 0
  | (patterns, body) :: cases => do
    if ← matchesOne (output r) text patterns then
      match body with
      | some c => if ← isSkipping then return 0 else r m c
      | none => return 0
    else if ← isSkipping then return 0
    else runCases r m text cases

/-! ## Processes -/

/-- A command in a process of its own, with its redirections. -/
def runSubshell (r : Runner) (m : Manner) (body : Command) (redirections : List Redirection) :
    Step Nat := do
  let planned ← redirections.mapM (plan (output r))
  let inner : Step Unit := do
    redirectAll (output r) false planned
    let _ ← r { m with isLast := true } body
  if m.isLast && !(← hasTraps) then
    change fun p => { p.copy p.number with parent := p.parent }
    inner
    return 0
  else return (← forkAndWait r inner).status

/-- A process that is not waited for ignores two signals. -/
def detach : Step Unit :=
  change fun p => { p with ignored := 2 :: 3 :: p.ignored }

/-- A process that is not waited for reads nothing. -/
def closeInput : Step Unit := do
  let nothing ← addOpened (Opening.read.opened .nothing)
  setDescriptor 0 (some nothing)

/-- Processes that are not waited for become a job, of which `last` is the process started last. -/
def addJob (number : Nat) (last : Child) (others : List Child) : Step Unit := do
  let endTime := others.foldl (fun time child => max time child.time) last.time
  change fun p =>
    { p with
      jobs := ⟨number, last.number, last.ended, endTime, others.length + 1, false⟩ :: p.jobs
      lastAside := some last.number }
  receiveAll

/-- A command that is not waited for. -/
def runAside (r : Runner) (body : Command) (redirections : List Redirection) : Step Nat := do
  let planned ← redirections.mapM (plan (output r))
  let number ← claimJob
  let child ← fork r do
    detach
    closeInput
    redirectAll (output r) false planned
    let _ ← r { isLast := true } body
  addJob number child []
  return 0

/-- The shell looks for the program of a command before it starts a process for it. -/
def lookAhead : Command → Step Unit
  | .simple _ _ (word :: _) _ => do
    let name := plainStart word
    if name.length = word.length && isName name then
      let _ ← lookupName {} name
  | _ => return

/-- The processes of a pipeline, of which each reads what the one before it has written. The last
process comes first. -/
def runParts (r : Runner) (m : Manner) (isAside : Bool) : (source : Option Nat) →
    (done : List Child) → List Command → Step (List Child)
  | _, done, [] => return done
  | source, done, c :: rest => do
    lookAhead c
    let ends ← if rest.isEmpty then pure none else some <$> openPipe
    let child ← fork r do
      if isAside then detach
      if isAside && done.isEmpty then closeInput
      if source.isSome then setDescriptor 0 source
      match ends with
      | some (_, sink) => setDescriptor 1 (some sink)
      | none => pure ()
      let _ ← r { m with isLast := true } c
    runParts r m isAside (ends.map (·.1)) (child :: done) rest

/-- A pipeline. -/
def runPipeline (r : Runner) (m : Manner) (parts : List Command) (isAside : Bool) : Step Nat := do
  let number ← claimJob
  let children ← runParts r m isAside none [] parts
  match children with
  | [] => return 0
  | last :: others =>
    if isAside then
      addJob number last others
      return 0
    else
      passTime (others.foldl (fun time child => max time child.time) last.time)
      for child in children.reverse do tellEnd child.ended
      return last.ended.status

/-- A command with redirections. -/
def runRedirected (r : Runner) (m : Manner) (body : Command) (redirections : List Redirection) :
    Step Nat := do
  let planned ← redirections.mapM (plan (output r))
  let before ← saved planned
  let inner : Step Nat := do
    if ← tryRedirect (output r) planned then r { isTested := m.isTested } body
    else return 2
  let status ← tryCatch inner fun stop => do
    restore before
    throw stop
  restore before
  return status

/-! ## All commands -/

/-- The commands of a sequence are carried out, until one of them is skipped. -/
def runSequence (r : Runner) (m : Manner) : List Command → Step Unit
  | [] => return
  | [c] => do setStatus (← r m c)
  | c :: rest => do
    let _ ← r { isTested := m.isTested } c
    if !(← isSkipping) then runSequence r m rest

/-- The line of the present command is noted. -/
def atLine (line : Nat) : Step Unit :=
  change fun p => { p with line }

/-- The status of a command that may end a shell that stops on errors. -/
def checkStatus (m : Manner) (status : Nat) : Step Unit := do
  setStatus status
  if status ≠ 0 && !m.isTested && (← hasOption "errexit") then throw .ends

/-- A command is carried out, apart from what is done before and after every command. -/
def carryOut (r : Runner) (m : Manner) (c : Command) : Step Unit := do
  match c with
  | .simple line assignments words redirections =>
    atLine line
    checkStatus m (← runSimple r m assignments words redirections)
  | .pipeline parts isAside => checkStatus m (← runPipeline r m parts isAside)
  | .negation body =>
    let status ← r { isTested := true } body
    setStatus (if ← isSkipping then status else if status = 0 then 1 else 0)
  | .both first second =>
    let status ← r { isTested := true } first
    if status = 0 && !(← isSkipping) then setStatus (← r m second)
  | .either first second =>
    let status ← r { isTested := true } first
    if status ≠ 0 && !(← isSkipping) then setStatus (← r m second)
  | .sequence .. => runSequence r m c.parts
  | .aside line body redirections =>
    atLine line
    checkStatus m (← runAside r body redirections)
  | .subshell line body redirections =>
    atLine line
    checkStatus m (← runSubshell r m body redirections)
  | .redirected line body redirections =>
    atLine line
    setStatus (← runRedirected r m body redirections)
  | .branch test yes no =>
    let status ← r { isTested := true } test
    if !(← isSkipping) then
      if status = 0 then setStatus (← r m yes)
      else
        match no with
        | some no => setStatus (← r m no)
        | none => setStatus 0
  | .loop untilTrue test body => setStatus (← runLoop r m untilTrue test body)
  | .each line name words body =>
    atLine line
    let texts ← words.mapM (fieldsOfWord (output r))
    setStatus (← runEach r m name body texts.flatten)
  | .choice line subject cases =>
    atLine line
    let text ← textOfWord (output r) .whole subject
    setStatus (← runCases r m text cases)
  | .define _ name body =>
    change fun p => { p with functions := put name body p.functions }
    setStatus 0

/-- A command is carried out. -/
def evaluate (r : Runner) (m : Manner) (c : Command) : Step Nat := do
  if !(← hasOption "noexec") then
    runTraps r
    carryOut r m c
  runTraps r
  if m.isLast then throw .ends
  return (← process).status

/-- The runner for commands that nest less than `depth` levels deep. -/
def runTo : (depth : Nat) → Runner
  | 0, _, _ => throw (.killed 11)
  | depth + 1, m, c => evaluate (runTo depth) m c

/-- The number of levels that commands may nest. -/
def levelLimit : Nat := 100000

/-- The runner for all commands. -/
def run : Runner := runTo levelLimit

end Step

end SuiteScope.Shell
