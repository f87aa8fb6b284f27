import SuiteScope.Shell.Builtin.Table
import SuiteScope.Shell.Run.Start

/-!
# Simple commands

A simple command is carried out in steps : its words are replaced, its redirections and assignments
are carried out, and then the function, the command of the shell or the program that its first word
names is run. The word `command` in front changes how that name is looked for.
-/

namespace SuiteScope.Shell

/-- What is known about a simple command when its name has been looked at. -/
structure Naming where
  /-- All words that have been replaced. -/
  shown : List Bytes
  /-- Those of them from the name on. -/
  words : List Bytes
  /-- The words that have not been replaced. -/
  rest : List Word
  search : Search := {}
  /-- What the name stands for in the shell. -/
  found : Option Resolved := none
  /-- Whether the first word names a command that belongs to the language. It has no answer if the
  first word names no command of the shell. -/
  isSpecial : Option Bool := none
  /-- Whether the assignments of the command end with it. -/
  hasScope : Bool := true

/-- The commands whose arguments may be assignments. -/
def assigningBuiltins : List String := ["alias", "export", "local", "readonly"]

namespace Naming

/-- The name of the command. -/
def name (n : Naming) : Bytes :=
  n.words.headD []

/-- Whether the name is that of one of some commands of the shell. -/
def isOneOf (n : Naming) (names : List String) : Bool :=
  match n.found with
  | some .builtin => names.contains (String.ofList n.name)
  | _ => false

end Naming

namespace Step

/-! ## Words -/

/-- The fields of the first word that has some, and the words behind it. -/
def fill (out : Option Command → Step Bytes) : List Word → Step (List Bytes × List Word)
  | [] => return ([], [])
  | word :: rest => do
    match ← fieldsOfWord out word with
    | [] => fill out rest
    | fields => return (fields, rest)

/-- What stands behind the word `command` : the words that have been passed over, those from the
next name on, the words that have not been replaced, and whether the default search path is meant.
There is no next name if other options are given. -/
structure Behind where
  passed : List Bytes := []
  ahead : List Bytes
  rest : List Word
  isDefault : Bool := false
  hasName : Bool := false

/-- The words behind the word `command`. -/
def behind (out : Option Command → Step Bytes) (b : Behind) : Step Behind :=
  untilDone (fun (b, isOpen) => do
    let b ← if b.ahead.isEmpty then do
        let (ahead, rest) ← fill out b.rest
        pure { b with ahead, rest }
      else pure b
    match b.ahead with
    | [] => return .inr b
    | word :: ahead =>
      match word with
      | '-' :: letters@(_ :: _) =>
        if isOpen && letters == ['-'] then
          return .inl ({ b with passed := b.passed ++ [word], ahead }, false)
        else if isOpen && letters.all (· == 'p') then
          return .inl ({ b with passed := b.passed ++ [word], ahead, isDefault := true }, true)
        else return .inr { b with hasName := !isOpen }
      | _ => return .inr { b with hasName := true }) (b, true)

/-- What the name of a simple command stands for in the shell. -/
def nameCommand (out : Option Command → Step Bytes) (n : Naming) : Step Naming :=
  untilDone (fun (n : Naming) => do
    let found ← lookupInShell? n.search n.name
    let n := { n with found }
    match found with
    | some .builtin =>
      let isSpecial := n.isSpecial.getD (isSpecialBuiltin n.name)
      let n := { n with isSpecial := some isSpecial, hasScope := n.isSpecial.isSome || !isSpecial }
      if n.name != "command".toList then return .inr n
      else
        let b ← behind out { ahead := n.words.drop 1, rest := n.rest }
        let shown := n.shown.take (n.shown.length - n.words.length + 1) ++ b.passed ++ b.ahead
        let n := { n with shown, rest := b.rest }
        if b.hasName then
          let path? := if b.isDefault then some defaultSearchPath.toList else n.search.path?
          return .inl { n with words := b.ahead, search := { skipsFunctions := true, path? } }
        else return .inr { n with words := n.words.take 1 ++ b.passed ++ b.ahead }
    | _ => return .inr { n with hasScope := true }) n

/-- The words of a simple command. There is no name if it has none. -/
def nameWords (out : Option Command → Step Bytes) (words : List Word) : Step (Option Naming) := do
  let (fields, rest) ← fill out words
  if fields.isEmpty then return none
  let n ← nameCommand out { shown := fields, words := fields, rest }
  let assigns := n.isOneOf assigningBuiltins
  let more ← n.rest.mapM fun word =>
    if assigns && isAssignment word then do return [← textOfWord out .assignment word]
    else fieldsOfWord out word
  let more := more.flatten
  return some { n with shown := n.shown ++ more, words := n.words ++ more, rest := [] }

/-! ## Traces -/

/-- The text in front of a command that is shown before it is carried out. Commands in it are not
carried out. -/
def tracePrompt (out : Option Command → Step Bytes) : Step Bytes := do
  let text := (← value? "PS4".toList).getD []
  let nested := fun (closes : Bool) =>
    if closes then Reading.unexpected (some .right) else pure none
  let word := do
    let c ← Reading.nextJoined
    Reading.readWord nested .double (some (['\x00'], false)) c
  match word ({ frames := [⟨text, none, false⟩] } : Reader) with
  | .ok (e, _) => textOfWord out { isQuoted := true } (wordOfMarks true e.marks)
  | .error (complaint, _) =>
    warn ("Syntax error: ".toList ++ complaint.message.toList)
    return text

/-- A command is shown before it is carried out, where complaints went before its redirections. -/
def trace (out : Option Command → Step Bytes) (saved : Saved) (texts : List Bytes) : Step Unit := do
  if ← hasOption "xtrace" then
    let line := (← tracePrompt out) ++ [' '].intercalate texts ++ ['\n']
    match saved.lookup 2 with
    | some (some number) =>
      let writer := (← process).number
      changeWorld (·.write writer number line)
    | _ =>
      let _ ← write 2 line

/-! ## Functions, commands of the shell, programs -/

/-- The number of functions that may be carried out inside each other. -/
def callLimit : Nat := 1000

/-- A function is carried out. -/
def callFunction (r : Runner) (m : Manner) (body : Command) (arguments : List Bytes) :
    Step Unit := do
  let p ← process
  if p.calls = callLimit then
    fail s!"Maximum function recursion depth ({callLimit}) reached".toList
  change fun p =>
    { p with arguments, optionPlace := (1, none), loops := 0, calls := p.calls + 1 }
  let leave : Step Unit := change fun q =>
    { q with
      arguments := p.arguments
      optionPlace := p.optionPlace
      loops := p.loops
      calls := p.calls
      skip := if q.skip = .returning ∨ q.skip = .returningAsIs then .nothing else q.skip }
  tryCatch (do let _ ← r { isTested := m.isTested } body) fun stop => do
    leave
    throw stop
  leave

/-- The process ends because a program cannot take its place. -/
def endUnstarted (name : Bytes) (e : FileError) : Step Unit := do
  let isAbsent := e = .notFound ∨ e = .notADirectory
  warn (name ++ [':', ' '] ++ if isAbsent then "not found".toList else e.wording.toList)
  let _ ← flush
  setStatus (if isAbsent ∨ e = .nameTooLong then 127 else 126)
  throw .ends

/-- The program of the first of some paths that can be started takes the place of the process. -/
def become (r : Runner) (words : List Bytes) : (why : FileError) → List Bytes → Step Unit
  | why, [] => endUnstarted (words.headD []) why
  | why, path :: rest => do
    match ← startProgram r path words with
    | .ok ended => throw (.replaced ended)
    | .error .notFound | .error .notADirectory => become r words why rest
    | .error e => become r words e rest

/-- The command `exec`. -/
def exec (r : Runner) (arguments : List Bytes) : Step Nat := do
  match (← takeOptions "" arguments).2 with
  | [] => return 0
  | name :: rest =>
    let path ← searchPath
    become r (name :: rest) .notFound (if name.contains '/' then [name] else candidates path name)
    return 0

/-- The path of a script that is carried out by the present shell. -/
def sourcePath (name : Bytes) : Step Bytes := do
  if name.contains '/' then return name
  let fs ← files
  let isFile := fun (path : Bytes) => fs.isFile (pathOf path)
  match (candidates (← searchPath) name).find? isFile with
  | some path => return path
  | none => fail (name ++ ": not found".toList)

/-- The command `.`, which carries out a script in the present shell. -/
def source (r : Runner) (arguments : List Bytes) : Step Nat := do
  match (← takeOptions "" arguments).2 with
  | [] => return 0
  | name :: _ =>
    let path ← sourcePath name
    let text ← scriptText path
    change fun p => { p with command := some path }
    runText r true {} text

/-- A command of the shell is carried out. The result tells why it has stopped, if it has. -/
def runBuiltin (r : Runner) (m : Manner) (words : List Bytes) : Step (Option Stop) := do
  let name := words.headD []
  let arguments := words.drop 1
  let outer ← process
  change fun p => { p with command := some name }
  let stop ← tryCatch (do
    let status ← match String.ofList name with
      | "." => source r arguments
      | "eval" => runText r false { isTested := m.isTested } ([' '].intercalate arguments)
      | "exec" => exec r arguments
      | name =>
        match builtin? name with
        | some run => run arguments
        | none => pure 0
    let isWritten ← flush
    if !isWritten then warn (name ++ ": I/O error".toList)
    setStatus (if isWritten then status else status ||| 1)
    return none) (fun stop => return some stop)
  change fun p =>
    { p with command := outer.command, scriptLine := outer.scriptLine, buffer := [] }
  return stop

/-- Whether signals have actions. -/
def hasTraps : Step Bool := do
  return (← process).traps.any fun (_, action) => !action.isEmpty

/-- A program is carried out, in the place of the process if nothing comes after it. -/
def runProgram (r : Runner) (m : Manner) (path : Bytes) (words : List Bytes) : Step Nat := do
  let start := become r words .notFound [path]
  if m.isLast && !(← hasTraps) then
    start
    return 0
  else return (← forkAndWait r start).status

/-- The command that has been named is carried out. -/
def runNamed (r : Runner) (m : Manner) (n : Naming) : Step Nat := do
  let builtin : Step Nat := do
    match ← runBuiltin r m n.words with
    | some stop => if stop != .failed || n.isSpecial == some true then throw stop
    | none => pure ()
    return (← process).status
  let function := fun (body : Command) => do
    callFunction r m body (n.words.drop 1)
    return (← process).status
  match n.found with
  | some (.function body) => function body
  | some .builtin => builtin
  | _ =>
    match ← lookupName n.search n.name with
    | .function body => function body
    | .builtin => builtin
    | .program path => runProgram r m path n.words
    | .unknown wording =>
      warn (n.name ++ [':', ' '] ++ wording)
      return 127

/-- The assignments of a command are carried out. The results are their texts. -/
def assignAll (out : Option Command → Step Bytes) (hasScope exports : Bool) (words : List Word) :
    Step (List Bytes) :=
  words.mapM fun word => do
    let text ← textOfWord out .assignment word
    if hasScope then makeLocal text true
    else
      let (name, value) := splitAssignment text
      setVariable name value exports
    return text

/-- A simple command is carried out. -/
def runSimple (r : Runner) (m : Manner) (assignments words : List Word)
    (redirections : List Redirection) : Step Nat := do
  change fun p => { p with outputStatus := 0 }
  let out := output r
  let depth := (← process).locals.length
  let named ← nameWords out words
  let isExec := named.any (·.isOneOf ["exec"])
  let hasScope := named.any (·.hasScope)
  let exports := isExec && named.any fun n => 1 < n.words.length
  if hasScope then enterScope
  let planned ← redirections.mapM (plan out)
  let before ← saved planned
  let isOpen ← tryRedirect out planned
  let body : Step Nat := do
    if isOpen then
      let texts ← assignAll out hasScope exports assignments
      trace out before (texts ++ (named.map (·.shown)).getD [])
      match named with
      | some n => runNamed r m n
      | none => return (← process).outputStatus
    else if named.any (·.isSpecial == some true) then throw .failed
    else return 2
  let status ← tryCatch body fun stop => do
    restore before
    throw stop
  if !isExec then restore before
  leaveScopes depth
  return status

end Step

end SuiteScope.Shell
