import SuiteScope.Shell.Expand
import SuiteScope.Shell.Grammar
import SuiteScope.Shell.Installed

/-!
# What the name of a command stands for

A name stands for a function, for a command of the shell, or for a program. A program is looked for
in the directories of the search path, and the shell remembers where it has found one. `lookupName`
finds out what a name stands for, and `describe` tells it.
-/

namespace SuiteScope.Shell

/-- The names of the commands of the shell. -/
def builtinNames : List String :=
  specialBuiltins ++ ["[", "alias", "bg", "cd", "chdir", "command", "echo", "false", "fg",
    "getopts", "hash", "jobs", "kill", "printf", "pwd", "read", "test", "true", "type", "ulimit",
    "umask", "unalias", "wait"]

/-- Whether a name is that of a command of the shell. -/
def isBuiltin (name : Bytes) : Bool :=
  builtinNames.contains (String.ofList name)

/-- Whether a name is that of a command that belongs to the language. -/
def isSpecialBuiltin (name : Bytes) : Bool :=
  specialBuiltins.contains (String.ofList name)

/-- What the name of a command stands for. -/
inductive Resolved
  | function (body : Command)
  | builtin
  | program (path : Bytes)
  /-- Nothing, and why it is so. -/
  | unknown (wording : Bytes)

/-- Where a name is looked for. -/
structure Search where
  skipsFunctions : Bool := false
  /-- The search path, if it is not that of the shell. -/
  path? : Option Bytes := none

/-- The files on a search path that a name may stand for. -/
def candidates (path name : Bytes) : List Bytes :=
  (Path.splitAt ':' path).map fun dir => if dir.isEmpty then name else dir ++ '/' :: name

/-- A text in single quotes, with double quotes around its own single quotes. At most `fuel` parts
are written. -/
def singleQuotedFrom : (fuel : Nat) → Bytes → Bytes
  | 0, _ => []
  | fuel + 1, s =>
    let part := '\x27' :: s.takeWhile (· != '\x27') ++ ['\x27']
    match s.dropWhile (· != '\x27') with
    | [] => part
    | rest =>
      let quotes := rest.takeWhile (· == '\x27')
      let after := rest.dropWhile (· == '\x27')
      part ++ '\x22' :: quotes ++ '\x22' ::
        if after.isEmpty then [] else singleQuotedFrom fuel after

/-- A text in quotes, as it is read back. -/
def singleQuoted (s : Bytes) : Bytes :=
  singleQuotedFrom (s.length + 1) s

/-- The place of a name in a table, which is the order in which names are listed. -/
def tablePlace (size : Nat) (name : Bytes) : Nat :=
  let start := (name.head?.getD '\x00').toNat * 16
  (name.foldl (fun n c => n + c.toNat) start % 32768) % size

/-- Names in the order of a table. -/
def inTable {α : Type} (size : Nat) (all : List (Bytes × α)) : List (Bytes × α) :=
  all.mergeSort fun a b => tablePlace size a.1 ≤ tablePlace size b.1

namespace Step

/-! ## Programs -/

/-- The search path of the shell. -/
def searchPath : Step Bytes := do
  return (← value? "PATH".toList).getD []

/-- The first of some files that is a program, or why there is none. -/
def firstProgram (fs : FileSystem) : (why : Bytes) → List Bytes → Except Bytes Bytes
  | why, [] => .error why
  | why, candidate :: rest =>
    match fs.place (pathOf candidate) with
    | .error .notFound | .error .notADirectory => firstProgram fs why rest
    | .error e => firstProgram fs e.wording.toList rest
    | .ok place =>
      if (installed? place).isSome then .ok candidate
      else firstProgram fs FileError.permissionDenied.wording.toList rest

/-- The program that a name stands for on a search path, or why there is none. -/
def findProgram (path name : Bytes) : Step (Except Bytes Bytes) := do
  return firstProgram (← files) "not found".toList (candidates path name)

/-- The shell remembers where it has found a program, or that there is none. -/
def remember (name : Bytes) (path : Option Bytes) : Step Unit :=
  change fun p =>
    { p with
      found := match path with
        | some path => put name ⟨path, false⟩ p.found
        | none => p.found.filter (·.1 != name) }

/-- The program that a name stands for, or why there is none. -/
def lookupProgram (search : Search) (name : Bytes) : Step (Except Bytes Bytes) := do
  match search.path? with
  | some path => findProgram path name
  | none =>
    match (← process).found.lookup name with
    | some ⟨path, false⟩ => return .ok path
    | _ =>
      let result ← findProgram (← searchPath) name
      remember name result.toOption
      return result

/-- What a name stands for in the shell itself. -/
def lookupInShell? (search : Search) (name : Bytes) : Step (Option Resolved) := do
  if name.contains '/' then return none
  let functions := (← process).functions
  let function := if search.skipsFunctions then none else functions.lookup name
  match function with
  | some body => return some (.function body)
  | none => return if isBuiltin name then some .builtin else none

/-- What the name of a command stands for. -/
def lookupName (search : Search) (name : Bytes) : Step Resolved := do
  match ← lookupInShell? search name with
  | some found => return found
  | none =>
    if name.contains '/' then return .program name
    else
      match ← lookupProgram search name with
      | .ok path => return .program path
      | .error wording => return .unknown wording

/-! ## Descriptions -/

/-- An alias as it is listed. -/
def aliasLine (name value : Bytes) : Bytes :=
  name ++ '=' :: singleQuoted value ++ ['\n']

/-- What a command name stands for is told, in words if `inWords` is set. -/
def describe (inWords : Bool) (path? : Option Bytes) (name : Bytes) : Step Nat := do
  let p ← process
  let tell := fun (words short : Bytes) => do
    say ((if inWords then name ++ words else short) ++ ['\n'])
    return 0
  if (keyword? name).isSome then tell " is a shell keyword".toList name
  else
    match p.aliases.lookup name with
    | some value =>
      if inWords then tell (" is an alias for ".toList ++ value) []
      else
        say ("alias ".toList ++ aliasLine name value)
        return 0
    | none =>
      let isTracked := path?.isNone && (p.found.lookup name).isSome
      let isAbsent := name.contains '/' && !(((← files).node (pathOf name)).isOk)
      let found ← if isAbsent then pure (.unknown []) else lookupName { path? } name
      match found with
      | .function _ => tell " is a shell function".toList name
      | .builtin =>
        let kind := if isSpecialBuiltin name then " is a special shell builtin" else
          " is a shell builtin"
        tell kind.toList name
      | .program path =>
        tell ((if isTracked then " is a tracked alias for " else " is ").toList ++ path) path
      | .unknown _ =>
        if inWords then say (name ++ ": not found\n".toList)
        return 127

/-- The remembered programs are listed. -/
def listRemembered : Step Unit := do
  for (_, known) in inTable 31 (← process).found do
    say (known.path ++ if known.isOld then ['*', '\n'] else ['\n'])

end Step

end SuiteScope.Shell
