import SuiteScope.Text.Digit

/-!
# Requests

A request is what the arguments of the command line ask for. `Request.parse?` reads them. Options
may stand anywhere after the name of a command, each at most once, and two dashes end them.
Arguments that break a rule have no reading. It is assumed that the arguments are UTF-8, so that they
are texts, and so are the paths among them.
-/

namespace SuiteScope.CommandLine

/-- What the command line asks for. -/
inductive Request
  /-- The scenarios of test files, of those given or of the whole project. -/
  | mine (paths : List String) (target : Option String) (json : Bool)
  /-- One run of the tests. -/
  | run (pattern : Option String) (coverage json : Bool)
  /-- A report on a transcript in a file. -/
  | parse (file : String) (exitCode : Int) (durationMs : Nat) (json : Bool)
  /-- The version of the program. -/
  | version
  deriving DecidableEq, Repr

/-! ## Options -/

/-- An option of a command. -/
structure OptionRule where
  long : String
  short : Option Char := none
  takesValue : Bool := false
  /-- The value may be a negative number. -/
  takesNegative : Bool := false

/-- An argument that has been read. -/
inductive Argument
  | flag (long : String)
  | value (long : String) (value : String)
  | positional (s : String)
  deriving DecidableEq, Repr

/-- Whether an argument looks like an option. A single dash does not. -/
def looksLikeOption (s : String) : Bool :=
  match s.toList with
  | '-' :: _ :: _ => true
  | _ => false

/-- Whether an argument is a dash and a numeral. -/
def isNegativeNumber (s : String) : Bool :=
  match s.toList with
  | '-' :: ds => !ds.isEmpty && ds.all Char.isDigit
  | _ => false

/-- Whether an argument may be the value of an option that stands before it. -/
def OptionRule.accepts (rule : OptionRule) (s : String) : Bool :=
  !looksLikeOption s || (rule.takesNegative && isNegativeNumber s)

/-- The name and the value of a long option, where `s` follows the two dashes. -/
def splitLong (s : List Char) : String × Option String :=
  match s.dropWhile (· != '=') with
  | _ :: value => (String.ofList (s.takeWhile (· != '=')), some (String.ofList value))
  | [] => (String.ofList s, none)

/-- The options in a bundle of letters, where `rest` are the arguments after it. The value of an
option is what follows its letter, or else the next argument. -/
def bundle (rules : List OptionRule) :
    (letters : List Char) → (rest : List String) → Option (List Argument × List String)
  | [], rest => some ([], rest)
  | c :: letters, rest =>
    (rules.find? (·.short == some c)).bind fun rule =>
      if rule.takesValue then
        match letters, rest with
        | [], value :: rest =>
          if rule.accepts value then some ([.value rule.long value], rest) else none
        | [], [] => none
        | '=' :: value, rest => some ([.value rule.long (String.ofList value)], rest)
        | value, rest => some ([.value rule.long (String.ofList value)], rest)
      else (bundle rules letters rest).map fun (found, rest) => (.flag rule.long :: found, rest)

/-- A long option, where `s` follows the two dashes. -/
def longOption (rules : List OptionRule) (s : List Char) (rest : List String) :
    Option (List Argument × List String) :=
  let (name, value?) := splitLong s
  (rules.find? (·.long == name)).bind fun rule =>
    match rule.takesValue, value?, rest with
    | false, none, rest => some ([.flag name], rest)
    | false, some _, _ => none
    | true, some value, rest => some ([.value name value], rest)
    | true, none, value :: rest =>
      if rule.accepts value then some ([.value name value], rest) else none
    | true, none, [] => none

/-- The first argument or bundle of arguments, and those after it. Two dashes on their own are not
handled here. -/
def next (rules : List OptionRule) (arg : String) (rest : List String) :
    Option (List Argument × List String) :=
  match arg.toList with
  | '-' :: '-' :: s => longOption rules s rest
  | '-' :: c :: s => bundle rules (c :: s) rest
  | _ => some ([.positional arg], rest)

/-- All arguments of a command, of which there are at most `fuel`. -/
def argumentsFrom (rules : List OptionRule) : (fuel : Nat) → List String → Option (List Argument)
  | _, [] => some []
  | 0, _ => none
  | fuel + 1, arg :: rest =>
    if arg = "--" then some (rest.map .positional)
    else
      (next rules arg rest).bind fun (found, rest) =>
        (argumentsFrom rules fuel rest).map (found ++ ·)

/-- The option that an argument gives. -/
def Argument.long? : Argument → Option String
  | .flag long | .value long _ => some long
  | .positional _ => none

/-- All arguments of a command, if no option is given twice. -/
def arguments? (rules : List OptionRule) (args : List String) : Option (List Argument) :=
  (argumentsFrom rules args.length args).filter fun found =>
    decide (found.filterMap Argument.long?).Nodup

/-- The positional arguments. -/
def positionals (args : List Argument) : List String :=
  args.filterMap fun
    | .positional s => some s
    | _ => none

/-- The value of an option. -/
def valueOf? (long : String) (args : List Argument) : Option String :=
  args.findSome? fun
    | .value l v => if l = long then some v else none
    | _ => none

/-- The value of an option that is a number, read by `read?`, or a default. -/
def numberOf? {α : Type} (long : String) (read? : List Char → Option α) (default : α)
    (args : List Argument) : Option α :=
  match valueOf? long args with
  | some v => read? v.toList
  | none => some default

/-! ## Numbers -/

/-- A number of milliseconds, with a plus sign at most. -/
def readMilliseconds? : List Char → Option Nat
  | '+' :: s => Text.readCount? Text.countBound s
  | s => Text.readCount? Text.countBound s

/-- Exit codes lie in the signed range of 32 bits. -/
def exitCodeBound : Nat := Nat.pow 2 31

/-- An exit code. -/
def readExitCode? : List Char → Option Int
  | '-' :: s => (Text.readCount? (exitCodeBound + 1) s).map fun n => -(n : Int)
  | '+' :: s => (Text.readCount? exitCodeBound s).map Int.ofNat
  | s => (Text.readCount? exitCodeBound s).map Int.ofNat

/-! ## Commands -/

/-- The option that every command has. -/
def verboseRule : OptionRule := { long := "verbose", short := some 'v' }

/-- The option for output as JSON. -/
def jsonRule : OptionRule := { long := "json" }

/-- What `mine` is asked for. Paths are not empty. -/
def mine? (args : List String) : Option Request := do
  let found ← arguments?
    [verboseRule, jsonRule, { long := "target", short := some 't', takesValue := true }] args
  let target := valueOf? "target" found
  if (positionals found ++ target.toList).contains "" then none
  else some (.mine (positionals found) target (found.contains (.flag "json")))

/-- What `run` is asked for. -/
def run? (args : List String) : Option Request := do
  let found ← arguments? [verboseRule, jsonRule, { long := "coverage" }] args
  let request := fun pattern =>
    Request.run pattern (found.contains (.flag "coverage")) (found.contains (.flag "json"))
  match positionals found with
  | [] => some (request none)
  | [pattern] => some (request (some pattern))
  | _ => none

/-- What `parse` is asked for. The file is not empty. -/
def parseFile? (args : List String) : Option Request := do
  let found ← arguments?
    [verboseRule, jsonRule, { long := "exit-code", takesValue := true, takesNegative := true },
      { long := "duration-ms", takesValue := true }] args
  let exitCode ← numberOf? "exit-code" readExitCode? 0 found
  let durationMs ← numberOf? "duration-ms" readMilliseconds? 0 found
  match positionals found with
  | [file] =>
    if file = "" then none
    else some (.parse file exitCode durationMs (found.contains (.flag "json")))
  | _ => none

/-- What a command is asked for. -/
def command? (name : String) (args : List String) : Option Request :=
  match name with
  | "mine" => mine? args
  | "run" => run? args
  | "parse" => parseFile? args
  | _ => none

/-- The flags before the name of a command, in order, and the other arguments. -/
def leadingFlags : List String → Option (List Char × List String)
  | [] => some ([], [])
  | arg :: rest =>
    let more := fun (letters : List Char) =>
      (leadingFlags rest).map fun (flags, rest) => (letters ++ flags, rest)
    match arg.toList with
    | ['-', '-'] => none
    | '-' :: '-' :: name =>
      if name = "verbose".toList then more ['v']
      else if name = "version".toList then some (['V'], [])
      else none
    | '-' :: c :: letters =>
      let known := (c :: letters).takeWhile (· == 'v')
      match (c :: letters).dropWhile (· == 'v') with
      | [] => more known
      | 'V' :: _ => some (known ++ ['V'], [])
      | _ => none
    | _ => some ([], arg :: rest)

/-- What a list of arguments asks for. -/
def Request.parse? (args : List String) : Option Request := do
  let (flags, rest) ← leadingFlags args
  if 1 < flags.count 'v' then none
  else if flags.contains 'V' then some .version
  else
    match rest with
    | name :: args => command? name args
    | [] => none

end SuiteScope.CommandLine
