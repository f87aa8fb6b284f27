import SuiteScope.Shell.Process

/-!
# Options

Two kinds of options : those that a command is given in its arguments, and those that a shell has
set. `takeOptions` reads the first kind. An option of the second kind has a name, and most have a
letter, and `setOptions` sets and clears them by the arguments of `set` or of a shell.
-/

namespace SuiteScope.Shell

/-- The options of a shell, with their letters. -/
def shellOptions : List (String × Option Char) :=
  [("errexit", some 'e'), ("noglob", some 'f'), ("ignoreeof", some 'I'), ("interactive", some 'i'),
    ("monitor", some 'm'), ("noexec", some 'n'), ("stdin", some 's'), ("xtrace", some 'x'),
    ("verbose", some 'v'), ("vi", some 'V'), ("emacs", some 'E'), ("noclobber", some 'C'),
    ("allexport", some 'a'), ("notify", some 'b'), ("nounset", some 'u'), ("privileged", some 'p'),
    ("nolog", none), ("debug", none)]

/-- The letters of the options that are set, last option first. -/
def optionLetters (set : List String) : Bytes :=
  shellOptions.reverse.filterMap fun (name, letter) => if set.contains name then letter else none

namespace Step

/-! ## Options of commands -/

/-- What is known of a letter in a list of options, in which a colon follows each letter that takes
an argument. -/
def takesArgument? (letter : Char) : List Char → Option Bool
  | [] => none
  | [c] => if c = letter then some false else none
  | c :: ':' :: rest => if c = letter then some true else takesArgument? letter rest
  | c :: rest => if c = letter then some false else takesArgument? letter rest

/-- The options in a bundle of letters, and the arguments behind them. -/
def takeBundle (known : String) : Bytes → List Bytes → Step (List (Char × Bytes) × List Bytes)
  | [], rest => return ([], rest)
  | c :: bundle, rest => do
    match takesArgument? c known.toList with
    | none => fail ("Illegal option -".toList ++ [c])
    | some false =>
      let (found, rest) ← takeBundle known bundle rest
      return ((c, []) :: found, rest)
    | some true =>
      if !bundle.isEmpty then return ([(c, bundle)], rest)
      else
        match rest with
        | argument :: rest => return ([(c, argument)], rest)
        | [] => fail ("No arg for -".toList ++ c :: " option".toList)

/-- The options at the start of arguments, and the other arguments. At most `n` bundles are read. -/
def takeOptionsUpTo (known : String) : (n : Nat) → List Bytes →
    Step (List (Char × Bytes) × List Bytes)
  | n + 1, ('-' :: c :: bundle) :: rest => do
    if c = '-' ∧ bundle = [] then return ([], rest)
    let (found, rest) ← takeBundle known (c :: bundle) rest
    let (more, rest) ← takeOptionsUpTo known n rest
    return (found ++ more, rest)
  | _, arguments => return ([], arguments)

/-- The options at the start of arguments, and the other arguments. -/
def takeOptions (known : String) (arguments : List Bytes) :
    Step (List (Char × Bytes) × List Bytes) :=
  takeOptionsUpTo known (arguments.length + 1) arguments

/-! ## Options of a shell -/

/-- An option of the shell is set or cleared. -/
def setOption (name : String) (value : Bool) : Step Unit :=
  change fun p =>
    { p with
      options := (if value then [name] else []) ++ p.options.filter (· != name) }

/-- The option of a letter is set or cleared. The two ways of editing exclude each other. -/
def setLetter (letter : Char) (value : Bool) : Step Unit := do
  match shellOptions.find? fun (_, l) => l == some letter with
  | some (name, _) =>
    setOption name value
    if value && letter = 'V' then setOption "emacs" false
    if value && letter = 'E' then setOption "vi" false
  | none => fail ("Illegal option -".toList ++ [letter])

/-- The table of all options, or the commands that bring them back. -/
def listOptions (asTable : Bool) : Step Unit := do
  let now := (← process).options
  if asTable then say "Current option settings\n".toList
  for (name, _) in shellOptions do
    let isSet := now.contains name
    if asTable then
      let blanks := List.replicate (16 - name.length) ' '
      say (name.toList ++ blanks ++ if isSet then "on\n".toList else "off\n".toList)
    else say ((if isSet then "set -o " else "set +o ").toList ++ name.toList ++ ['\n'])

/-- The option of a name is set or cleared. Without a name all are listed. -/
def setNamed (name : Option Bytes) (value : Bool) : Step Unit :=
  match name with
  | none => listOptions value
  | some name =>
    let text := String.ofList name
    if shellOptions.any (·.1 == text) then setOption text value
    else fail ("Illegal option -o ".toList ++ name)

/-- The options in a bundle are set or cleared. The results are the arguments behind them, and
whether the script is the next argument, which only the arguments of a shell may tell. -/
def setBundle (isStart value : Bool) : Bytes → List Bytes → Step (List Bytes × Bool)
  | [], rest => return (rest, false)
  | c :: bundle, rest => do
    if c = 'c' && isStart then
      let (rest, _) ← setBundle isStart value bundle rest
      return (rest, true)
    else if c = 'l' && isStart then setBundle isStart value bundle rest
    else if c = 'o' then
      setNamed rest.head? value
      setBundle isStart value bundle (rest.drop 1)
    else
      setLetter c value
      setBundle isStart value bundle rest

/-- What the arguments of `set` or of a shell come to. -/
structure Setting where
  /-- The arguments that are no options. -/
  operands : List Bytes
  /-- Whether the first of them is the script. -/
  isScript : Bool := false
  /-- Whether they replace the arguments of the shell even if there are none. -/
  replaces : Bool := false

/-- The options at the start of arguments are set and cleared. At most `n` bundles are read. -/
def setOptionsUpTo (isStart : Bool) : (n : Nat) → List Bytes → Step Setting
  | 0, operands => return { operands }
  | _, [] => return { operands := [] }
  | n + 1, argument :: rest => do
    match argument with
    | ['-'] =>
      if !isStart then
        setOption "xtrace" false
        setOption "verbose" false
      return { operands := rest }
    | ['-', '-'] => return { operands := rest, replaces := true }
    | sign :: bundle =>
      if sign = '-' ∨ sign = '+' then
        let (rest, isScript) ← setBundle isStart (sign == '-') bundle rest
        let more ← setOptionsUpTo isStart n rest
        return { more with isScript := more.isScript || isScript }
      else return { operands := argument :: rest }
    | [] => return { operands := argument :: rest }

/-- The options at the start of arguments are set and cleared. -/
def setOptions (isStart : Bool) (arguments : List Bytes) : Step Setting :=
  setOptionsUpTo isStart (arguments.length + 1) arguments

/-- The arguments of the shell are replaced. -/
def setArguments (arguments : List Bytes) : Step Unit :=
  change fun p => { p with arguments, optionPlace := (1, none) }

end Step

end SuiteScope.Shell
