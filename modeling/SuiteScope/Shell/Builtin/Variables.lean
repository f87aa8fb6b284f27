import SuiteScope.Shell.Field
import SuiteScope.Shell.Lookup

/-!
# Commands about variables

The commands of the shell that set, mark and list variables, arguments, options and aliases :
`alias`, `export`, `getopts`, `local`, `read`, `readonly`, `set`, `shift`, `unalias` and `unset`.
-/

namespace SuiteScope.Shell.Builtin

open Step

/-! ## Marks and lists -/

/-- Variables are listed in the order of their names, each with some text in front. -/
def listVariables (start : Bytes) (isListed : Variable → Bool) : Step Unit := do
  let found := (← process).bindings.filter fun (_, v) => isListed v
  for (name, v) in found.mergeSort fun a b => byBytes a.1 b.1 do
    let value := match v.value with
      | some value => '=' :: singleQuoted value
      | none => []
    say (start ++ name ++ value ++ ['\n'])

/-- The commands `export` and `readonly`. -/
def markVariables (command : String) (exports locks : Bool) (arguments : List Bytes) :
    Step Nat := do
  let (options, operands) ← takeOptions "p" arguments
  if options.isEmpty && !operands.isEmpty then
    for operand in operands do
      match splitAssignment operand with
      | (name, some value) => setVariable name (some value) exports locks
      | (name, none) => mark name exports locks
  else
    listVariables (command.toList ++ [' ']) fun v =>
      (exports && v.isExported) || (locks && v.isReadOnly)
  return 0

/-- The command `local`. -/
def localVariables (arguments : List Bytes) : Step Nat := do
  if (← process).locals.isEmpty then fail "not in a function".toList
  for argument in arguments do makeLocal argument false
  return 0

/-- The command `unset`. -/
def unset (arguments : List Bytes) : Step Nat := do
  let (options, operands) ← takeOptions "vf" arguments
  for operand in operands do
    if options.getLast?.any (·.1 == 'f') then
      change fun p => { p with functions := p.functions.filter (·.1 != operand) }
    else setVariable operand none
  return 0

/-! ## Options and arguments -/

/-- The command `set`. -/
def set (arguments : List Bytes) : Step Nat := do
  if arguments.isEmpty then listVariables [] fun v => v.value.isSome
  else
    let setting ← setOptions false arguments
    if setting.replaces || !setting.operands.isEmpty then setArguments setting.operands
  return 0

/-- The command `shift`. -/
def shift (arguments : List Bytes) : Step Nat := do
  let n ← match arguments with
    | [] => pure 1
    | text :: _ => countOf text
  let now := (← process).arguments
  if now.length < n then fail "can't shift that many".toList
  setArguments (now.drop n)
  return 0

/-- The next option letter of some arguments : the text it comes from, and the number of the
argument behind that one. There is none at the end of the options. -/
def nextOption (arguments : List Bytes) (place : Nat × Option Nat) : Option Bytes × Nat :=
  let (number, offset) := place
  let open? := offset.bind fun offset =>
    (if number ≤ 1 then none else arguments[number - 2]?).bind fun argument =>
      if argument.length ≤ offset then none else some (argument.drop offset)
  match open? with
  | some text => (some text, number)
  | none =>
    match arguments[number - 1]? with
    | some ['-', '-'] => (none, number + 1)
    | some ('-' :: c :: text) => (some (c :: text), number + 1)
    | _ => (none, number)

/-- What is said about an option, unless the caller of `getopts` wants to know it itself. -/
def optionTrouble (isQuiet : Bool) (c : Char) (message : String) : Step Unit := do
  let argument := "OPTARG".toList
  if isQuiet then assign argument [c]
  else
    let _ ← write 2 message.toList
    setVariable argument none

/-- The command `getopts`. -/
def getopts (arguments : List Bytes) : Step Nat := do
  match (← takeOptions "" arguments).2 with
  | known :: target :: given =>
    let p ← process
    let all := if given.isEmpty then p.arguments else given
    let place := if all.length + 1 < p.optionPlace.1 then (1, none) else p.optionPlace
    let isQuiet := known.head? == some ':'
    let (text?, number) := nextOption all place
    let (letter, rest, number) ← match text? with
      | none | some [] => pure ('?', none, number)
      | some (c :: rest) =>
        match takesArgument? c known with
        | none => do
          optionTrouble isQuiet c s!"Illegal option -{c}\n"
          pure ('?', some rest, number)
        | some false => do
          assign "OPTARG".toList []
          pure (c, some rest, number)
        | some true =>
          if !rest.isEmpty then do
            assign "OPTARG".toList rest
            pure (c, none, number)
          else
            match all[number - 1]? with
            | some argument => do
              assign "OPTARG".toList argument
              pure (c, none, number + 1)
            | none => do
              optionTrouble isQuiet c s!"No arg for -{c} option\n"
              pure (if isQuiet then ':' else '?', none, number)
    assign "OPTIND".toList (decimal number)
    assign target [letter]
    let offset := rest.map fun rest => ((all[number - 2]?).getD []).length - rest.length
    change fun p => { p with optionPlace := (number, offset) }
    return if text?.isSome then 0 else 1
  | _ => fail "Usage: getopts optstring var [arg...]".toList

/-! ## Reading -/

/-- A byte that has been read, and whether a backslash keeps it from being a separator. -/
abbrev InputByte := Char × Bool

/-- A line at the start of a text. -/
structure InputLine where
  bytes : List InputByte
  /-- The number of bytes that the line takes. -/
  length : Nat
  /-- Whether the line has an end. -/
  isComplete : Bool

/-- The line at the start of a text, after what has been read of it, last byte first. A backslash
keeps the byte behind it, and joins lines, unless the line is `raw`. -/
def inputLine (raw : Bool) : (done : List InputByte) → (length : Nat) → Bytes → InputLine
  | done, n, [] => ⟨done.reverse, n, false⟩
  | done, n, '\\' :: s =>
    if raw then inputLine raw (('\\', false) :: done) (n + 1) s
    else
      match s with
      | [] => ⟨done.reverse, n + 1, false⟩
      | c :: s =>
        inputLine raw (if c = '\n' ∨ c = '\x00' then done else (c, true) :: done) (n + 2) s
  | done, n, c :: s =>
    if c = '\n' then ⟨done.reverse, n + 1, true⟩
    else inputLine raw (if c = '\x00' then done else (c, false) :: done) (n + 1) s

/-- Whether a byte that has been read is a separator. -/
def separates (separators : Bytes) (b : InputByte) : Bool :=
  !b.2 && separators.contains b.1

/-- Whether a byte that has been read is white space between fields. -/
def isGap (separators : Bytes) (b : InputByte) : Bool :=
  separates separators b && defaultSeparators.contains b.1

/-- What is left of a line behind a field. -/
def afterField (separators : Bytes) (line : List InputByte) : List InputByte :=
  match line.dropWhile (isGap separators) with
  | b :: rest =>
    if separates separators b then rest.dropWhile (isGap separators) else b :: rest
  | [] => []

/-- How many bytes of the rest of a line the last variable gets. -/
structure LastField where
  /-- The number of bytes that have been looked at. -/
  count : Nat := 0
  /-- Where the field is cut, unless more text comes. -/
  cut? : Option Nat := none
  /-- Whether no separator has been found. -/
  isSingle : Bool := true
  /-- Whether one separator that is no white space may still be left out. -/
  mayDrop : Bool := false

/-- The last field after one more byte. White space at the end of the line is left out. If the line
is a single field, so is one more separator behind it. A byte that a backslash keeps counts for
nothing here. -/
def LastField.next (separators : Bytes) (f : LastField) (b : InputByte) : LastField :=
  let after := { f with count := f.count + 1 }
  let here := some f.count
  if b.2 then { after with mayDrop := false }
  else if f.isSingle then
    if separates separators b then
      { after with cut? := here, isSingle := false, mayDrop := isGap separators b }
    else after
  else if isGap separators b then { after with cut? := f.cut?.or here }
  else if separates separators b && f.mayDrop then { after with mayDrop := false }
  else { after with cut? := none, mayDrop := false }

/-- The rest of a line, which the last variable gets. -/
def lastField (separators : Bytes) (line : List InputByte) : List InputByte :=
  let f := line.foldl (LastField.next separators) {}
  line.take (f.cut?.getD line.length)

/-- The texts that `n` variables get of a line. -/
def inputFields (separators : Bytes) : (n : Nat) → List InputByte → List Bytes
  | 0, _ => []
  | 1, line => [(lastField separators line).map (·.1)]
  | n + 1, line =>
    let field := line.takeWhile fun b => !separates separators b
    let rest := line.dropWhile fun b => !separates separators b
    field.map (·.1) :: inputFields separators n (afterField separators rest)

/-- The command `read`. -/
def read (arguments : List Bytes) : Step Nat := do
  let (options, names) ← takeOptions "p:r" arguments
  if names.isEmpty then fail "arg count".toList
  let world := (← get).world
  let line ← match ← openedAt? 0 with
    | some (number, o) => do
      let text := if o.isReadable then world.ahead o else []
      let line := inputLine (options.any (·.1 == 'r')) [] 0 text
      changeWorld (·.advance number line.length (text.drop line.length))
      pure line
    | none => pure ⟨[], 0, false⟩
  let separators ← separators
  let fields := inputFields separators names.length (line.bytes.dropWhile (isGap separators))
  for (name, field) in names.zip fields do assign name field
  return if line.isComplete then 0 else 1

/-! ## Aliases -/

/-- The command `alias`. -/
def defineAliases (arguments : List Bytes) : Step Nat := do
  let mut status := 0
  if arguments.isEmpty then
    for (name, value) in inTable 39 (← process).aliases do say (aliasLine name value)
  for argument in arguments do
    let name := argument.take 1 ++ (argument.drop 1).takeWhile (· != '=')
    match argument.drop name.length with
    | _ :: value => change fun p => { p with aliases := put name value p.aliases }
    | [] =>
      match (← process).aliases.lookup argument with
      | some value => say (aliasLine argument value)
      | none =>
        let _ ← write 2 ("alias: ".toList ++ argument ++ " not found\n".toList)
        status := 1
  return status

/-- The command `unalias`. -/
def unalias (arguments : List Bytes) : Step Nat := do
  let (options, names) ← takeOptions "a" arguments
  if !options.isEmpty then
    change fun p => { p with aliases := [] }
    return 0
  let mut status := 0
  for name in names do
    if ((← process).aliases.lookup name).isSome then
      change fun p => { p with aliases := p.aliases.filter (·.1 != name) }
    else
      let _ ← write 2 ("unalias: ".toList ++ name ++ " not found\n".toList)
      status := 1
  return status

end SuiteScope.Shell.Builtin
