import SuiteScope.Shell.Number

/-!
# Escapes

A backslash in what `echo` and `printf` write stands with what follows it for a byte, or ends all
output. The commands of the shell and the programs of the same names know different escapes, which
is what a `Dialect` tells.
-/

namespace SuiteScope.Shell

/-- Which commands are meant. -/
inductive Dialect
  /-- The commands of the shell. -/
  | builtin
  /-- The programs that are found on the search path. -/
  | program
  deriving DecidableEq, Repr

/-- What an escape comes to. -/
inductive Escape
  /-- These bytes, with what follows the escape. -/
  | bytes (written rest : Bytes)
  /-- The end of all output. -/
  | stop
  | fault (message : Bytes)
  deriving DecidableEq, Repr

namespace Escape

/-- The byte that a letter after a backslash stands for. -/
def control? : Char → Option Char
  | 'a' => some '\x07'
  | 'b' => some '\x08'
  | 'e' => some '\x1b'
  | 'f' => some '\x0c'
  | 'n' => some '\n'
  | 'r' => some '\r'
  | 't' => some '\t'
  | 'v' => some '\x0b'
  | '\\' => some '\\'
  | _ => none

/-- The byte of a number. -/
def byteOf (n : Nat) : Char :=
  Char.ofNat (n % 256)

/-- Whether a byte is an octal digit. -/
def isOctal (c : Char) : Bool :=
  '0' ≤ c && c ≤ '7'

/-- The byte of at most three octal digits. -/
def octal (s : Bytes) : Escape :=
  let (n, rest) := digitRunUpTo 8 3 0 s
  .bytes [byteOf n] rest

/-- The character that a program writes for a number of four or eight digits : its name. -/
def unicode (letter : Char) (width : Nat) (s : Bytes) : Escape :=
  let (n, rest) := digitRunUpTo 16 width 0 s
  let name := Nat.toDigits 16 n
  let name := '\\' :: letter :: List.replicate (width - name.length) '0' ++ name
  if rest.length + width ≠ s.length then
    .fault "missing hexadecimal number in escape".toList
  else if n < 0xa0 ∧ n ≠ 0x24 ∧ n ≠ 0x40 ∧ n ≠ 0x60 then
    .fault ("invalid universal character name ".toList ++ name)
  else if n < 0x80 then .bytes [byteOf n] rest
  else .bytes ('\\' :: letter :: (name.drop 2).map Char.toUpper) rest

/-- An escape in a format, where `s` follows the backslash. -/
def inFormat (d : Dialect) (s : Bytes) : Escape :=
  match s with
  | [] => .bytes ['\\'] []
  | c :: rest =>
    match control? c, d with
    | some b, _ => .bytes [b] rest
    | none, .builtin => if isOctal c then octal s else .bytes ['\\'] s
    | none, .program =>
      if isOctal c then octal s
      else
        match c with
        | 'c' => .stop
        | '\x22' => .bytes ['\x22'] rest
        | 'x' =>
          let (n, after) := digitRunUpTo 16 2 0 rest
          if after.length = rest.length then .fault "missing hexadecimal number in escape".toList
          else .bytes [byteOf n] after
        | 'u' => unicode 'u' 4 rest
        | 'U' => unicode 'U' 8 rest
        | c => .bytes ['\\', c] rest

/-- An escape in a text that is an argument of a format. A zero may stand in front of the octal
digits of a byte. -/
def inText (d : Dialect) (s : Bytes) : Escape :=
  match s with
  | 'c' :: _ => .stop
  | '0' :: c :: rest => if isOctal c then octal (c :: rest) else octal s
  | s => inFormat d s

/-- An escape in what the program `echo` writes. -/
def inEcho (s : Bytes) : Escape :=
  match s with
  | 'c' :: _ => .stop
  | '0' :: rest => octal rest
  | 'x' :: rest =>
    let (n, after) := digitRunUpTo 16 2 0 rest
    if after.length = rest.length then .bytes ['\\', 'x'] rest else .bytes [byteOf n] after
  | c :: rest =>
    if isOctal c then octal s
    else
      match control? c with
      | some b => .bytes [b] rest
      | none => .bytes ['\\', c] rest
  | [] => .bytes ['\\'] []

/-- What a text with escapes comes to : the bytes, whether an escape has ended all output, and what
is wrong. -/
structure Result where
  bytes : Bytes
  isEnded : Bool := false
  fault : Option Bytes := none

/-- A text with its escapes replaced, where `done` is what comes before it, last byte first. -/
def replaceFrom (escape : Bytes → Escape) : (fuel : Nat) → (done : Bytes) → Bytes → Result
  | 0, done, _ | _, done, [] => ⟨done.reverse, false, none⟩
  | fuel + 1, done, c :: s =>
    if c = '\\' then
      match escape s with
      | .bytes written rest => replaceFrom escape fuel (written.reverse ++ done) rest
      | .stop => ⟨done.reverse, true, none⟩
      | .fault message => ⟨done.reverse, true, some message⟩
    else replaceFrom escape fuel (c :: done) s

/-- A text with its escapes replaced. -/
def replace (escape : Bytes → Escape) (s : Bytes) : Result :=
  replaceFrom escape (s.length + 1) [] s

end Escape

/-! ## The command `echo` -/

/-- What the command `echo` of the shell writes : arguments with blanks between, up to an escape
that ends all output. -/
def echoBuiltin (arguments : List Bytes) : Bytes :=
  let isBare := arguments.head? == some ['-', 'n']
  let rec go : List Bytes → Bytes
    | [] => if isBare then [] else ['\n']
    | [s] =>
      let r := Escape.replace (Escape.inText .builtin) s
      if r.isEnded || isBare then r.bytes else r.bytes ++ ['\n']
    | s :: rest =>
      let r := Escape.replace (Escape.inText .builtin) s
      if r.isEnded then r.bytes else r.bytes ++ ' ' :: go rest
  go (if isBare then arguments.drop 1 else arguments)

/-- Whether an argument is a bundle of the options of the program `echo`. -/
def isEchoOption : Bytes → Bool
  | '-' :: c :: s => (c :: s).all fun c => ['n', 'e', 'E'].contains c
  | _ => false

/-- What the program `echo` writes. -/
def echoProgram (arguments : List Bytes) : Bytes :=
  let options := (arguments.takeWhile isEchoOption).flatMap (·.drop 1)
  let text := [' '].intercalate (arguments.dropWhile isEchoOption)
  let hasEscapes := (options.filter (· != 'n')).getLast? == some 'e'
  let r := if hasEscapes then Escape.replace Escape.inEcho text else ⟨text, false, none⟩
  if r.isEnded || options.contains 'n' then r.bytes else r.bytes ++ ['\n']

end SuiteScope.Shell
