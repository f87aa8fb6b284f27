import SuiteScope.Shell.Syntax

/-!
# Names in complaints

A program shows the name of a file so that a shell would read the name back. A name of common
characters may stand alone, any other is put in quotes, and bytes that cannot be printed are written
as numbers. `shown` decides which it is, and `quotedName` always writes quotes.
-/

namespace SuiteScope.Shell

/-- What a character of a name asks for. -/
inductive NameByte
  /-- It may stand in double quotes as well. -/
  | common
  /-- It needs single quotes. -/
  | special
  | quote
  /-- It is written as what follows a backslash. -/
  | escaped (code : Bytes)
  deriving DecidableEq, Repr

/-- The letter that stands for a control character. -/
def controlLetter? (c : Char) : Option Char :=
  [('\x07', 'a'), ('\x08', 'b'), ('\x0c', 'f'), ('\n', 'n'), ('\r', 'r'), ('\t', 't'),
    ('\x0b', 'v')].lookup c

/-- Three octal digits. -/
def octalDigits (n : Nat) : Bytes :=
  let digits := Nat.toDigits 8 n
  List.replicate (3 - digits.length) '0' ++ digits

/-- What a character of a name asks for, and whether it needs quotes. -/
def nameByte (isFirst isOnly : Bool) (c : Char) : NameByte × Bool :=
  if c = '\x27' then (.quote, true)
  else if c < ' ' ∨ '\x7e' < c then
    match controlLetter? c with
    | some letter => (.escaped [letter], true)
    | none => (.escaped (octalDigits c.toNat), true)
  else if c = ' ' then (.common, true)
  else if c = '#' ∨ c = '~' then if isFirst then (.common, true) else (.special, false)
  else if c = '\x7b' ∨ c = '\x7d' then if isOnly then (.common, true) else (.special, false)
  else if "!\"$&()*;<=>?[\\^\x60|".toList.contains c then (.special, true)
  else (.common, false)

/-- What the characters of a name ask for. -/
def nameBytes (name : Bytes) : List (Char × NameByte × Bool) :=
  match name with
  | [] => []
  | c :: s => (c, nameByte true s.isEmpty c) :: s.map fun d => (d, nameByte false false d)

/-- The characters of a name between single quotes, and whether codes are being written at the end.
`done` is what has been written so far, last byte first, and `isCoding` tells whether codes are
being written there. -/
def quotedFrom : (isCoding : Bool) → (done : Bytes) → List (Char × NameByte × Bool) → Bytes × Bool
  | isCoding, done, [] => (done.reverse, isCoding)
  | isCoding, done, (c, kind, _) :: rest =>
    match kind with
    | .escaped code =>
      let opened := if isCoding then done else "'$'".toList ++ done
      quotedFrom true (code.reverse ++ '\\' :: opened) rest
    | .quote => quotedFrom false ("'\\''".toList.reverse ++ done) rest
    | .common | .special =>
      quotedFrom false (c :: if isCoding then "''".toList ++ done else done) rest

/-- A name in quotes. Double quotes are taken for a name of common characters and single quotes. In
other names with a single quote the start is written in the state that their end leads to. -/
def quotedName (name : Bytes) : Bytes :=
  let kinds := nameBytes name
  let hasQuote := kinds.any fun (_, kind, _) => kind == .quote
  let isCommon := kinds.all fun (_, kind, _) => kind == .common || kind == .quote
  if hasQuote && isCommon then '\x22' :: name ++ ['\x22']
  else
    let (body, isCoding) := quotedFrom false [] kinds
    let body := if hasQuote && isCoding then (quotedFrom true [] kinds).1 else body
    '\x27' :: body ++ ['\x27']

/-- A name, in quotes only where it needs them. A colon needs them if `marksColon` is set. -/
def shownName (marksColon : Bool) (name : Bytes) : Bytes :=
  let needsQuotes := (nameBytes name).any fun (c, _, needs) => needs || (marksColon && c == ':')
  if needsQuotes || name.isEmpty then quotedName name else name

/-- A text in single quotes, in which a backslash stands in front of quotes and of itself, and bytes
that cannot be printed are written as what follows a backslash. -/
def escapedText (text : Bytes) : Bytes :=
  '\x27' :: text.flatMap (fun c =>
    if c = '\x27' ∨ c = '\\' then ['\\', c]
    else
      match nameByte false false c with
      | (.escaped code, _) => '\\' :: code
      | _ => [c]) ++ ['\x27']

example : quotedName "it's".toList = "\"it's\"".toList := by decide +kernel

example : shownName true "a.ts".toList = "a.ts".toList := by decide +kernel

example : quotedName "a\nb".toList = "'a'$'\\n''b'".toList := by decide +kernel

example : escapedText "it's\n".toList = "'it\\'s\\n'".toList := by decide +kernel

end SuiteScope.Shell
