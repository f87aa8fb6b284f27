import SuiteScope.Text.Digit
import SuiteScope.Toml.Value

/-!
# Keys, strings, numbers and times of a TOML document

Each reader takes what it reads from the front of a text, and answers the value with the rest. What
may follow a value is for the caller to say.
-/

namespace SuiteScope.Toml

/-! ## Characters -/

/-- White space within a line. -/
def isSpace (c : Char) : Bool :=
  c == ' ' || c == '\t'

/-- The characters that a comment or a string may hold as they are. -/
def isPlain (c : Char) : Bool :=
  c == '\t' || (0x20 ≤ c.toNat && c.toNat != 0x7f)

/-- What follows a line end. -/
def afterNewline? : List Char → Option (List Char)
  | '\n' :: s => some s
  | '\r' :: '\n' :: s => some s
  | _ => none

/-- What follows a comment, up to the end of its line. -/
def afterComment (s : List Char) : List Char :=
  match s with
  | '#' :: s => s.dropWhile isPlain
  | _ => s

/-! ## Strings -/

/-- The value of a hexadecimal digit. -/
def hexDigit? (c : Char) : Option Nat :=
  if c.isDigit then some (c.toNat - '0'.toNat)
  else if 'a' ≤ c ∧ c ≤ 'f' then some (c.toNat - 'a'.toNat + 10)
  else if 'A' ≤ c ∧ c ≤ 'F' then some (c.toNat - 'A'.toNat + 10)
  else none

/-- The character of a code point in hexadecimal. Half of a surrogate pair is none. -/
def hexChar? (digits : List Char) : Option Char :=
  (digits.mapM hexDigit?).bind fun ds =>
    let n := ds.foldl (fun n d => 16 * n + d) 0
    if n.isValidChar then some (Char.ofNat n) else none

/-- The character that a letter after a backslash stands for. -/
def escapedChar? : Char → Option Char
  | 'b' => some '\x08'
  | 't' => some '\t'
  | 'n' => some '\n'
  | 'f' => some '\x0c'
  | 'r' => some '\r'
  | '\x22' => some '\x22'
  | '\\' => some '\\'
  | _ => none

/-- A character put in front of a string that has been read. -/
def prepend (c : Option Char) (read : Option (List Char × List Char)) :
    Option (List Char × List Char) :=
  c.bind fun c => read.map fun (s, rest) => (c :: s, rest)

/-- The rest of a string in double quotes on one line. -/
def basicFrom : List Char → Option (List Char × List Char)
  | [] => none
  | '\x22' :: s => some ([], s)
  | '\\' :: 'u' :: a :: b :: c :: d :: s => prepend (hexChar? [a, b, c, d]) (basicFrom s)
  | '\\' :: 'U' :: a :: b :: c :: d :: e :: f :: g :: h :: s =>
    prepend (hexChar? [a, b, c, d, e, f, g, h]) (basicFrom s)
  | '\\' :: c :: s => prepend (escapedChar? c) (basicFrom s)
  | c :: s => if isPlain c && c != '\\' then prepend (some c) (basicFrom s) else none

/-- The rest of a string in triple double quotes. While `skipping`, white space and line ends after
a backslash at the end of a line are left out. Up to two quotes may stand before the last three. -/
def longBasicFrom : (skipping : Bool) → List Char → Option (List Char × List Char)
  | _, [] => none
  | true, ' ' :: s | true, '\t' :: s | true, '\n' :: s | true, '\r' :: '\n' :: s =>
    longBasicFrom true s
  | _, '\x22' :: '\x22' :: '\x22' :: '\x22' :: '\x22' :: s => some (['\x22', '\x22'], s)
  | _, '\x22' :: '\x22' :: '\x22' :: '\x22' :: s => some (['\x22'], s)
  | _, '\x22' :: '\x22' :: '\x22' :: s => some ([], s)
  | _, '\\' :: 'u' :: a :: b :: c :: d :: s =>
    prepend (hexChar? [a, b, c, d]) (longBasicFrom false s)
  | _, '\\' :: 'U' :: a :: b :: c :: d :: e :: f :: g :: h :: s =>
    prepend (hexChar? [a, b, c, d, e, f, g, h]) (longBasicFrom false s)
  | _, '\\' :: c :: s =>
    if (afterNewline? ((c :: s).dropWhile isSpace)).isSome then longBasicFrom true (c :: s)
    else prepend (escapedChar? c) (longBasicFrom false s)
  | _, '\n' :: s | _, '\r' :: '\n' :: s => prepend (some '\n') (longBasicFrom false s)
  | _, c :: s => if isPlain c && c != '\\' then prepend (some c) (longBasicFrom false s) else none

/-- The rest of a string in single quotes on one line. -/
def literalFrom : List Char → Option (List Char × List Char)
  | [] => none
  | c :: s =>
    if c = '\x27' then some ([], s)
    else if isPlain c then prepend (some c) (literalFrom s)
    else none

/-- The rest of a string in triple single quotes. -/
def longLiteralFrom : List Char → Option (List Char × List Char)
  | [] => none
  | '\x27' :: '\x27' :: '\x27' :: '\x27' :: '\x27' :: s => some (['\x27', '\x27'], s)
  | '\x27' :: '\x27' :: '\x27' :: '\x27' :: s => some (['\x27'], s)
  | '\x27' :: '\x27' :: '\x27' :: s => some ([], s)
  | '\n' :: s | '\r' :: '\n' :: s => prepend (some '\n') (longLiteralFrom s)
  | c :: s => if isPlain c then prepend (some c) (longLiteralFrom s) else none

/-- The text without a line end at its start. -/
def dropNewline (s : List Char) : List Char :=
  (afterNewline? s).getD s

/-- A string in any of the four forms. -/
def string? : List Char → Option (List Char × List Char)
  | '\x22' :: '\x22' :: '\x22' :: s => longBasicFrom false (dropNewline s)
  | '\x22' :: s => basicFrom s
  | '\x27' :: '\x27' :: '\x27' :: s => longLiteralFrom (dropNewline s)
  | '\x27' :: s => literalFrom s
  | _ => none

/-! ## Keys -/

/-- What a key without quotes is made of. -/
def isBareKeyChar (c : Char) : Bool :=
  c.isAlphanum || c == '_' || c == '-'

/-- One part of a key. -/
def keyPart? : List Char → Option (String × List Char)
  | '\x22' :: s => (basicFrom s).map fun (key, rest) => (String.ofList key, rest)
  | '\x27' :: s => (literalFrom s).map fun (key, rest) => (String.ofList key, rest)
  | s =>
    match s.takeWhile isBareKeyChar with
    | [] => none
    | key => some (String.ofList key, s.dropWhile isBareKeyChar)

/-! ## Numbers -/

/-- The digits of a class, with single underscores allowed between two of them. -/
def digitsOf (isDigitChar : Char → Bool) : List Char → List Char × List Char
  | [] => ([], [])
  | c :: s =>
    if isDigitChar c then
      match s with
      | '_' :: d :: rest =>
        if isDigitChar d then
          let (ds, rest) := digitsOf isDigitChar (d :: rest)
          (c :: ds, rest)
        else ([c], s)
      | s =>
        let (ds, rest) := digitsOf isDigitChar s
        (c :: ds, rest)
    else ([], c :: s)

/-- A nonempty run of decimal digits, zeros at the start allowed. -/
def decimals? (s : List Char) : Option (List Char × List Char) :=
  match digitsOf Char.isDigit s with
  | ([], _) => none
  | found => some found

/-- Whether a number is negative, and what follows its sign. -/
def sign : List Char → Bool × List Char
  | '-' :: s => (true, s)
  | '+' :: s => (false, s)
  | s => (false, s)

/-- The digits of a decimal integer, which starts with zero only if it is zero. -/
def decimalDigits? (s : List Char) : Option (List Char × List Char) :=
  match s with
  | '0' :: rest => some (['0'], rest)
  | s => decimals? s

/-- Integers lie between the ends of the signed range of 64 bits. -/
def inRange (n : Int) : Bool :=
  -9223372036854775808 ≤ n && n ≤ 9223372036854775807

/-- An integer, if it is in range. -/
def integerOf? (n : Int) (rest : List Char) : Option (Value × List Char) :=
  if inRange n then some (.integer n, rest) else none

/-- An integer in a power-of-two base. -/
def based? (base : Nat) (s : List Char) : Option (Value × List Char) :=
  let isDigitChar := fun c => (hexDigit? c).any (· < base)
  match digitsOf isDigitChar s with
  | ([], _) => none
  | (ds, rest) => integerOf? (ds.foldl (fun n d => base * n + (hexDigit? d).getD 0) 0 : Nat) rest

/-- An integer. -/
def integer? : List Char → Option (Value × List Char)
  | '0' :: 'x' :: s => based? 16 s
  | '0' :: 'o' :: s => based? 8 s
  | '0' :: 'b' :: s => based? 2 s
  | s =>
    let (negative, s) := sign s
    (decimalDigits? s).bind fun (ds, rest) =>
      let n : Int := Text.digitsValue ds
      integerOf? (if negative then -n else n) rest

/-- The digits after the point, if there is one. -/
def fraction? : List Char → Option (Option (List Char) × List Char)
  | '.' :: s => (decimals? s).map fun (ds, rest) => (some ds, rest)
  | s => some (none, s)

/-- The exponent, if there is one. -/
def exponent? : List Char → Option (Option Int × List Char)
  | c :: s =>
    if c = 'e' ∨ c = 'E' then
      let (negative, s) := sign s
      (decimals? s).map fun (ds, rest) =>
        let n : Int := Text.digitsValue ds
        (some (if negative then -n else n), rest)
    else some (none, c :: s)
  | [] => some (none, [])

/-- The least magnitude that rounds to infinity in 64 bits. -/
def floatBound : Nat := Nat.pow 2 1024 - Nat.pow 2 970

/-- Whether `digits` times ten to the power `e` is finite in 64 bits. -/
def isFiniteFloat (digits : List Char) (e : Int) : Bool :=
  let significant := digits.dropWhile (· == '0')
  let magnitude : Int := significant.length + e
  if significant.isEmpty || magnitude < 300 then true
  else if 320 < magnitude then false
  else
    let n := Text.digitsValue significant
    if 0 ≤ e then n * Nat.pow 10 e.toNat < floatBound else n < floatBound * Nat.pow 10 (-e).toNat

/-- A number with a fraction, an exponent or both. A positive one has to be finite. -/
def decimalFloat? (s : List Char) : Option (Value × List Char) :=
  let (negative, unsigned) := sign s
  (decimalDigits? unsigned).bind fun (whole, rest) =>
  (fraction? rest).bind fun (fraction, rest) =>
  (exponent? rest).bind fun (exponent, rest) =>
    if fraction.isNone && exponent.isNone then none
    else
      let places := fraction.getD []
      let finite := isFiniteFloat (whole ++ places) (exponent.getD 0 - places.length)
      if negative || finite then
        some (.float (String.ofList (s.take (s.length - rest.length))), rest)
      else none

/-- Infinity or not a number. -/
def specialFloat? (s : List Char) : Option (Value × List Char) :=
  match (sign s).2 with
  | 'i' :: 'n' :: 'f' :: rest | 'n' :: 'a' :: 'n' :: rest =>
    some (.float (String.ofList (s.take (s.length - rest.length))), rest)
  | _ => none

/-! ## Dates and times -/

/-- A number of exactly `n` digits. -/
def fixed? (n : Nat) (s : List Char) : Option (Nat × List Char) :=
  let ds := s.take n
  if ds.length = n ∧ ds.all Char.isDigit then some (Text.digitsValue ds, s.drop n) else none

/-- A number of exactly two digits that is at most `most`. -/
def pair? (most : Nat) (s : List Char) : Option (Nat × List Char) :=
  (fixed? 2 s).filter fun (n, _) => n ≤ most

/-- A number with zeros in front, to `width` digits at least. -/
def padded (width n : Nat) : String :=
  let digits := toString n
  String.ofList (List.replicate (width - digits.length) '0') ++ digits

/-- The number of days of a month. -/
def daysIn (year month : Nat) : Nat :=
  if month = 2 then
    if (year % 4 = 0 ∧ year % 100 ≠ 0) ∨ year % 400 = 0 then 29 else 28
  else if month = 4 ∨ month = 6 ∨ month = 9 ∨ month = 11 then 30
  else 31

/-- A character that has to stand here. -/
def after? (c : Char) : List Char → Option (List Char)
  | d :: s => if d = c then some s else none
  | [] => none

/-- A date. -/
def date? (s : List Char) : Option (String × List Char) := do
  let (year, s) ← fixed? 4 s
  let s ← after? '-' s
  let (month, s) ← pair? 12 s
  let s ← after? '-' s
  let (day, s) ← pair? (daysIn year month) s
  if month = 0 ∨ day = 0 then none
  else some (s!"{padded 4 year}-{padded 2 month}-{padded 2 day}", s)

/-- The fraction of a second, cut after nine digits and without zeros at its end. -/
def secondFraction (s : List Char) : String × List Char :=
  match s with
  | '.' :: rest =>
    match rest.takeWhile Char.isDigit with
    | [] => ("", s)
    | ds =>
      match ((ds.take 9).reverse.dropWhile (· == '0')).reverse with
      | [] => ("", rest.dropWhile Char.isDigit)
      | shown => (String.ofList ('.' :: shown), rest.dropWhile Char.isDigit)
  | _ => ("", s)

/-- A time of day. -/
def time? (s : List Char) : Option (String × List Char) := do
  let (hour, s) ← pair? 23 s
  let s ← after? ':' s
  let (minute, s) ← pair? 59 s
  let s ← after? ':' s
  let (second, s) ← pair? 60 s
  let (fraction, s) := secondFraction s
  some (s!"{padded 2 hour}:{padded 2 minute}:{padded 2 second}{fraction}", s)

/-- The distance from universal time. -/
def offset? (s : List Char) : Option (String × List Char) :=
  match s with
  | [] => none
  | c :: rest =>
    if c = 'Z' ∨ c = 'z' then some ("Z", rest)
    else if c = '+' ∨ c = '-' then do
      let (hours, rest) ← pair? 23 rest
      let rest ← after? ':' rest
      let (minutes, rest) ← pair? 59 rest
      let shown := if c = '-' ∧ hours + minutes ≠ 0 then "-" else "+"
      some (s!"{shown}{padded 2 hours}:{padded 2 minutes}", rest)
    else none

/-- The time that may stand after a date, with its offset. -/
def timePart (s : List Char) : String × List Char :=
  match s with
  | [] => ("", [])
  | c :: rest =>
    if c = 'T' ∨ c = 't' ∨ c = ' ' then
      match time? rest with
      | some (time, rest) =>
        match offset? rest with
        | some (offset, rest) => ("T" ++ time ++ offset, rest)
        | none => ("T" ++ time, rest)
      | none => ("", s)
    else ("", s)

/-- A date, a time, or both. -/
def datetime? (s : List Char) : Option (Value × List Char) :=
  match date? s with
  | some (date, rest) =>
    let (time, rest) := timePart rest
    some (.datetime (date ++ time), rest)
  | none => (time? s).map fun (time, rest) => (.datetime time, rest)

/-- The normal form of a text that is a date, a time, or both. -/
def datetimeText? (s : List Char) : Option String :=
  match datetime? s with
  | some (.datetime text, []) => some text
  | _ => none

/-- A truth value. -/
def boolean? : List Char → Option (Value × List Char)
  | 't' :: 'r' :: 'u' :: 'e' :: s => some (.boolean true, s)
  | 'f' :: 'a' :: 'l' :: 's' :: 'e' :: s => some (.boolean false, s)
  | _ => none

/-- A value that is neither an array nor a table. -/
def scalar? (s : List Char) : Option (Value × List Char) :=
  ((string? s).map fun (text, rest) => (.string (String.ofList text), rest))
    |>.or (boolean? s)
    |>.or (datetime? s)
    |>.or (decimalFloat? s)
    |>.or (specialFloat? s)
    |>.or (integer? s)

end SuiteScope.Toml
