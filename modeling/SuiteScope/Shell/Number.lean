import SuiteScope.Shell.Syntax

/-!
# Numbers in scripts

`readInteger` reads the number at the start of a text : blanks, a sign, and digits. A number that
does not fit into 64 bits becomes the nearest one that does. `wrap` brings the result of a sum back
into 64 bits.
-/

namespace SuiteScope.Shell

/-- White space. -/
def isBlankByte (c : Char) : Bool :=
  c == ' ' || ('\t' ≤ c && c ≤ '\r')

/-- The value of a digit, of which the letters stand for those above nine. -/
def digitValue? (base : Nat) (c : Char) : Option Nat :=
  let value :=
    if c.isDigit then c.toNat - '0'.toNat
    else if c.isLower then c.toNat - 'a'.toNat + 10
    else if c.isUpper then c.toNat - 'A'.toNat + 10
    else base
  if value < base then some value else none

/-- The value of the digits at the start of a text, and what follows them. -/
def digitRun (base : Nat) : (value : Nat) → Bytes → Nat × Bytes
  | value, [] => (value, [])
  | value, c :: s =>
    match digitValue? base c with
    | some d => digitRun base (base * value + d) s
    | none => (value, c :: s)

/-- The value of at most `n` digits at the start of a text, and what follows them. -/
def digitRunUpTo (base : Nat) : (n value : Nat) → Bytes → Nat × Bytes
  | 0, value, s => (value, s)
  | _, value, [] => (value, [])
  | n + 1, value, c :: s =>
    match digitValue? base c with
    | some d => digitRunUpTo base n (base * value + d) s
    | none => (value, c :: s)

/-- The least number of 64 bits with a sign. -/
def leastInteger : Int := -9223372036854775808

/-- The greatest number of 64 bits with a sign. -/
def greatestInteger : Int := 9223372036854775807

/-- The number of texts of 64 bits. -/
def wordCount : Int := 18446744073709551616

/-- The number of 64 bits that a result wraps around to. -/
def wrap (n : Int) : Int :=
  (n - leastInteger) % wordCount + leastInteger

/-- What is read of a number. -/
structure Numeral where
  value : Int
  /-- Whether the number written has 64 bits. -/
  fits : Bool := true
  /-- What follows the number. -/
  rest : Bytes
  deriving DecidableEq, Repr

/-- The base that the start of a number tells, and the digits : a zero for base eight, with an `x`
for base sixteen. -/
def basePrefix : Bytes → Nat × Bytes
  | '0' :: x :: d :: s =>
    if (x == 'x' || x == 'X') && (digitValue? 16 d).isSome then (16, d :: s)
    else (8, '0' :: x :: d :: s)
  | '0' :: s => (8, '0' :: s)
  | s => (10, s)

/-- The sign in front of a number, and what follows it. -/
def signPrefix : Bytes → Bool × Bytes
  | '-' :: s => (true, s)
  | '+' :: s => (false, s)
  | s => (false, s)

/-- The number at the start of a text between two bounds, in base ten, or in the base that it shows
by its start. Nothing is read where no digit is found. -/
def readIntegerIn (low high : Int) (showsBase : Bool) (s : Bytes) : Option Numeral :=
  let (isNegative, digits) := signPrefix (s.dropWhile isBlankByte)
  let (base, digits) := if showsBase then basePrefix digits else (10, digits)
  if digits.head?.any fun c => (digitValue? base c).isSome then
    let (n, rest) := digitRun base 0 digits
    let value : Int := if isNegative then -n else n
    if value < low then some ⟨low, false, rest⟩
    else if high < value then some ⟨high, false, rest⟩
    else some ⟨value, true, rest⟩
  else none

/-- The number of 64 bits at the start of a text. -/
def readInteger (showsBase : Bool) (s : Bytes) : Option Numeral :=
  readIntegerIn leastInteger greatestInteger showsBase s

/-- The number that a text is as a whole, up to blanks. -/
def wholeInteger? (showsBase : Bool) (s : Bytes) : Option Int :=
  (readInteger showsBase s).bind fun n =>
    if n.fits && n.rest.all isBlankByte then some n.value else none

/-- The greatest number that a command takes as a count. -/
def greatestCount : Int := 2147483647

/-- The count that a text is as a whole. -/
def count? (s : Bytes) : Option Nat :=
  (wholeInteger? false s).bind fun n => if 0 ≤ n && n ≤ greatestCount then some n.toNat else none

/-- The text of a number. -/
def decimal (n : Int) : Bytes :=
  (toString n).toList

example : readInteger true "0x1fz".toList = some ⟨31, true, ['z']⟩ := by decide +kernel

example : readInteger true "08".toList = some ⟨0, true, ['8']⟩ := by decide +kernel

example : wrap 9223372036854775808 = leastInteger := by decide +kernel

end SuiteScope.Shell
