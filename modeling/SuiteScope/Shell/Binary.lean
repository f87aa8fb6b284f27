import SuiteScope.Shell.Number

/-!
# Real numbers in formats

A binary number of a fixed size is a whole number times a power of two. `Binary.read?` finds the one
that is nearest to a number written in a text, and the layouts write it out again with a given
number of digits : `fixed` with a fraction, `scientific` with an exponent, `general` with whichever
is shorter, and `hexadecimal` in base sixteen. All rounding is exact, and a half goes to the even
neighbour.
-/

namespace SuiteScope.Shell

/-- The size of binary numbers. -/
structure BinarySize where
  /-- The number of binary digits. -/
  digits : Nat
  /-- The least exponent. -/
  least : Int
  /-- The exponent that the leading digit stays below. -/
  limit : Int
  /-- The number of binary digits in front of the point, in base sixteen. -/
  leading : Nat
  deriving DecidableEq, Repr

/-- Binary numbers of 64 bits. -/
def BinarySize.double : BinarySize := ⟨53, -1074, 1024, 1⟩

/-- Binary numbers of 80 bits. -/
def BinarySize.extended : BinarySize := ⟨64, -16445, 16384, 4⟩

/-- A binary number : a sign and a magnitude. -/
inductive Binary
  /-- The number `m` times two to the power of `e`. -/
  | finite (isNegative : Bool) (m : Nat) (e : Int)
  | infinite (isNegative : Bool)
  | notANumber (isNegative : Bool)
  deriving DecidableEq, Repr

namespace Binary

/-- A quotient rounded to a whole number. A half goes to the even neighbour. -/
def divideToEven (n d : Nat) : Nat :=
  let q := n / d
  let r := n % d
  if 2 * r < d ∨ (2 * r = d ∧ q % 2 = 0) then q else q + 1

/-- The number of binary digits of a number. -/
def bitCount (n : Nat) : Nat :=
  if n = 0 then 0 else Nat.log2 n + 1

/-- A power of two as a fraction. -/
def powerOfTwo (e : Int) : Nat × Nat :=
  if 0 ≤ e then (Nat.pow 2 e.toNat, 1) else (1, Nat.pow 2 (-e).toNat)

/-- The number nearest to a fraction, and whether it is one of the finite numbers. -/
def ofFraction (size : BinarySize) (isNegative : Bool) (n d : Nat) : Binary × Bool :=
  if n = 0 then (.finite isNegative 0 0, true)
  else
    let scaled := fun (e : Int) =>
      let (a, b) := powerOfTwo (-e)
      divideToEven (n * a) (d * b)
    let guess : Int := (bitCount n : Int) - bitCount d - size.digits
    let e := max guess size.least
    let e := if size.digits < bitCount (scaled e) then e + 1 else e
    let m := scaled e
    let (m, e) := if size.digits < bitCount m then (m / 2, e + 1) else (m, e)
    if size.limit < bitCount m + e then (.infinite isNegative, false)
    else (.finite isNegative m e, !(m = 0))

/-- The exponent behind a letter, and what follows it. There is none without a digit. -/
def exponent (letters : Bytes) (s : Bytes) : Int × Bytes :=
  match s with
  | c :: rest =>
    let (isNegative, digits) := signPrefix rest
    if letters.contains c && digits.head?.any Char.isDigit then
      let (n, after) := digitRun 10 0 digits
      (if isNegative then -(n : Int) else n, after)
    else (0, s)
  | [] => (0, s)

/-- An exponent that is so large that nothing changes beyond it. -/
def exponentBound : Int := 40000

/-- The number written by digits in a base, of which `places` stand behind the point, times a power
of another base. -/
def scaled (size : BinarySize) (isNegative : Bool) (digits base places scale : Nat) (e : Int) :
    Binary × Bool :=
  let e := max (-exponentBound) (min exponentBound e)
  let d := Nat.pow base places
  if 0 ≤ e then ofFraction size isNegative (digits * Nat.pow scale e.toNat) d
  else ofFraction size isNegative digits (d * Nat.pow scale (-e).toNat)

/-- A text in small letters. -/
def lowered (s : Bytes) : Bytes :=
  s.map Char.toLower

/-- What is read of a real number. -/
structure Scanned where
  value : Binary
  /-- Whether the number written is one of the finite numbers, up to rounding. -/
  fits : Bool
  rest : Bytes

/-- The digits in a base at the start of a text, with a point among them : their value, how many
there are, how many stand behind the point, and what follows. -/
def pointedDigits (base : Nat) (s : Bytes) : Nat × Nat × Nat × Bytes :=
  let (whole, rest) := digitRun base 0 s
  let count := s.length - rest.length
  match rest with
  | '.' :: after =>
    let (all, rest) := digitRun base whole after
    let places := after.length - rest.length
    (all, count + places, places, if count + places = 0 then s else rest)
  | rest => (whole, count, 0, rest)

/-- A number without its sign. -/
def readMagnitude? (size : BinarySize) (isNegative : Bool) (s : Bytes) : Option Scanned :=
  let low := lowered s
  if "infinity".toList.isPrefixOf low then some ⟨.infinite isNegative, true, s.drop 8⟩
  else if "inf".toList.isPrefixOf low then some ⟨.infinite isNegative, true, s.drop 3⟩
  else if "nan".toList.isPrefixOf low then some ⟨.notANumber isNegative, true, s.drop 3⟩
  else
    let isHexadecimal := "0x".toList.isPrefixOf low && (pointedDigits 16 (s.drop 2)).2.1 != 0
    if isHexadecimal then
      let (digits, _, places, rest) := pointedDigits 16 (s.drop 2)
      let (e, rest) := exponent ['p', 'P'] rest
      let (value, fits) := scaled size isNegative digits 16 places 2 e
      some ⟨value, fits || digits == 0, rest⟩
    else
      let (digits, count, places, rest) := pointedDigits 10 s
      if count = 0 then none
      else
        let (e, rest) := exponent ['e', 'E'] rest
        let (value, fits) := scaled size isNegative digits 10 places 10 e
        some ⟨value, fits || digits == 0, rest⟩

/-- The number at the start of a text. -/
def read? (size : BinarySize) (s : Bytes) : Option Scanned :=
  let (isNegative, digits) := signPrefix (s.dropWhile isBlankByte)
  readMagnitude? size isNegative digits

/-! ## Layouts -/

/-- A number as a fraction. -/
def fraction (m : Nat) (e : Int) : Nat × Nat :=
  let (a, b) := powerOfTwo e
  (m * a, b)

/-- Digits with zeros in front, `width` at least. -/
def zeroed (width : Nat) (digits : Bytes) : Bytes :=
  List.replicate (width - digits.length) '0' ++ digits

/-- Digits with a point in front of the last `places`. The point stands alone only if asked for. -/
def pointed (places : Nat) (keepsPoint : Bool) (digits : Bytes) : Bytes :=
  let digits := zeroed (places + 1) digits
  let whole := digits.take (digits.length - places)
  if places = 0 then if keepsPoint then whole ++ ['.'] else whole
  else whole ++ '.' :: digits.drop (digits.length - places)

/-- The digits of a number. -/
def digitsOf (n : Nat) : Bytes :=
  (toString n).toList

/-- The layout with a fraction of `places` digits. -/
def fixed (places : Nat) (keepsPoint : Bool) (m : Nat) (e : Int) : Bytes :=
  let (n, d) := fraction m e
  pointed places keepsPoint (digitsOf (divideToEven (n * Nat.pow 10 places) d))

/-- The fraction `n / d` as `count` digits and a power of ten, or one more than that if rounding
made it so. -/
def decimalDigits (count : Nat) (power : Int) (n d : Nat) : Nat :=
  let shift : Int := count - 1 - power
  if 0 ≤ shift then divideToEven (n * Nat.pow 10 shift.toNat) d
  else divideToEven n (d * Nat.pow 10 (-shift).toNat)

/-- The power of ten of the leading digit of a fraction, before rounding. -/
def leadingPower (n d : Nat) : Int :=
  let guess : Int := (digitsOf n).length - (digitsOf d).length
  let isBelow :=
    if 0 ≤ guess then decide (n < d * Nat.pow 10 guess.toNat)
    else decide (n * Nat.pow 10 (-guess).toNat < d)
  if isBelow then guess - 1 else guess

/-- The first `count` digits of a number, and the power of ten of the leading one. -/
def leadingDigits (count m : Nat) (e : Int) : Bytes × Int :=
  if m = 0 then (List.replicate count '0', 0)
  else
    let (n, d) := fraction m e
    let power := leadingPower n d
    let digits := digitsOf (decimalDigits count power n d)
    if count < digits.length then (digits.take count, power + 1) else (digits, power)

/-- An exponent of two digits at least. -/
def exponentText (e : Int) : Bytes :=
  'e' :: (if e < 0 then '-' else '+') :: zeroed 2 (digitsOf e.natAbs)

/-- The layout with an exponent and `places` digits behind the point. -/
def scientific (places : Nat) (keepsPoint : Bool) (m : Nat) (e : Int) : Bytes :=
  let (digits, power) := leadingDigits (places + 1) m e
  pointed places keepsPoint digits ++ exponentText power

/-- Digits without zeros at the end of their fraction. -/
def withoutZeros (s : Bytes) : Bytes :=
  if s.contains '.' then ((s.reverse.dropWhile (· == '0')).dropWhile (· == '.')).reverse else s

/-- The layout with `count` digits that needs no exponent for numbers of a common size. -/
def general (count : Nat) (keepsZeros : Bool) (m : Nat) (e : Int) : Bytes :=
  let count := max count 1
  let (digits, power) := leadingDigits count m e
  let trim := if keepsZeros then id else withoutZeros
  if -4 ≤ power ∧ power < count then trim (fixed (count - 1 - power).toNat keepsZeros m e)
  else trim (pointed (count - 1) keepsZeros digits) ++ exponentText power

/-- The layout in base sixteen. -/
def hexadecimal (size : BinarySize) (places : Option Nat) (keepsPoint : Bool) (m : Nat) (e : Int) :
    Bytes :=
  let bits := if size.leading = 1 then size.digits - 1 else size.digits - size.leading
  let normal := if m = 0 then 0 else m * Nat.pow 2 (size.digits - bitCount m)
  let power : Int := if m = 0 then 0 else e - (size.digits - bitCount m : Nat) + bits
  let whole := (bits + 3) / 4
  let all := normal * Nat.pow 2 (4 * whole - bits)
  let shown :=
    match places with
    | some p => if p < whole then divideToEven all (Nat.pow 16 (whole - p)) else
        all * Nat.pow 16 (p - whole)
    | none => all
  let isCarried := Nat.pow 16 (places.getD whole + 1) ≤ shown
  let (shown, power) := if isCarried then (shown / 16, power + 4) else (shown, power)
  let text := pointed (places.getD whole) keepsPoint (Nat.toDigits 16 shown)
  let text := if places.isNone then withoutZeros text else text
  let text := if keepsPoint && !text.contains '.' then text ++ ['.'] else text
  "0x".toList ++ text ++ 'p' :: (if power < 0 then '-' else '+') :: digitsOf power.natAbs

example : ((read? .double "0.1".toList).map (·.value)) =
    some (.finite false 7205759403792794 (-56)) := by decide +kernel

end Binary

end SuiteScope.Shell
