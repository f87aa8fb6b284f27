import SuiteScope.Shell.Binary

/-!
# Layouts of a format

A `Layout` is what stands in a format between a percent sign and the letter of a conversion : flags,
a least width, and a precision. `Layout.text`, `Layout.integer` and `Layout.real` lay out a text or
a number by it.
-/

namespace SuiteScope.Shell

/-- How a value is laid out. -/
structure Layout where
  /-- The value stands at the left of its width. -/
  left : Bool := false
  /-- Positive numbers get a plus sign. -/
  plus : Bool := false
  /-- Positive numbers get a blank. -/
  blank : Bool := false
  /-- The form that tells more : a base in front of the digits, a point behind them. -/
  full : Bool := false
  /-- Numbers are filled with zeros. -/
  zeros : Bool := false
  width : Nat := 0
  precision : Option Nat := none
  deriving DecidableEq, Repr

namespace Layout

/-- A text that is filled with blanks to its width. -/
def fill (l : Layout) (s : Bytes) : Bytes :=
  let blanks := List.replicate (l.width - s.length) ' '
  if l.left then s ++ blanks else blanks ++ s

/-- A text, of which the precision is the greatest length. -/
def text (l : Layout) (s : Bytes) : Bytes :=
  l.fill (match l.precision with
    | some n => s.take n
    | none => s)

/-- The sign of a number. -/
def sign (l : Layout) (isNegative : Bool) : Bytes :=
  if isNegative then ['-'] else if l.plus then ['+'] else if l.blank then [' '] else []

/-- A start and digits, filled to their width. -/
def number (l : Layout) (hasZeros : Bool) (start digits : Bytes) : Bytes :=
  if hasZeros && l.zeros && !l.left then
    start ++ List.replicate (l.width - start.length - digits.length) '0' ++ digits
  else l.fill (start ++ digits)

/-- The digits of a whole number, as many as the precision at least. -/
def digits (l : Layout) (base n : Nat) : Bytes :=
  let shown := if n = 0 ∧ l.precision = some 0 then [] else Nat.toDigits base n
  Binary.zeroed (l.precision.getD 1) shown

/-- A whole number in base ten. -/
def signed (l : Layout) (n : Int) : Bytes :=
  l.number l.precision.isNone (l.sign (n < 0)) (l.digits 10 n.natAbs)

/-- A whole number without a sign, in the base of the letter `kind`. -/
def unsigned (l : Layout) (kind : Char) (n : Nat) : Bytes :=
  match kind with
  | 'o' =>
    let digits := l.digits 8 n
    l.number l.precision.isNone []
      (if l.full && digits.head? != some '0' then '0' :: digits else digits)
  | 'x' => l.number l.precision.isNone (if l.full && n != 0 then ['0', 'x'] else []) (l.digits 16 n)
  | 'X' =>
    l.number l.precision.isNone (if l.full && n != 0 then ['0', 'X'] else [])
      ((l.digits 16 n).map Char.toUpper)
  | _ => l.number l.precision.isNone [] (l.digits 10 n)

/-- A binary number, in the way of the letter `kind`. -/
def real (l : Layout) (size : BinarySize) (kind : Char) (x : Binary) : Bytes :=
  let (isNegative, digits, isFinite) := match x with
    | .finite isNegative m e =>
      let places := l.precision.getD 6
      let shown := match kind.toLower with
        | 'e' => Binary.scientific places l.full m e
        | 'g' => Binary.general places l.full m e
        | 'a' => Binary.hexadecimal size l.precision l.full m e
        | _ => Binary.fixed places l.full m e
      (isNegative, shown, true)
    | .infinite isNegative => (isNegative, "inf".toList, false)
    | .notANumber isNegative => (isNegative, "nan".toList, false)
  let digits := if kind.isUpper then digits.map Char.toUpper else digits
  match digits with
  | '0' :: x :: rest =>
    if x = 'x' ∨ x = 'X' then l.number true (l.sign isNegative ++ ['0', x]) rest
    else l.number isFinite (l.sign isNegative) digits
  | digits => l.number isFinite (l.sign isNegative) digits

example : ({ zeros := true, width := 5 } : Layout).signed (-42) = "-0042".toList := by
  decide +kernel

end Layout

end SuiteScope.Shell
