import SuiteScope.Text.Blank
import SuiteScope.Text.Search

/-!
# Lines

A line ends before a newline character or at the end of the text. `lineValue?` reads what a line
says after a label : the text between the white space after the label and the white space at the
end of the line, which is never empty.
-/

namespace SuiteScope.Text

/-- Whether a place with this character before it starts a line. -/
def isLineStart (before : Option Char) : Bool :=
  before.all (· == '\n')

/-- The rest of the line. -/
def restOfLine (s : List Char) : List Char :=
  s.takeWhile (· != '\n')

/-- The text from the end of the line on. -/
def afterLine (s : List Char) : List Char :=
  s.dropWhile (· != '\n')

/-- A nonempty text without the white space at its end, except that one character is kept. -/
def lineBody (s : List Char) : List Char :=
  match dropRight isLineTail s with
  | [] => s.take 1
  | body => body

/-- What a line says after at least `least` spaces and tabs. If the line holds nothing but those,
the last of them is taken for the value, provided that enough are left before it. -/
def lineValue? (least : Nat) (line : List Char) : Option (List Char) :=
  let gap := line.takeWhile isGap
  match line.dropWhile isGap with
  | [] => if least < gap.length then gap.getLast?.map ([·]) else none
  | body => if least ≤ gap.length then some (lineBody body) else none

example : lineValue? 1 "  a b \r".toList = some "a b".toList ∧ lineValue? 1 " ".toList = none ∧
    lineValue? 0 " ".toList = some " ".toList := by decide +kernel

end SuiteScope.Text
