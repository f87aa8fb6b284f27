/-!
# White space

`isBlank` is the white space of Unicode. `trim` removes it from both ends of a text. Blocks of
spaces and tabs, which never leave a line, have their own test `isGap`.
-/

namespace SuiteScope.Text

/-- The white space characters beyond ASCII, as code points in increasing order. -/
def blankCodes : List Nat :=
  [0x85, 0xa0, 0x1680, 0x2000, 0x2001, 0x2002, 0x2003, 0x2004, 0x2005, 0x2006, 0x2007, 0x2008,
    0x2009, 0x200a, 0x2028, 0x2029, 0x202f, 0x205f, 0x3000]

/-- White space of any kind, line ends included. -/
def isBlank (c : Char) : Bool :=
  if c.toNat < 0x80 then c == ' ' || (0x09 ≤ c.toNat && c.toNat ≤ 0x0d)
  else blankCodes.contains c.toNat

/-- The white space that separates words of one line. -/
def isGap (c : Char) : Bool :=
  c == ' ' || c == '\t'

/-- What a line may carry after its last word. -/
def isLineTail (c : Char) : Bool :=
  c == ' ' || c == '\t' || c == '\r'

/-- The text without the characters of class `p` at its end. -/
def dropRight (p : Char → Bool) (s : List Char) : List Char :=
  (s.reverse.dropWhile p).reverse

/-- The text without white space at either end. -/
def trim (s : List Char) : List Char :=
  dropRight isBlank (s.dropWhile isBlank)

example : trim " \ta b\u3000\n".toList = "a b".toList := by decide +kernel

end SuiteScope.Text
