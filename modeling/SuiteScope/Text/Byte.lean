import SuiteScope.Text.Utf8

/-!
# Text byte by byte

`spread` turns bytes into characters, one below 256 for each byte, and `gather` turns them back. So
`bytewise` gives the bytes of a text as a list of characters, in which an ASCII character is itself,
and `readable` the text again.
-/

namespace SuiteScope.Text

/-- One character for each byte. -/
def spread (bytes : List UInt8) : List Char :=
  bytes.map fun b => Char.ofNat b.toNat

/-- The byte of each character. -/
def gather (cs : List Char) : List UInt8 :=
  cs.map fun c => UInt8.ofNat c.toNat

/-- The bytes of a text, one character each. -/
def bytewise (s : String) : List Char :=
  spread (encode s)

/-- The text whose bytes are given, with replacement characters for bytes that are not text. -/
def readable (cs : List Char) : String :=
  decodeLossy (gather cs)

example : bytewise "aé" = ['a', '\xc3', '\xa9'] := by decide +kernel

example : readable ['\xc3', '\xa9'] = "é" := by decide +kernel

end SuiteScope.Text
