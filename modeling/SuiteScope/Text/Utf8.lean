/-!
# Text from bytes

Bytes are read as UTF-8. `decode?` gives the text when every byte belongs to a well-formed
character. `decodeLossy` always gives a text, in which a replacement character stands for each
longest run of bytes that starts a character without completing it, and for each byte that starts
none.
-/

namespace SuiteScope.Text

/-- How a character starts : the number of bytes that follow, the payload of the first byte, and
the bounds of the second. -/
structure LeadByte where
  more : Nat
  payload : Nat
  low : Nat
  high : Nat

/-- What the first byte of a character of several bytes tells. -/
def LeadByte.ofNat? (b : Nat) : Option LeadByte :=
  if 0xc2 ≤ b ∧ b ≤ 0xdf then some ⟨1, b - 0xc0, 0x80, 0xbf⟩
  else if b = 0xe0 then some ⟨2, 0, 0xa0, 0xbf⟩
  else if b = 0xed then some ⟨2, b - 0xe0, 0x80, 0x9f⟩
  else if 0xe1 ≤ b ∧ b ≤ 0xef then some ⟨2, b - 0xe0, 0x80, 0xbf⟩
  else if b = 0xf0 then some ⟨3, 0, 0x90, 0xbf⟩
  else if 0xf1 ≤ b ∧ b ≤ 0xf3 then some ⟨3, b - 0xf0, 0x80, 0xbf⟩
  else if b = 0xf4 then some ⟨3, b - 0xf0, 0x80, 0x8f⟩
  else none

/-- The characters of a list of bytes, with `none` for each run that is not well formed. `open?` is
the character being read : how many bytes it still needs, its value so far, and the bounds of its
next byte. -/
def decodeFrom : (open? : Option LeadByte) → List UInt8 → List (Option Char)
  | none, [] => []
  | some _, [] => [none]
  | open?, byte :: bytes =>
    let b := byte.toNat
    match open?.filter fun part => part.low ≤ b && b ≤ part.high with
    | some part =>
      let value := part.payload * 64 + (b - 0x80)
      if part.more ≤ 1 then some (Char.ofNat value) :: decodeFrom none bytes
      else decodeFrom (some ⟨part.more - 1, value, 0x80, 0xbf⟩) bytes
    | none =>
      let broken := if open?.isSome then [none] else []
      if b < 0x80 then broken ++ some (Char.ofNat b) :: decodeFrom none bytes
      else
        match LeadByte.ofNat? b with
        | some part => broken ++ decodeFrom (some part) bytes
        | none => broken ++ none :: decodeFrom none bytes

/-- The text of well-formed bytes. -/
def decode? (bytes : List UInt8) : Option String :=
  ((decodeFrom none bytes).mapM id).map String.ofList

/-- The text of any bytes, with replacement characters for what is not well formed. -/
def decodeLossy (bytes : List UInt8) : String :=
  String.ofList ((decodeFrom none bytes).map (·.getD '\ufffd'))

/-- The bytes of a text. -/
def encode (s : String) : List UInt8 :=
  s.toList.flatMap String.utf8EncodeChar

example :
    decodeLossy [0x61, 0xe2, 0x82, 0x78, 0xed, 0xa0, 0x80] = "a\ufffdx\ufffd\ufffd\ufffd" := by
  decide +kernel

example : decode? [0xc3, 0xa9] = some "é" ∧ decode? [0xc3, 0x28] = none := by decide +kernel

end SuiteScope.Text
