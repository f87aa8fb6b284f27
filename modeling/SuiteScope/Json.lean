/-!
# JSON text

`Json.pretty` writes a value with one member or element per line, indented by two spaces a level.
Members keep their order.
-/

namespace SuiteScope

/-- A JSON value. -/
inductive Json
  | number (n : Int)
  | boolean (b : Bool)
  | string (s : String)
  | array (elements : List Json)
  | object (members : List (String × Json))

namespace Json

/-- A digit of a hexadecimal numeral. -/
def hexDigit (n : Nat) : Char :=
  if n < 10 then Char.ofNat ('0'.toNat + n) else Char.ofNat ('a'.toNat + (n - 10))

/-- A character inside a string. -/
def escapeChar (c : Char) : List Char :=
  if c = '\x22' then ['\\', '\x22']
  else if c = '\\' then ['\\', '\\']
  else if c = '\x08' then ['\\', 'b']
  else if c = '\x0c' then ['\\', 'f']
  else if c = '\n' then ['\\', 'n']
  else if c = '\r' then ['\\', 'r']
  else if c = '\t' then ['\\', 't']
  else if c.toNat < 0x20 then
    ['\\', 'u', '0', '0', hexDigit (c.toNat / 16), hexDigit (c.toNat % 16)]
  else [c]

/-- A string in quotes. -/
def quote (s : String) : String :=
  String.ofList ('\x22' :: s.toList.flatMap escapeChar ++ ['\x22'])

/-- A line end and the indentation of a level. -/
def newline (level : Nat) : String :=
  String.ofList ('\n' :: List.replicate (2 * level) ' ')

/-- Texts between two brackets, each on a line of its own. -/
def bracket (opening closing : String) (level : Nat) : List String → String
  | [] => opening ++ closing
  | items =>
    opening ++ newline (level + 1) ++ ("," ++ newline (level + 1)).intercalate items ++
      newline level ++ closing

mutual

/-- The text of a value at a level. -/
def prettyAt (level : Nat) : Json → String
  | .number n => toString n
  | .boolean b => toString b
  | .string s => quote s
  | .array elements => bracket "[" "]" level (prettyElements (level + 1) elements)
  | .object members => bracket "\x7b" "\x7d" level (prettyMembers (level + 1) members)

/-- The texts of the elements of an array. -/
def prettyElements (level : Nat) : List Json → List String
  | [] => []
  | element :: elements => prettyAt level element :: prettyElements level elements

/-- The texts of the members of an object. -/
def prettyMembers (level : Nat) : List (String × Json) → List String
  | [] => []
  | member :: members => prettyMember level member :: prettyMembers level members

/-- The text of a member of an object. -/
def prettyMember (level : Nat) : String × Json → String
  | (name, value) => quote name ++ ": " ++ prettyAt level value

end

/-- The text of a value. -/
def pretty (j : Json) : String :=
  prettyAt 0 j

end Json

end SuiteScope
