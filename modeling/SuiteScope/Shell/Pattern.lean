import SuiteScope.Shell.Syntax

/-!
# Patterns

In the text of a pattern a star stands for any text, a question mark for any byte and brackets for
one of several bytes, and a backslash takes the special meaning from what follows it. `compile`
reads the text, and `rests` lists what may be left of a text when a pattern has matched its start.
-/

namespace SuiteScope.Shell.Pattern

/-- Bytes of the same kind, by the name that a pattern has for them. -/
def classes : List (String × (Char → Bool)) :=
  let isGraph := fun c : Char => '!' ≤ c && c ≤ '~'
  [("alnum", Char.isAlphanum), ("alpha", Char.isAlpha), ("blank", fun c => c == ' ' || c == '\t'),
    ("cntrl", fun c => c < ' ' || c == '\x7f'), ("digit", Char.isDigit), ("graph", isGraph),
    ("lower", Char.isLower), ("print", fun c => ' ' ≤ c && c ≤ '~'),
    ("punct", fun c => isGraph c && !c.isAlphanum),
    ("space", fun c => c == ' ' || ('\t' ≤ c && c ≤ '\r')), ("upper", Char.isUpper),
    ("xdigit", fun c => c.isDigit || ('a' ≤ c && c ≤ 'f') || ('A' ≤ c && c ≤ 'F'))]

/-- Some of the bytes that brackets stand for. -/
inductive Member
  | range (low high : Char)
  | kind (isMember : Char → Bool)

/-- Whether a byte is among those of a member. -/
def Member.contains (c : Char) : Member → Bool
  | .range low high => low ≤ c && c ≤ high
  | .kind isMember => isMember c

/-- A part of a pattern. -/
inductive Element
  | star
  | any
  | char (c : Char)
  | oneOf (isNegated : Bool) (members : List Member)

/-- Whether a part that stands for one byte stands for this one. -/
def Element.accepts (c : Char) : Element → Bool
  | .star => false
  | .any => true
  | .char d => c == d
  | .oneOf isNegated members => members.any (·.contains c) != isNegated

/-- The kind of bytes that a text names by its start, and what follows it. -/
def kind? (s : Bytes) : Option ((Char → Bool) × Bytes) :=
  classes.findSome? fun (name, isMember) =>
    ((':' :: name.toList ++ [':', ']']).isPrefixOf? s).map (isMember, ·)

/-- A byte that may be written with a backslash, and what follows it. -/
def plain? : Bytes → Option (Char × Bytes)
  | [] => none
  | '\\' :: c :: s => some (c, s)
  | c :: s => some (c, s)

/-- The members in brackets up to the closing one, which is no member unless it comes first. -/
def members? : (fuel : Nat) → (isFirst : Bool) → Bytes → Option (List Member × Bytes)
  | 0, _, _ | _, _, [] => none
  | fuel + 1, isFirst, c :: s =>
    if c = ']' ∧ !isFirst then some ([], s)
    else
      match if c = '[' then kind? s else none with
      | some (isMember, s) => (members? fuel false s).map fun (l, s) => (.kind isMember :: l, s)
      | none => do
        let (low, s) ← plain? (c :: s)
        let (high, s) ←
          match s with
          | '-' :: d :: t => if d = ']' then some (low, s) else plain? (d :: t)
          | s => some (low, s)
        let (l, s) ← members? fuel false s
        some (.range low high :: l, s)

/-- The parts of a pattern. An opening bracket that is not closed stands for itself. -/
def compileFrom : (fuel : Nat) → Bytes → List Element
  | 0, _ | _, [] => []
  | fuel + 1, c :: s =>
    match c, s with
    | '*', s => .star :: compileFrom fuel s
    | '?', s => .any :: compileFrom fuel s
    | '\\', d :: s => .char d :: compileFrom fuel s
    | '[', s =>
      let isNegated := s.head? == some '!'
      match members? (s.length + 1) true (if isNegated then s.drop 1 else s) with
      | some (members, s) => .oneOf isNegated members :: compileFrom fuel s
      | none => .char '[' :: compileFrom fuel s
    | c, s => .char c :: compileFrom fuel s

/-- The parts of a pattern. -/
def compile (text : Bytes) : List Element :=
  compileFrom (text.length + 1) text

/-- A text, and it without its first byte, its first two bytes and so on. -/
def tails : Bytes → List Bytes
  | [] => [[]]
  | c :: s => (c :: s) :: tails s

/-- What may be left after one more part, where `found` is what may be left so far, longest text
first. -/
def advance (found : List Bytes) : Element → List Bytes
  | .star => (found.head?.map tails).getD []
  | e => found.filterMap fun
    | c :: s => if e.accepts c then some s else none
    | [] => none

/-- What may be left of a text when a pattern has matched its start, longest rest first. -/
def rests (pattern : List Element) (s : Bytes) : List Bytes :=
  pattern.foldl advance [s]

/-- Whether a pattern matches a text as a whole. -/
def isMatch (pattern : List Element) (s : Bytes) : Bool :=
  (rests pattern s).any (·.isEmpty)

/-- The first of the values in a text, between which there are zero bytes. -/
def firstValue (s : Bytes) : Bytes :=
  s.takeWhile (· != '\x00')

/-- A text without what a pattern matches at its start : the shortest such part, or the longest. Of
several values only the first one is matched. If the longest part is all of it, nothing is left of
the others either. -/
def trimStart (longest : Bool) (pattern : List Element) (s : Bytes) : Bytes :=
  let first := firstValue s
  let others := s.drop first.length
  if longest && !others.isEmpty && isMatch pattern first then []
  else
    let found := rests pattern first
    (if longest then found.getLast? else found.head?).getD first ++ others

/-- A text without what a pattern matches at its end : the shortest such part, or the longest. Of
several values the last one with a match is cut for the shortest part, and only the first one is
matched for the longest. The values behind it are left out. -/
def trimEnd (longest : Bool) (pattern : List Element) (s : Bytes) : Bytes :=
  let starts := if longest then (tails s).take ((firstValue s).length + 1) else tails s
  let ends := starts.filter fun tail => isMatch pattern (firstValue tail)
  match if longest then ends.head? else ends.getLast? with
  | some tail => s.take (s.length - tail.length)
  | none => s

example : isMatch (compile "*.[ch]".toList) "a.b.c".toList = true := by decide +kernel

example : trimEnd true (compile ".*".toList) "a.b.c".toList = ['a'] := by decide +kernel

example : trimEnd false (compile ['r']) "q r\x00s".toList = "q ".toList := by
  decide +kernel

example : isMatch (compile "[!]a]\\*".toList) "x*".toList = true := by decide +kernel

end SuiteScope.Shell.Pattern
