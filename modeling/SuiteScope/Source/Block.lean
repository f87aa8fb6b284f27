import SuiteScope.Source.Skip

/-!
# Blocks

A block of a source runs from an opening delimiter to its counterpart. `matchingClose?` counts the
two delimiters in code alone, so those in strings and comments never match. `blockOpen?` is the
first opening brace in code.
-/

namespace SuiteScope.Source

open SuiteScope.Text

/-- The counterpart of an opening delimiter. -/
def closing? : Char → Option Char
  | '{' => some '}'
  | '(' => some ')'
  | '[' => some ']'
  | _ => none

/-- The byte offset where the delimiter `close` brings `depth` back to zero in code. The text `s`
starts at byte offset `pos` in mode `m`. -/
def balance (opening close : Char) :
    (m : Mode) → (depth pos : Nat) → (s : List Char) → Option Nat
  | _, _, _, [] => none
  | m, depth, pos, c :: s =>
    let go := fun depth => balance opening close (m.after c s.head?) depth (pos + c.utf8Size) s
    if m.skips c s.head? then go depth
    else if c = opening then go (depth + 1)
    else if c = close then if depth = 1 then some pos else go (depth - 1)
    else go depth

/-- The byte offset of the delimiter that closes the block opened at byte offset `pos`. -/
def matchingClose? (s : List Char) (pos : Nat) : Option Nat :=
  match suffix? s pos with
  | some (opening :: rest) =>
    (closing? opening).bind fun close => balance opening close .code 0 pos (opening :: rest)
  | _ => none

/-- The byte offset of the first opening brace in code. The text `s` starts at byte offset `pos` in
mode `m`. -/
def firstBrace? : (m : Mode) → (pos : Nat) → (s : List Char) → Option Nat
  | _, _, [] => none
  | m, pos, c :: s =>
    if c = '{' ∧ m.skips c s.head? = false then some pos
    else firstBrace? (m.after c s.head?) (pos + c.utf8Size) s

/-- The byte offset of the first opening brace in code at or after byte offset `pos`, for a reading
that starts there. -/
def blockOpen? (s : List Char) (pos : Nat) : Option Nat :=
  let rest := dropBytes pos s
  firstBrace? .code (byteSize s - byteSize rest) rest

end SuiteScope.Source
