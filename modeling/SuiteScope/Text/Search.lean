import SuiteScope.Text.Offset

/-!
# Searching a text

A recognizer looks at one place of a text. It is told the character before that place and the
characters from it on, and either fails or answers a value together with the characters after the
part it took. `find?` gives the leftmost place where a recognizer succeeds, and `findAll` all such
places from left to right, each search starting where the part taken before it ends. Both count
places in bytes.
-/

namespace SuiteScope.Text

/-- A test at one place : the character before it, what follows it, and on success a value with
the rest of the text. -/
abbrev Recognizer (α : Type) := Option Char → List Char → Option (α × List Char)

/-- A place where a recognizer succeeded : the part it took, and its value. -/
structure Match (α : Type) where
  span : Span
  value : α
  deriving DecidableEq, Repr

/-- The match of `r` at one place, which is at byte offset `pos`. -/
def matchAt? {α : Type} (r : Recognizer α) (before : Option Char) (pos : Nat) (s : List Char) :
    Option (Match α) :=
  (r before s).map fun (a, rest) => ⟨⟨pos, pos + (byteSize s - byteSize rest)⟩, a⟩

/-- The leftmost match in `s`, which starts at byte offset `pos`. -/
def find? {α : Type} (r : Recognizer α) :
    (before : Option Char) → (pos : Nat) → List Char → Option (Match α)
  | before, pos, [] => matchAt? r before pos []
  | before, pos, c :: s =>
    match matchAt? r before pos (c :: s) with
    | some m => some m
    | none => find? r (some c) (pos + c.utf8Size) s

/-- The matches in `s` from left to right. The places before `resume` belong to the match before
them and are passed over. -/
def findFrom {α : Type} (r : Recognizer α) :
    (before : Option Char) → (pos resume : Nat) → List Char → List (Match α)
  | _, _, _, [] => []
  | before, pos, resume, c :: s =>
    if pos < resume then findFrom r (some c) (pos + c.utf8Size) resume s
    else
      match matchAt? r before pos (c :: s) with
      | some m => m :: findFrom r (some c) (pos + c.utf8Size) m.span.stop s
      | none => findFrom r (some c) (pos + c.utf8Size) resume s

/-- All matches in a whole text, none overlapping an earlier one. -/
def findAll {α : Type} (r : Recognizer α) (s : List Char) : List (Match α) :=
  findFrom r none 0 0 s

/-- The value of the leftmost match in a whole text. -/
def findValue? {α : Type} (r : Recognizer α) (s : List Char) : Option α :=
  (find? r none 0 s).map (·.value)

/-- The first of the given words that the text starts with, and what follows it. -/
def firstWord? : (words : List (List Char)) → List Char → Option (List Char × List Char)
  | [], _ => none
  | w :: ws, s =>
    match w.isPrefixOf? s with
    | some rest => some (w, rest)
    | none => firstWord? ws s

end SuiteScope.Text
