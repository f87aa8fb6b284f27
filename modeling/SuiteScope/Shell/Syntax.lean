/-!
# Shell commands

A script is a list of commands, and a command is made of words. A word is a list of pieces : plain
characters, and things that are replaced when the command is carried out, namely parameters, sums
and commands whose output is wanted. All text is a list of bytes, kept as characters below 256.

The text below a redirection that starts with `<<` comes after the command, so the command holds
only the number of that text.
-/

namespace SuiteScope.Shell

/-- Text as a shell sees it : one character for each byte. -/
abbrev Bytes := List Char

/-- What is done when a parameter has no value. -/
inductive Fallback
  /-- The word is taken instead. -/
  | instead
  /-- The word is taken instead, and becomes the value. -/
  | assigned
  /-- The word is the complaint that ends the shell. -/
  | complaint
  /-- The word is taken when there is a value. -/
  | opposite
  deriving DecidableEq, Repr

/-- How the value of a parameter is used, apart from the word that is given with it. -/
inductive Head
  | plain
  /-- As `plain`, for a parameter that is not empty. The word comes after the value, and nothing
  comes after the word. -/
  | followed
  /-- The number of its bytes. -/
  | size
  /-- No such use. -/
  | malformed
  /-- With a word for a parameter that has no value, or also for one that is empty. -/
  | fallback (kind : Fallback) (orEmpty : Bool)
  /-- Without what a pattern matches at one end, the shortest or the longest such part. -/
  | trim (atEnd longest : Bool)
  deriving DecidableEq, Repr

/-- Where a redirection leads. -/
inductive Opening
  | read
  | write
  /-- As `write`, also over a file that must not be replaced. -/
  | force
  | append
  | both
  deriving DecidableEq, Repr

mutual

/-- A piece of a word. -/
inductive Piece
  /-- A character. A literal one has no special meaning in patterns, and one in quotes is not a
  place where fields are cut. -/
  | char (c : Char) (literal quoted : Bool)
  /-- A place where quotes open or close. -/
  | quotes
  | parameter (name : List Char) (head : Head) (word : List Piece) (quoted : Bool)
  | sum (expression : List Piece) (quoted : Bool)
  | output (of : Option Command) (quoted : Bool)

/-- A redirection of a descriptor. -/
inductive Redirection
  | file (descriptor : Nat) (opening : Opening) (name : List Piece)
  /-- The descriptor becomes a copy of another one, which a word gives. -/
  | copy (descriptor : Nat) (outward : Bool) (source : List Piece)
  /-- The descriptor reads a text, in which pieces are replaced if `live` is set. -/
  | text (descriptor : Nat) (live : Bool) (number : Nat)

/-- A command. `line` is the line on which it starts. -/
inductive Command
  | simple (line : Nat) (assignments words : List (List Piece)) (redirections : List Redirection)
  | pipeline (parts : List Command) (aside : Bool)
  | negation (body : Command)
  | both (first second : Command)
  | either (first second : Command)
  | sequence (first second : Command)
  | aside (line : Nat) (body : Command) (redirections : List Redirection)
  | subshell (line : Nat) (body : Command) (redirections : List Redirection)
  | redirected (line : Nat) (body : Command) (redirections : List Redirection)
  | branch (test yes : Command) (no : Option Command)
  | loop (untilTrue : Bool) (test body : Command)
  | each (line : Nat) (name : List Char) (words : List (List Piece)) (body : Command)
  | choice (line : Nat) (subject : List Piece)
    (cases : List (List (List Piece) × Option Command))
  | define (line : Nat) (name : List Char) (body : Command)

end

/-- A word of a command. -/
abbrev Word := List Piece

instance : Inhabited Command := ⟨.simple 0 [] [] []⟩

/-! ## Names -/

/-- Whether a byte starts a name. -/
def isNameStart (c : Char) : Bool :=
  c.isAlpha || c == '_'

/-- Whether a byte goes on with a name. -/
def isNameChar (c : Char) : Bool :=
  c.isAlphanum || c == '_'

/-- Whether a text is a name. -/
def isName : Bytes → Bool
  | [] => false
  | c :: s => isNameStart c && s.all isNameChar

/-- The parameters whose names are one character that is no letter. -/
def isSpecialParameter (c : Char) : Bool :=
  ['!', '#', '$', '*', '-', '?', '@'].contains c || c.isDigit

/-- The characters that a word starts with, as far as they are plain. -/
def plainStart : Word → Bytes
  | .char c false false :: w => c :: plainStart w
  | _ => []

/-- Whether a word sets a variable : a name stands before its first equals sign. -/
def isAssignment (w : Word) : Bool :=
  let name := (plainStart w).takeWhile isNameChar
  isName name && ((plainStart w).drop name.length).head? == some '='

end SuiteScope.Shell
