import SuiteScope.Shell.Syntax

/-!
# Reading a script

`Reader` is the state in which a script is read : the text ahead, the line, the token read last, and
the texts of redirections that are still to come. The text ahead is a stack, because the text of an
alias is read before what follows the alias. `Reading` is a computation over a reader that may be
refused with a complaint.
-/

namespace SuiteScope.Shell

/-- The parts of a script that are not words. -/
inductive Token
  | endOfFile
  | newline
  | semicolon
  | ampersand
  | both
  | either
  | bar
  | left
  | right
  | caseBreak
  | word
  | redirection
  | bang
  | caseStart
  | bodyStart
  | bodyEnd
  | elseIf
  | otherwise
  | caseEnd
  | branchEnd
  | eachStart
  | branchStart
  | among
  | yesStart
  | untilStart
  | whileStart
  | openBrace
  | closeBrace
  deriving DecidableEq, Repr

/-- What a token is called in complaints. -/
def Token.name : Token → String
  | .endOfFile => "end of file"
  | .newline => "newline"
  | .semicolon => "\";\""
  | .ampersand => "\"&\""
  | .both => "\"&&\""
  | .either => "\"||\""
  | .bar => "\"|\""
  | .left => "\"(\""
  | .right => "\")\""
  | .caseBreak => "\";;\""
  | .word => "word"
  | .redirection => "redirection"
  | .bang => "\"!\""
  | .caseStart => "\"case\""
  | .bodyStart => "\"do\""
  | .bodyEnd => "\"done\""
  | .elseIf => "\"elif\""
  | .otherwise => "\"else\""
  | .caseEnd => "\"esac\""
  | .branchEnd => "\"fi\""
  | .eachStart => "\"for\""
  | .branchStart => "\"if\""
  | .among => "\"in\""
  | .yesStart => "\"then\""
  | .untilStart => "\"until\""
  | .whileStart => "\"while\""
  | .openBrace => "\"\x7b\""
  | .closeBrace => "\"\x7d\""

/-- The words that are tokens where a command may start. -/
def keywords : List (String × Token) :=
  [("!", .bang), ("case", .caseStart), ("do", .bodyStart), ("done", .bodyEnd), ("elif", .elseIf),
    ("else", .otherwise), ("esac", .caseEnd), ("fi", .branchEnd), ("for", .eachStart),
    ("if", .branchStart), ("in", .among), ("then", .yesStart), ("until", .untilStart),
    ("while", .whileStart), ("\x7b", .openBrace), ("\x7d", .closeBrace)]

/-- The token of a word that is a keyword. -/
def keyword? (w : Bytes) : Option Token :=
  keywords.lookup (String.ofList w)

/-- Whether a token ends a list of commands. -/
def Token.endsList : Token → Bool
  | .endOfFile | .right | .caseBreak | .bodyStart | .bodyEnd | .elseIf | .otherwise | .caseEnd
  | .branchEnd | .yesStart | .closeBrace => true
  | _ => false

/-- A text that is read. -/
structure Frame where
  text : Bytes
  /-- The name of the alias that it is the text of. -/
  alias? : Option Bytes := none
  /-- Whether the alias ends with a blank, so that the next word may be an alias as well. -/
  endsBlank : Bool := false

/-- What is looked for in the next token. -/
structure Checks where
  /-- Line ends are passed over. -/
  newline : Bool := false
  keyword : Bool := false
  /-- The word may be an alias. -/
  aliased : Bool := false
  /-- The word ends a text, so nothing in it is replaced. -/
  mark : Bool := false

/-- A text of a redirection that is still to come. -/
structure Awaited where
  number : Nat
  mark : Bytes
  dropsTabs : Bool
  live : Bool

/-- A redirection as far as it is read before its word. -/
inductive Arrow
  | file (descriptor : Nat) (opening : Opening)
  | copy (descriptor : Nat) (outward : Bool)
  | text (descriptor : Nat) (dropsTabs : Bool)

/-- The state in which a script is read. -/
structure Reader where
  frames : List Frame
  line : Nat := 1
  checks : Checks := {}
  /-- Whether the token read last is read again. -/
  isBack : Bool := false
  token : Token := .endOfFile
  word : Word := []
  /-- Whether something was quoted in the word. -/
  isQuoted : Bool := false
  arrow : Arrow := .file 0 .read
  awaited : List Awaited := []
  /-- The texts of redirections, by their numbers. -/
  texts : Array Word := #[]
  aliases : List (Bytes × Bytes) := []

/-- The complaint about a script, and the line where reading stopped. -/
structure Complaint where
  line : Nat
  message : String

/-- A computation that reads a script. -/
abbrev Reading := StateT Reader (Except (Complaint × Reader))

namespace Reading

/-- A complaint at the present line. -/
def refuse {α : Type} (message : String) : Reading α := fun r =>
  .error (⟨r.line, message⟩, r)

/-- The complaint about the token read last, and the token that was expected. -/
def unexpected {α : Type} (expected : Option Token := none) : Reading α := fun r =>
  let wanted := match expected with
    | some t => s!" (expecting {t.name})"
    | none => ""
  refuse s!"{r.token.name} unexpected{wanted}" r

/-- A step taken until it gives a result. It is taken at most `bound` times. -/
@[specialize] def repeated {σ α : Type} (step : σ → Reading (σ ⊕ α)) : (bound : Nat) → σ → Reading α
  | 0, _ => refuse "script too long"
  | bound + 1, s => do
    match ← step s with
    | .inl s => repeated step bound s
    | .inr a => return a

/-- More steps than any script takes. -/
def stepBound : Nat := 1000000000000

/-- A step taken until it gives a result. -/
@[inline] def untilDone {σ α : Type} (step : σ → Reading (σ ⊕ α)) (s : σ) : Reading α :=
  repeated step stepBound s

/-! ## Characters -/

/-- The stack without the texts on top of it that have been read, and what the last one was. -/
def dropFinished : List Frame → List Frame × Bool
  | ⟨[], _, endsBlank⟩ :: f :: rest =>
    let (frames, more) := dropFinished (f :: rest)
    (frames, endsBlank || more)
  | frames => (frames, false)

/-- The next character, which is taken from the text ahead. -/
def next : Reading (Option Char) := fun r =>
  let (frames, wantsAlias) := dropFinished r.frames
  let checks := if wantsAlias then { r.checks with aliased := true } else r.checks
  match frames with
  | ⟨c :: text, alias?, endsBlank⟩ :: rest =>
    .ok (some c, { r with frames := ⟨text, alias?, endsBlank⟩ :: rest, checks })
  | frames => .ok (none, { r with frames, checks })

/-- A character put back in front of the text ahead. -/
def back : Option Char → Reading Unit
  | none => return
  | some c => modify fun r =>
    match r.frames with
    | f :: rest => { r with frames := { f with text := c :: f.text } :: rest }
    | [] => { r with frames := [⟨[c], none, false⟩] }

/-- One line more has been read. -/
def countLine : Reading Unit :=
  modify fun r => { r with line := r.line + 1 }

/-- The next character after all pairs of a backslash and a line end. -/
def nextJoined : Reading (Option Char) :=
  untilDone (fun _ => do
    match ← next with
    | some '\\' =>
      match ← next with
      | some '\n' => do
        countLine
        return .inl ()
      | d => do
        back d
        return .inr (some '\\')
    | c => return .inr c) ()

end Reading

end SuiteScope.Shell
