import SuiteScope.Shell.Lexer

/-!
# The grammar of scripts

A script is read line by line : `readLine` reads the commands up to the end of a line, or up to the
end of the line on which the last of them ends. Commands are read by descent. A part that holds
commands of its own, such as the body of a loop, is read by the readers of the level below, which
are a `Nested`. Only so many levels are read.
-/

namespace SuiteScope.Shell

/-- Which list of commands is read. -/
inductive ListKind
  /-- The commands of a line. -/
  | line
  /-- Commands of a part that holds at least one. -/
  | part
  /-- Commands of a part that may be empty. -/
  | emptyable
  deriving DecidableEq, Repr

/-- The readers of a list of commands and of a command. -/
structure Nested where
  list : ListKind → Reading (Option Command)
  command : Reading Command

/-- The commands of the shell that belong to the language. -/
def specialBuiltins : List String :=
  [".", ":", "break", "continue", "eval", "exec", "exit", "export", "local", "readonly", "return",
    "set", "shift", "times", "trap", "unset"]

/-- The characters of a word without its quotes. -/
def unquoted : Word → Bytes
  | [] => []
  | .char c _ _ :: w => c :: unquoted w
  | _ :: w => unquoted w

namespace Nested

open Reading

/-- The commands in a word, which end with a closing parenthesis if `closes` is set. -/
def inWord (n : Nested) (closes : Bool) : Reading (Option Command) := do
  let awaited := (← get).awaited
  modify fun r => { r with awaited := [] }
  let c ← n.list .emptyable
  if closes && (← get).token != .right then unexpected (some .right)
  modify fun r => { r with awaited, isBack := false }
  return c

/-- The next token. -/
def token (n : Nested) : Reading Token :=
  readToken n.inWord

/-- The next token, in a place where `checks` are made. -/
def tokenIn (n : Nested) (checks : Checks) : Reading Token := do
  look checks
  n.token

/-- The checks of a place where a command may start. -/
def commandChecks (newline : Bool) : Checks :=
  { newline, keyword := true, aliased := true }

/-- A token that has to be there. -/
def expect (n : Nested) (t : Token) : Reading Unit := do
  if (← n.token) ≠ t then unexpected (some t)

/-- Commands of a part that holds at least one, with the token that is expected behind them. Without
any, the script has ended. -/
def part (n : Nested) (closing : Token) : Reading Command := do
  match ← n.list .part with
  | some c => return c
  | none => unexpected (some closing)

/-- Values read as long as there are some. -/
def many {α : Type} (one : Reading (Option α)) : Reading (List α) :=
  untilDone (fun taken => do
    match ← one with
    | some a => return .inl (a :: taken)
    | none => return .inr taken.reverse) []

/-! ## Redirections -/

/-- The word of a redirection whose arrow has been read. -/
def redirection (n : Nested) : Reading Redirection := do
  let arrow := (← get).arrow
  let isText := match arrow with
    | .text .. => true
    | _ => false
  if isText then look { mark := true }
  if (← n.token) ≠ .word then unexpected
  let r ← get
  match arrow with
  | .file descriptor opening => return .file descriptor opening r.word
  | .copy descriptor outward => return .copy descriptor outward r.word
  | .text descriptor dropsTabs =>
    let live := !r.isQuoted
    let number := r.texts.size
    let awaited := ⟨number, unquoted r.word, dropsTabs, live⟩ :: r.awaited
    set { r with texts := r.texts.push [], awaited }
    return .text descriptor live number

/-- The redirections behind a command that is not simple. -/
def redirections (n : Nested) : Reading (List Redirection) := do
  look (commandChecks false)
  let found ← many do
    if (← n.token) = .redirection then return some (← n.redirection) else return none
  again
  return found

/-! ## Simple commands -/

/-- A function whose name has been read. -/
def function (n : Nested) (name : Word) : Reading Command := do
  n.expect .right
  let text := plainStart name
  if text.length != name.length || !isName text
      || specialBuiltins.contains (String.ofList text) then
    refuse "Bad function name"
  look (commandChecks true)
  let line := (← get).line
  return .define line text (← n.command)

/-- A simple command as far as it is read, last parts first. -/
structure Simple where
  assignments : List Word := []
  words : List Word := []
  redirections : List Redirection := []

/-- A simple command or a function. -/
def simple (n : Nested) : Reading Command := do
  let line := (← get).line
  untilDone (fun (s : Simple) => do
    let isOpen := s.words.isEmpty
    match ← n.tokenIn { aliased := isOpen } with
    | .word =>
      let word := (← get).word
      if isOpen && isAssignment word then
        return .inl { s with assignments := word :: s.assignments }
      else return .inl { s with words := word :: s.words }
    | .redirection => return .inl { s with redirections := (← n.redirection) :: s.redirections }
    | token =>
      match token, s with
      | .left, ⟨[], [name], []⟩ => return .inr (← n.function name)
      | _, _ =>
        again
        return .inr (.simple line s.assignments.reverse s.words.reverse s.redirections.reverse)) {}

/-! ## Commands with parts -/

/-- What follows the test of a branch : the commands for yes, and what is done otherwise. -/
def branch (n : Nested) : Reading Command := do
  let arms ← untilDone (fun (arms : List (Command × Command)) => do
    let test ← n.part .yesStart
    n.expect .yesStart
    let arms := (test, ← n.part .branchEnd) :: arms
    if (← n.token) = .elseIf then return .inl arms else return .inr arms) []
  let last ←
    if (← get).token = .otherwise then
      some <$> n.part .branchEnd
    else do
      again
      pure none
  n.expect .branchEnd
  match arms.foldl (fun no (test, yes) => some (.branch test yes no)) last with
  | some c => return c
  | none => unexpected

/-- What follows the first word of a loop with a test. -/
def loop (n : Nested) (untilTrue : Bool) : Reading Command := do
  let test ← n.part .bodyStart
  n.expect .bodyStart
  let body ← n.part .bodyEnd
  n.expect .bodyEnd
  return .loop untilTrue test body

/-- What follows the first word of a loop over words. -/
def each (n : Nested) (line : Nat) : Reading Command := do
  let token ← n.token
  let r ← get
  let name := plainStart r.word
  if token ≠ .word || r.isQuoted || name.length != r.word.length || !isName name then
    refuse "Bad for loop variable"
  let token ← n.tokenIn (commandChecks true)
  let words ←
    if token = .among then do
      let words ← many do
        if (← n.token) = .word then return some (← get).word else return none
      let r ← get
      if r.token ≠ .newline && r.token ≠ .semicolon then unexpected
      pure words
    else do
      if token ≠ .semicolon then again
      pure [[.parameter ['@'] .plain [] true]]
  look (commandChecks true)
  n.expect .bodyStart
  let body ← n.part .bodyEnd
  n.expect .bodyEnd
  return .each line name words body

/-- The patterns of a case, and what is done for them. -/
def oneCase (n : Nested) : Reading (List Word × Option Command) := do
  if (← get).token = .left then
    let _ ← n.token
  let patterns ← untilDone (fun taken => do
    let taken := (← get).word :: taken
    if (← n.token) = .bar then
      let _ ← n.token
      return .inl taken
    else return .inr taken.reverse) []
  if (← get).token ≠ .right then unexpected (some .right)
  return (patterns, ← n.list .emptyable)

/-- What follows the first word of a choice between patterns. -/
def choice (n : Nested) (line : Nat) : Reading Command := do
  n.expect .word
  let subject := (← get).word
  look (commandChecks true)
  n.expect .among
  let start : Checks := { newline := true, keyword := true }
  let _ ← n.tokenIn start
  let cases ← many do
    if (← get).token = .caseEnd then return none
    else
      let arm ← n.oneCase
      let token ← n.tokenIn start
      if token = .caseBreak then
        let _ ← n.tokenIn start
      else if token ≠ .caseEnd then unexpected (some .caseBreak)
      return some arm
  return .choice line subject cases

/-- A command with the redirections behind it. -/
def withRedirections (n : Nested) (line : Nat) (c : Command) : Reading Command := do
  match ← n.redirections, c with
  | [], c => return c
  | found, .subshell line body _ => return .subshell line body found
  | found, c => return .redirected line c found

/-- A command. -/
def readCommand (n : Nested) : Reading Command := do
  let line := (← get).line
  match ← n.token with
  | .branchStart => n.withRedirections line (← n.branch)
  | .whileStart => n.withRedirections line (← n.loop false)
  | .untilStart => n.withRedirections line (← n.loop true)
  | .eachStart => n.withRedirections line (← n.each line)
  | .caseStart => n.withRedirections line (← n.choice line)
  | .left =>
    let body ← n.part .right
    n.expect .right
    n.withRedirections line (.subshell line body [])
  | .openBrace =>
    let body ← n.part .closeBrace
    n.expect .closeBrace
    n.withRedirections line body
  | .word | .redirection =>
    again
    n.simple
  | _ => unexpected

/-! ## Lists -/

/-- A pipeline. -/
def pipeline (n : Nested) : Reading Command := do
  let isNegated := (← n.token) == .bang
  if isNegated then look (commandChecks false) else again
  let first ← n.command
  let rest ← many do
    if (← n.token) = .bar then
      look (commandChecks true)
      return some (← n.command)
    else return none
  again
  let c := if rest.isEmpty then first else .pipeline (first :: rest) false
  return if isNegated then .negation c else c

/-- Pipelines of which each is run or not as the one before it ends. -/
def chain (n : Nested) : Reading Command := do
  untilDone (fun c => do
    match ← n.token with
    | .both =>
      look (commandChecks true)
      return .inl (.both c (← n.pipeline))
    | .either =>
      look (commandChecks true)
      return .inl (.either c (← n.pipeline))
    | _ =>
      again
      return .inr c) (← n.pipeline)

/-- A command that is not waited for. -/
def toAside : Command → Command
  | .pipeline parts _ => .pipeline parts true
  | .redirected line body redirections => .aside line body redirections
  | c => .aside 0 c []

/-- The end of a file, where texts of redirections end as well. -/
def atEnd (n : Nested) : Reading Unit := do
  readTexts n.inWord
  again

/-- A list of commands, and whether it has one at least. -/
def readList (n : Nested) (kind : ListKind) : Reading (Option Command) :=
  untilDone (fun (done : Option Command) => do
    let token ← n.tokenIn (commandChecks (kind != .line))
    if token = .newline then
      readTexts n.inWord
      return .inr done
    else if token = .endOfFile then
      n.atEnd
      return .inr done
    else
      again
      if (kind = .emptyable || (kind = .part && done.isSome)) && token.endsList then
        return .inr done
      let c ← n.chain
      let token ← n.token
      let c := if token = .ampersand then toAside c else c
      let done := some (match done with
        | some before => .sequence before c
        | none => c)
      match token with
      | .endOfFile =>
        n.atEnd
        return .inr done
      | .newline =>
        again
        return .inl done
      | .ampersand | .semicolon => return .inl done
      | _ =>
        if kind = .line then unexpected
        again
        return .inr done) none

end Nested

mutual

/-- A list of commands, in which commands nest less than `depth` deep. -/
def readListTo : (depth : Nat) → ListKind → Reading (Option Command)
  | 0, _ => Reading.refuse "script too deep"
  | depth + 1, kind => Nested.readList ⟨readListTo depth, readCommandTo depth⟩ kind

/-- A command, in which commands nest less than `depth` deep. -/
def readCommandTo : (depth : Nat) → Reading Command
  | 0 => Reading.refuse "script too deep"
  | depth + 1 => Nested.readCommand ⟨readListTo depth, readCommandTo depth⟩

end

/-- How deep commands nest at most. -/
def depthLimit : Nat := 10000

/-- The commands of the next line. There are none at the end of a script. -/
inductive Line
  | endOfScript
  | commands (c : Option Command)

/-- The commands of the next line. -/
def readLine : Reading Line := do
  modify fun r => { r with checks := {}, isBack := false, awaited := [] }
  let c ← readListTo depthLimit .line
  let r ← get
  if c.isNone && r.isBack && r.token == .endOfFile then return .endOfScript
  else return .commands c

end SuiteScope.Shell
