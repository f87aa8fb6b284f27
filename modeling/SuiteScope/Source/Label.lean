import SuiteScope.Source.Skip
import SuiteScope.Text.Blank
import SuiteScope.Text.Search
import SuiteScope.Text.Word

/-!
# Calls with a label

A section or a case of a test source is a call whose first argument is a quoted label :
`describe('a label', …`. `quoted?` reads the label, which stays as written, escapes included, and
`callHead?` reads the call from the name of the callee to the quote that ends the label.
-/

namespace SuiteScope.Source

open SuiteScope.Text

/-- The characters up to the closing quote `q`, and what follows that quote. -/
def untilQuote? (q : Quote) : List Char → Option (List Char × List Char)
  | [] => none
  | ['\\'] => none
  | '\\' :: c :: s => (untilQuote? q s).map fun (label, rest) => ('\\' :: c :: label, rest)
  | c :: s =>
    if c = q.char then some ([], s)
    else (untilQuote? q s).map fun (label, rest) => (c :: label, rest)

/-- A label in any of the three quotes, and what follows it. -/
def quoted? : List Char → Option (List Char × List Char)
  | [] => none
  | c :: s => (Quote.ofChar? c).bind fun q => untilQuote? q s

/-- The head of a call : its label, and how many bytes lie before its parenthesis. -/
structure CallHead where
  lead : Nat
  label : String
  deriving DecidableEq, Repr

/-- What follows a modifier such as `.only`, if there is one. -/
def afterModifier (modifiers : List (List Char)) (s : List Char) : List Char :=
  match firstWord? modifiers s with
  | some (_, rest) => rest
  | none => s

/-- The head of a call to one of `callees`, with at most one of `modifiers` after the name. -/
def callHead? (callees modifiers : List (List Char)) : Recognizer CallHead := fun before s =>
  if isWordStart before then
    (firstWord? callees s).bind fun (_, named) =>
    match (afterModifier modifiers named).dropWhile isBlank with
    | '(' :: arguments =>
      (quoted? (arguments.dropWhile isBlank)).map fun (label, rest) =>
        (⟨byteSize s - (byteSize arguments + 1), String.ofList label⟩, rest)
    | _ => none
  else none

/-- The name of the call that makes a section. -/
def sectionCallees : List (List Char) :=
  ["describe".toList]

/-- What may follow the name of the call that makes a section. -/
def sectionModifiers : List (List Char) :=
  [".only".toList, ".skip".toList, ".concurrent".toList, ".sequential".toList]

/-- The head of a section. -/
def sectionHead? : Recognizer CallHead :=
  callHead? sectionCallees sectionModifiers

/-- The names of the calls that make a test case. -/
def caseCallees : List (List Char) :=
  ["it".toList, "test".toList]

/-- What may follow the name of a call that makes a test case. -/
def caseModifiers : List (List Char) :=
  [".only".toList, ".skip".toList, ".todo".toList, ".concurrent".toList, ".fails".toList]

/-- The head of a test case. -/
def caseHead? : Recognizer CallHead :=
  callHead? caseCallees caseModifiers

end SuiteScope.Source
