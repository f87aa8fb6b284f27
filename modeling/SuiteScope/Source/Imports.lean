import SuiteScope.Text.Blank
import SuiteScope.Text.Search
import SuiteScope.Text.Word

/-!
# Imports of a source

An import statement starts a line or follows a semicolon, and names a dependency in quotes :
`import 'D'`, or `import` or `export`, a clause and `from 'D'`. A clause holds no semicolon,
parenthesis or equals sign, and ends at the first `from` that a dependency follows.
-/

namespace SuiteScope.Source

open SuiteScope.Text

/-- The quotes around a dependency, which need not be the same on both sides. -/
def isDependencyQuote (c : Char) : Bool :=
  c == '\x27' || c == '\x22'

/-- What a dependency is made of. -/
def isDependencyChar (c : Char) : Bool :=
  !isDependencyQuote c && c != '\n'

/-- A nonempty dependency in quotes, after any white space. -/
def dependency? (s : List Char) : Option (String × List Char) :=
  match s.dropWhile isBlank with
  | [] => none
  | c :: s =>
    let name := s.takeWhile isDependencyChar
    match s.dropWhile isDependencyChar with
    | [] => none
    | close :: rest =>
      if isDependencyQuote c ∧ name ≠ [] ∧ isDependencyQuote close then
        some (String.ofList name, rest)
      else none

/-- What an import clause is made of. -/
def isClauseChar (c : Char) : Bool :=
  !(c == ';' || c == '(' || c == ')' || c == '=')

/-- The dependency after the word `from`, at this very place. -/
def fromDependency? : Recognizer String := fun before s =>
  if isWordStart before then ("from".toList.isPrefixOf? s).bind dependency? else none

/-- The dependency after the first `from` that ends the clause starting here. -/
def clauseDependency? : Recognizer String
  | before, [] => fromDependency? before []
  | before, c :: s =>
    match fromDependency? before (c :: s) with
    | some found => some found
    | none => if isClauseChar c then clauseDependency? (some c) s else none

/-- The dependency after white space and a clause. -/
def statementTail? : List Char → Option (String × List Char)
  | [] => none
  | c :: s => if isBlank c then clauseDependency? (some c) s else none

/-- The dependency of the statement that starts here. -/
def statement? (s : List Char) : Option (String × List Char) :=
  match "import".toList.isPrefixOf? s with
  | some rest => (dependency? rest).or (statementTail? rest)
  | none => ("export".toList.isPrefixOf? s).bind statementTail?

/-- A statement after the start of a line or a semicolon, and any white space. -/
def import? : Recognizer String := fun before s =>
  let atLineStart := if before.all (· == '\n') then statement? (s.dropWhile isBlank) else none
  match atLineStart, s with
  | some found, _ => some found
  | none, ';' :: rest => statement? (rest.dropWhile isBlank)
  | none, _ => none

/-- The dependencies of a source in order, each reported once. -/
def imports (s : List Char) : List String :=
  ((findAll import? s).map (·.value)).foldl
    (fun seen name => if seen.contains name then seen else seen ++ [name]) []

end SuiteScope.Source
