import SuiteScope.Settings
import SuiteScope.Toml.Document
import SuiteScope.Toml.Tagged

/-!
# Settings in a document

`Settings.decode` reads settings off a value. A key that is not given leaves its default, a key that
settings do not have is passed over, and a value of the wrong kind makes the whole unreadable. A
group of settings may also be an array, which gives its members in order.

A document on its own and a value made of several documents are read by different `Conventions`.
-/

namespace SuiteScope.Settings

open SuiteScope.Toml

/-- What is done with the two values that fit only half. -/
structure Conventions where
  /-- A date or time counts as a text. Otherwise it counts as a table with one entry. -/
  datetimeIsText : Bool
  /-- An array may not have more elements than a group has members. -/
  exactArrays : Bool
  deriving DecidableEq, Repr

/-- The conventions for a document on its own. -/
def Conventions.single : Conventions := ⟨false, false⟩

/-- The conventions for documents laid over each other. -/
def Conventions.layered : Conventions := ⟨true, true⟩

/-- A text. -/
def text? (conv : Conventions) : Value → Option String
  | .string s => some s
  | .datetime t => if conv.datetimeIsText then some t else none
  | _ => none

/-- A truth value. -/
def truth? : Value → Option Bool
  | .boolean b => some b
  | _ => none

/-- A list of texts. -/
def texts? (conv : Conventions) : Value → Option (List String)
  | .array elements => elements.mapM (text? conv)
  | _ => none

/-- A table of texts, in the order of its keys. -/
def textTable? (conv : Conventions) : Value → Option (List (String × String))
  | .table entries =>
    (entries.mapM fun entry => (text? conv entry.2).map (entry.1, ·)).map fun read =>
      read.mergeSort fun a b => !decide (b.1 < a.1)
  | .datetime t => if conv.datetimeIsText then none else some [(datetimeKey, t)]
  | _ => none

/-- The members of a group that a value gives, where `names` are all members in order. -/
def members? (conv : Conventions) (names : List String) :
    Value → Option (List (String × Value))
  | .table entries => some entries
  | .array elements =>
    if conv.exactArrays ∧ names.length < elements.length then none
    else some (names.zip elements)
  | .datetime _ => if conv.datetimeIsText then none else some []
  | _ => none

/-- The value of a member, or its default if it is not given. -/
def member? {α : Type} (members : List (String × Value)) (name : String) (read : Value → Option α)
    (default : α) : Option α :=
  match members.lookup name with
  | some v => read v
  | none => some default

/-- The settings of the runner. -/
def runner? (conv : Conventions) (v : Value) : Option RunnerSettings := do
  let default : RunnerSettings := {}
  let members ← members? conv ["test_command", "coverage"] v
  let testCommand ← member? members "test_command" (text? conv) default.testCommand
  let coverage ← member? members "coverage" truth? default.coverage
  some { testCommand, coverage }

/-- The settings for mining. -/
def mining? (conv : Conventions) (v : Value) : Option MiningSettings := do
  let default : MiningSettings := {}
  let members ← members? conv
    ["test_dirs", "test_suffixes", "extensions", "aliases", "ignore_dirs"] v
  let testDirs ← member? members "test_dirs" (texts? conv) default.testDirs
  let testSuffixes ← member? members "test_suffixes" (texts? conv) default.testSuffixes
  let extensions ← member? members "extensions" (texts? conv) default.extensions
  let aliases ← member? members "aliases" (textTable? conv) default.aliases
  let ignoreDirs ← member? members "ignore_dirs" (texts? conv) default.ignoreDirs
  some { testDirs, testSuffixes, extensions, aliases, ignoreDirs }

/-- All settings that the table of a document gives. -/
def decode? (conv : Conventions) : Value → Option Settings
  | .table entries => do
    let default : Settings := {}
    let projectName ← member? entries "project_name" (text? conv) default.projectName
    let runner ← member? entries "runner" (runner? conv) default.runner
    let mining ← member? entries "mining" (mining? conv) default.mining
    some { projectName, runner, mining }
  | _ => none

/-- The settings of one document. -/
def ofDocument (text : String) : Except Error Settings :=
  match (read? text).bind (decode? .single <| .table ·) with
  | some s => .ok s
  | none => .error .malformedSettings

end SuiteScope.Settings
