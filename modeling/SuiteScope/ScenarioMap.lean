import SuiteScope.Section

/-!
# Scenarios by target

Several test files may contribute sections to one target. `mergeSections` unites the sections of one
name, in the order in which names and scenarios first appear, and drops the sections that stay
empty. `ScenarioMap.ofContributions` does so for every target, in the order of the targets, and
leaves out the targets without sections.
-/

namespace SuiteScope

/-- A list of sections with one more section united into it. -/
def uniteSection : List Section → Section → List Section
  | [], sec => [Section.ofList sec.name sec.scenarios]
  | s :: merged, sec =>
    if s.name = sec.name then s.insertAll sec.scenarios :: merged
    else s :: uniteSection merged sec

/-- The sections of several files, one for each name that has scenarios. -/
def mergeSections (files : List (List Section)) : List Section :=
  (files.flatten.foldl uniteSection []).filter (!·.isEmpty)

/-- Targets with their sections. -/
abbrev ScenarioMap := List (String × List Section)

/-- What one file says about one target. -/
structure Contribution where
  target : String
  sections : List Section
  deriving DecidableEq, Repr

namespace ScenarioMap

/-- The targets contributed to, in order, each once. -/
def targets (contributions : List Contribution) : List String :=
  ((contributions.map (·.target)).mergeSort fun s t => !decide (t < s)).foldr
    (fun t rest => t :: rest.dropWhile (· == t)) []

/-- The sections contributed to a target, by file. -/
def sectionsFor (contributions : List Contribution) (target : String) : List (List Section) :=
  (contributions.filter (·.target == target)).map (·.sections)

/-- The scenarios of all contributions. -/
def ofContributions (contributions : List Contribution) : ScenarioMap :=
  ((targets contributions).map fun t => (t, mergeSections (sectionsFor contributions t))).filter
    fun (_, sections) => !sections.isEmpty

/-- The number of scenarios of all targets together. -/
def scenarioCount (map : ScenarioMap) : Nat :=
  (map.flatMap fun (_, sections) => sections.flatMap (·.scenarios)).length

end ScenarioMap

end SuiteScope
