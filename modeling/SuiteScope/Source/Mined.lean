import SuiteScope.Source.Imports
import SuiteScope.Source.Sections

/-!
# What a source holds

`mine` gathers the sections and the imports of one test source.
-/

namespace SuiteScope.Source

/-- Sections and dependencies found in one test source. -/
structure Mined where
  sections : List Section
  imports : List String
  deriving DecidableEq, Repr

/-- Everything found in a source. -/
def mine (source : String) : Mined :=
  ⟨sections source.toList, imports source.toList⟩

end SuiteScope.Source
