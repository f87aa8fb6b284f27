/-!
# Sections

A section is a named group of scenarios, the labels of its test cases. `insert` keeps the scenarios
free of repetitions and in the order of their first appearance.
-/

namespace SuiteScope

/-- A named group of scenarios. -/
structure Section where
  name : String
  scenarios : List String := []
  deriving DecidableEq, Repr, Inhabited

namespace Section

/-- A section without scenarios. -/
def isEmpty (sec : Section) : Bool :=
  sec.scenarios.isEmpty

/-- Whether a scenario is one of the section's. -/
def contains (sec : Section) (scenario : String) : Bool :=
  sec.scenarios.contains scenario

/-- The section with one more scenario, unless it has it already. -/
def insert (sec : Section) (scenario : String) : Section :=
  if sec.contains scenario then sec
  else { sec with scenarios := sec.scenarios ++ [scenario] }

/-- The section with every scenario of a list inserted in turn. -/
def insertAll (sec : Section) (scenarios : List String) : Section :=
  scenarios.foldl insert sec

/-- The section of a name and a list of scenarios that may repeat some. -/
def ofList (name : String) (scenarios : List String) : Section :=
  ({ name } : Section).insertAll scenarios

@[simp]
theorem name_insert (sec : Section) (scenario : String) :
    (sec.insert scenario).name = sec.name := by
  unfold insert
  split <;> rfl

end Section

end SuiteScope
