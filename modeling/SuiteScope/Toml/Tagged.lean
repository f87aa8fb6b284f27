import SuiteScope.Toml.Scalar

/-!
# Tagged dates and times

A date or time may also be given as a table whose first key is the tag `datetimeKey` and whose first
value is its text. `untag?` puts the date or time in the place of such a table, at every depth. A
table that is tagged and whose first value is no such text spoils the whole value. What follows the
first entry of a tagged table is not looked at.
-/

namespace SuiteScope.Toml

/-- The tag of a date or time, which is also the key of its one entry where it counts as a table. -/
def datetimeKey : String := "$__toml_private_datetime"

/-- The date or time of the first value of a tagged table. -/
def datetimeOf? : Value → Option Value
  | .string s => (datetimeText? s.toList).map .datetime
  | _ => none

mutual

/-- The value with dates and times for tagged tables. -/
def untag? : Value → Option Value
  | .table [] => some (.table [])
  | .table (entry :: entries) =>
    if entry.1 = datetimeKey then datetimeOf? entry.2
    else do
      let entry ← untagEntry? entry
      let entries ← untagEntries? entries
      some (.table (entry :: entries))
  | .array elements => (untagAll? elements).map .array
  | v => some v

/-- The elements of an array with dates and times for tagged tables. -/
def untagAll? : List Value → Option (List Value)
  | [] => some []
  | v :: vs => do
    let v ← untag? v
    let vs ← untagAll? vs
    some (v :: vs)

/-- The entries of a table with dates and times for tagged tables. -/
def untagEntries? : Entries → Option Entries
  | [] => some []
  | entry :: entries => do
    let entry ← untagEntry? entry
    let entries ← untagEntries? entries
    some (entry :: entries)

/-- An entry with dates and times for tagged tables. -/
def untagEntry? : String × Value → Option (String × Value)
  | (key, v) => (untag? v).map (key, ·)

end

end SuiteScope.Toml
