import SuiteScope.Toml.Value

/-!
# Tables under construction

The tables of a document are built from several places : headers, dotted keys and inline tables.
Each table remembers how it came about, because a table that has been defined is not defined again,
and because dotted keys and headers do not add to each other's tables.
-/

namespace SuiteScope.Toml

/-- How a table came about. -/
inductive Origin
  /-- A header names a table below it. -/
  | implied
  /-- A dotted key goes through it. -/
  | dotted
  /-- It has a header or braces of its own. -/
  | defined
  deriving DecidableEq, Repr

/-- A value of a document under construction. -/
inductive Item
  | value (v : Value)
  | table (origin : Origin) (entries : List (String × Item))
  /-- The tables that one header has opened again and again, last one first. -/
  | tables (elements : List (List (String × Item)))

/-- The entries of a table under construction. -/
abbrev Items := List (String × Item)

/-- A change of a table, which is told how the table came about. It may be refused. -/
abbrev Change := Origin → Items → Option (Origin × Items)

/-- The entries with the item of a key replaced, or added at the end. -/
def setItem (key : String) (item : Item) : Items → Items
  | [] => [(key, item)]
  | (k, old) :: rest => if k = key then (k, item) :: rest else (k, old) :: setItem key item rest

/-- The table at the end of a path changed by `f`. Tables that lack on the way are made, and an
array of tables is entered at its last one. A dotted key enters no table that has been defined. -/
def changeAt (byDots : Bool) (f : Change) : (path : List String) → Change
  | [], origin, items => f origin items
  | key :: path, origin, items =>
    let set := fun item => (origin, setItem key item items)
    match items.lookup key with
    | none =>
      (changeAt byDots f path (if byDots then .dotted else .implied) []).map fun (o, inner) =>
        set (.table o inner)
    | some (.value _) => none
    | some (.tables []) => none
    | some (.tables (last :: earlier)) =>
      (changeAt byDots f path .defined last).map fun (_, inner) => set (.tables (inner :: earlier))
    | some (.table o inner) =>
      if byDots ∧ o = .defined then none
      else (changeAt byDots f path o inner).map fun (o, inner) => set (.table o inner)

/-- The change that gives a key its value. -/
def define (afterDots : Bool) (key : String) (v : Value) : Change := fun origin items =>
  if (origin == .dotted) != afterDots then none
  else if (items.lookup key).isSome then none
  else some (origin, items ++ [(key, .value v)])

/-- The change that a line `path.key = v` makes in the current table. -/
def assign (path : List String) (key : String) (v : Value) : Change :=
  changeAt true (define (!path.isEmpty) key v) path

/-- The change that a header makes in the table above. A table that was implied so far moves to
the end. -/
def openTable (key : String) : Change := fun origin items =>
  let others := items.filter (·.1 ≠ key)
  match items.lookup key with
  | none => some (origin, items ++ [(key, .table .defined [])])
  | some (.table .implied inner) => some (origin, others ++ [(key, .table .defined inner)])
  | some _ => none

/-- The change that the header of an array of tables makes in the table above. -/
def openElement (key : String) : Change := fun origin items =>
  match items.lookup key with
  | none => some (origin, setItem key (.tables [[]]) items)
  | some (.tables elements) => some (origin, setItem key (.tables ([] :: elements)) items)
  | some _ => none

mutual

/-- The finished value of an item. -/
def Item.toValue : Item → Value
  | .value v => v
  | .table _ entries => .table (toEntries entries)
  | .tables elements => .array (toTables elements).reverse

/-- The finished entries of a table. -/
def toEntries : Items → Entries
  | [] => []
  | entry :: entries => toEntry entry :: toEntries entries

/-- A finished entry. -/
def toEntry : String × Item → String × Value
  | (key, item) => (key, item.toValue)

/-- The finished tables of an array. -/
def toTables : List Items → List Value
  | [] => []
  | entries :: rest => .table (toEntries entries) :: toTables rest

end

end SuiteScope.Toml
