/-!
# TOML values

A document is a table of values. `merge` lays one value over another : tables are merged key by key
at every depth, and anything else is replaced whole.
-/

namespace SuiteScope.Toml

/-- A value of a document. Numbers with a fraction are kept as they are written, and dates and
times in their normal form. -/
inductive Value
  | string (s : String)
  | integer (n : Int)
  | float (text : String)
  | boolean (b : Bool)
  | datetime (text : String)
  | array (elements : List Value)
  | table (entries : List (String × Value))
  deriving Inhabited

/-- The entries of a table, by key. -/
abbrev Entries := List (String × Value)

/-- The entries with the value of a key replaced, or added at the end. -/
def setEntry (key : String) (v : Value) : Entries → Entries
  | [] => [(key, v)]
  | (k, old) :: rest => if k = key then (k, v) :: rest else (k, old) :: setEntry key v rest

mutual

/-- A value with another laid over it. -/
def merge (base : Value) : (overlay : Value) → Value
  | .table above =>
    match base with
    | .table below => .table (mergeEntries below above)
    | _ => .table above
  | above => above

/-- The entries of a table with those of another laid over them in turn. -/
def mergeEntries (below : Entries) : (above : Entries) → Entries
  | [] => below
  | entry :: above => mergeEntries (mergeEntry below entry) above

/-- The entries of a table with one entry laid over them. -/
def mergeEntry (below : Entries) : (entry : String × Value) → Entries
  | (key, v) =>
    match below.lookup key with
    | some old => setEntry key (merge old v) below
    | none => setEntry key v below

end

end SuiteScope.Toml
