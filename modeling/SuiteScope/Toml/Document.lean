import SuiteScope.Toml.Scalar
import SuiteScope.Toml.Table

/-!
# TOML documents

`read?` reads a document : lines that are empty, give a key its value, or name the table to which
the lines below belong. A text that breaks a rule of the format has no reading.
-/

namespace SuiteScope.Toml

/-! ## Values -/

/-- Arrays and inline tables nest less deep than this, and keys have fewer parts. -/
def depthLimit : Nat := 80

/-- What follows white space, comments and line ends. `inComment` tells that a comment goes on. -/
def afterBlanks : (inComment : Bool) → List Char → Option (List Char)
  | false, '#' :: s => afterBlanks true s
  | true, '\r' :: '\n' :: s => afterBlanks false s
  | true, c :: s =>
    if c = '\n' then afterBlanks false s else if isPlain c then afterBlanks true s else none
  | true, [] => none
  | false, ' ' :: s | false, '\t' :: s | false, '\n' :: s | false, '\r' :: '\n' :: s =>
    afterBlanks false s
  | false, s => some s

/-- The parts of a key from here on, of which there are fewer than `room`. -/
def keyParts? : (room : Nat) → List Char → Option (List String × List Char)
  | 0, _ => none
  | room + 1, s => do
    let (part, s) ← keyPart? (s.dropWhile isSpace)
    match s.dropWhile isSpace with
    | '.' :: s =>
      let (parts, s) ← keyParts? room s
      some (part :: parts, s)
    | s => some ([part], s)

/-- A key : its path, its last part and the rest. White space around it is dropped. -/
def key? (s : List Char) : Option (List String × String × List Char) :=
  (keyParts? (depthLimit - 1) s).bind fun (parts, rest) =>
    parts.getLast?.map fun last => (parts.dropLast, last, rest)

mutual

/-- A value, where `depth` arrays and inline tables may still be opened. -/
def valueFrom : (fuel depth : Nat) → List Char → Option (Value × List Char)
  | 0, _, _ => none
  | fuel + 1, depth, s =>
    match s, depth with
    | '[' :: _, 0 | '{' :: _, 0 => none
    | '[' :: s, depth + 1 =>
      (elementsFrom fuel depth s).map fun (elements, rest) => (.array elements, rest)
    | '{' :: s, depth + 1 =>
      match s.dropWhile isSpace with
      | '}' :: rest => some (.table [], rest)
      | s => (pairsFrom fuel depth [] s).map fun (items, rest) => (.table (toEntries items), rest)
    | s, _ => scalar? s

/-- The elements of an array, up to its closing bracket. -/
def elementsFrom : (fuel depth : Nat) → List Char → Option (List Value × List Char)
  | 0, _, _ => none
  | fuel + 1, depth, s => do
    match ← afterBlanks false s with
    | ']' :: rest => some ([], rest)
    | s =>
      let (v, s) ← valueFrom fuel depth s
      match ← afterBlanks false s with
      | ']' :: rest => some ([v], rest)
      | ',' :: s =>
        let (vs, rest) ← elementsFrom fuel depth s
        some (v :: vs, rest)
      | _ => none

/-- The entries of an inline table, up to its closing brace, added to those that it has. -/
def pairsFrom : (fuel depth : Nat) → Items → List Char → Option (Items × List Char)
  | 0, _, _, _ => none
  | fuel + 1, depth, items, s => do
    let (path, key, s) ← key? s
    let s ← after? '=' s
    let (v, s) ← valueFrom fuel depth (s.dropWhile isSpace)
    let (_, items) ← assign path key v .defined items
    match s.dropWhile isSpace with
    | '}' :: rest => some (items, rest)
    | ',' :: s => pairsFrom fuel depth items s
    | _ => none

end

/-- A value. -/
def value? (s : List Char) : Option (Value × List Char) :=
  valueFrom (2 * s.length + 2) (depthLimit - 1) s

/-! ## Lines -/

/-- What a line says. -/
inductive Line
  /-- The line below belongs to this table. -/
  | header (path : List String) (key : String)
  /-- The line below belongs to a new element of this array of tables. -/
  | element (path : List String) (key : String)
  /-- A key has a value. -/
  | pair (path : List String) (key : String) (v : Value)

/-- What follows the end of a line, after white space and a comment. -/
def lineEnd? (s : List Char) : Option (List Char) :=
  match afterComment (s.dropWhile isSpace) with
  | [] => some []
  | s => afterNewline? s

/-- A line that says something, with what follows it. -/
def line? : List Char → Option (Line × List Char)
  | '[' :: '[' :: s => do
    let (path, key, s) ← key? s
    let s ← after? ']' s
    let s ← after? ']' s
    let rest ← lineEnd? s
    some (.element path key, rest)
  | '[' :: s => do
    let (path, key, s) ← key? s
    let s ← after? ']' s
    let rest ← lineEnd? s
    some (.header path key, rest)
  | s => do
    let (path, key, s) ← key? s
    let s ← after? '=' s
    let (v, s) ← value? (s.dropWhile isSpace)
    let rest ← lineEnd? s
    some (.pair path key v, rest)

/-- The lines of a text that say something. Every line is at least one character long. -/
def linesFrom : (fuel : Nat) → List Char → Option (List Line)
  | 0, _ => none
  | fuel + 1, s =>
    match s.dropWhile isSpace with
    | [] => some []
    | s =>
      match lineEnd? s with
      | some rest => linesFrom fuel rest
      | none => do
        let (line, rest) ← line? s
        let lines ← linesFrom fuel rest
        some (line :: lines)

/-! ## Documents -/

/-- A document under construction, and the path of the table that lines belong to. -/
structure Draft where
  items : Items := []
  current : List String := []

/-- The draft with a change made in the table at a path. -/
def Draft.change (d : Draft) (path : List String) (f : Change) : Option Draft :=
  (changeAt false f path .defined d.items).map fun (_, items) => { d with items }

/-- The draft after one more line. -/
def Draft.add (d : Draft) : Line → Option Draft
  | .header path key =>
    (d.change path (openTable key)).map ({ · with current := path ++ [key] })
  | .element path key =>
    (d.change path (openElement key)).map ({ · with current := path ++ [key] })
  | .pair path key v => d.change d.current (assign path key v)

/-- A text without the mark of its byte order. -/
def dropOrderMark : List Char → List Char
  | '\ufeff' :: s => s
  | s => s

/-- The table of a document. -/
def read? (text : String) : Option Entries := do
  let s := dropOrderMark text.toList
  let lines ← linesFrom (s.length + 1) s
  let draft ← lines.foldlM Draft.add {}
  some (toEntries draft.items)

end SuiteScope.Toml
