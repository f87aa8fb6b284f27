import SuiteScope.FileTree
import SuiteScope.Shell.Pattern
import SuiteScope.Text.Byte

/-!
# Names that match a pattern

`glob` lists the paths of a file tree that a pattern matches, in the order of their bytes. The
pattern is taken part by part between slashes : a part with special characters is looked for in the
directory that has been reached, and parts without them are taken as they are. A name that starts
with a dot is matched only by a part that does.
-/

namespace SuiteScope.Shell

/-- The path that bytes name. -/
def pathOf (name : Bytes) : Path :=
  .ofBytes (Text.gather name)

/-- A text without its backslashes that keep what follows them. -/
def withoutBackslashes : Bytes → Bytes
  | '\\' :: c :: s => c :: withoutBackslashes s
  | c :: s => c :: withoutBackslashes s
  | [] => []

/-- Whether brackets are closed before the next slash. -/
def closesBrackets : (isFirst : Bool) → Bytes → Bool
  | _, [] => false
  | _, '\\' :: s =>
    match s with
    | [] => false
    | _ :: s => closesBrackets false s
  | isFirst, c :: s =>
    if c = '/' then false else if c = ']' ∧ !isFirst then true else closesBrackets false s

/-- Whether the special characters of a pattern mean something. -/
def isSpecialPattern : Bytes → Bool
  | [] => false
  | '\\' :: s =>
    match s with
    | [] => false
    | _ :: s => isSpecialPattern s
  | c :: s =>
    if c = '*' ∨ c = '?' then true
    else if c = '[' then
      let inner := if s.head? == some '!' then s.drop 1 else s
      closesBrackets true inner || isSpecialPattern s
    else isSpecialPattern s

/-- The parts of a pattern between slashes. -/
def patternParts : Bytes → List Bytes
  | [] => [[]]
  | '\\' :: '/' :: s | '/' :: s => [] :: patternParts s
  | '\\' :: c :: s =>
    match patternParts s with
    | [] => [['\\', c]]
    | part :: parts => ('\\' :: c :: part) :: parts
  | c :: s =>
    match patternParts s with
    | [] => [[c]]
    | part :: parts => (c :: part) :: parts

/-- Bytes in the order of dictionaries. -/
def byBytes (a b : Bytes) : Bool :=
  !decide (b < a)

/-- The names in a directory, with the two that every directory has. -/
def namesIn (fs : FileSystem) (dir : Bytes) : List Bytes :=
  match fs.node (pathOf dir) with
  | .ok (.directory _ entries) =>
    ['.'] :: ['.', '.'] :: entries.map fun (name, _) => Text.spread name.bytes
  | _ => []

/-- The names that a part of a pattern matches in a directory. -/
def matchesIn (fs : FileSystem) (reached part : Bytes) : List Bytes :=
  let pattern := Pattern.compile part
  let showsDots := part.head? == some '.' || part.take 2 == ['\\', '.']
  (namesIn fs (if reached.isEmpty then ['.'] else reached)).filter fun name =>
    (name.head? != some '.' || showsDots) && Pattern.isMatch pattern name

/-- The paths that parts of a pattern match from what has been reached on. `isFound` tells that a
special part has been matched. -/
def globFrom (fs : FileSystem) : (reached : Bytes) → (isFound : Bool) → List Bytes → List Bytes
  | _, _, [] => []
  | reached, isFound, [part] =>
    if isSpecialPattern part then (matchesIn fs reached part).map (reached ++ ·)
    else
      let path := reached ++ withoutBackslashes part
      if isFound && (fs.node (pathOf path)).toBool then [path] else []
  | reached, isFound, part :: parts =>
    if isSpecialPattern part then
      (matchesIn fs reached part).flatMap fun name =>
        globFrom fs (reached ++ name ++ ['/']) true parts
    else globFrom fs (reached ++ withoutBackslashes part ++ ['/']) isFound parts

/-- The paths that a pattern matches, in order. -/
def glob (fs : FileSystem) (pattern : Bytes) : List Bytes :=
  if isSpecialPattern pattern then (globFrom fs [] false (patternParts pattern)).mergeSort byBytes
  else []

end SuiteScope.Shell
