import SuiteScope.Text.Utf8

/-!
# Paths

A path is a list of segments, the pieces of its text between slashes. The text is kept as it was
written, while `components` tells what it names : empty segments and those that are a single dot
name nothing, except that a dot at the start of a relative path is a component of its own.

Two paths with the same components are the same path. `normalize` also cancels each `..` against
the component before it, where there is one to cancel.

To a system a path is bytes, and so are the names in it. Any bytes make a path (`ofBytes`), and any
text does (`ofString`), but not every path is the path of a text : `toString` shows replacement
characters for bytes that are no text.
-/

namespace SuiteScope

/-- A name as file systems have it : bytes, which need not be text. -/
@[ext]
structure FileName where
  bytes : List UInt8
  deriving DecidableEq, Repr, Inhabited

namespace FileName

/-- What stands between two slashes in a row. -/
@[match_pattern]
abbrev empty : FileName := ⟨[]⟩

/-- A single dot. -/
@[match_pattern]
abbrev dot : FileName := ⟨[0x2e]⟩

/-- Two dots. -/
@[match_pattern]
abbrev dots : FileName := ⟨[0x2e, 0x2e]⟩

/-- The name that a text is. -/
def ofString (s : String) : FileName :=
  ⟨Text.encode s⟩

/-- A name as it is shown, with replacement characters for bytes that are no text. -/
def toString (n : FileName) : String :=
  Text.decodeLossy n.bytes

instance : Coe String FileName := ⟨ofString⟩

instance : Coe (List String) (List FileName) := ⟨List.map ofString⟩

instance : Coe FileName String := ⟨toString⟩

end FileName

/-- A path as it was written, cut at the slashes. -/
structure Path where
  segments : List FileName
  deriving DecidableEq, Repr, Inhabited

/-- One step of a path. -/
inductive Component
  | root
  | current
  | up
  | name (s : FileName)
  deriving DecidableEq, Repr

/-! ## Components one by one -/

/-- A segment that stands for a component. -/
def Component.segment : Component → FileName
  | .root => .empty
  | .current => .dot
  | .up => .dots
  | .name s => s

/-- The rank of a kind of component. -/
def Component.rank : Component → Nat
  | .root => 0
  | .current => 1
  | .up => 2
  | .name _ => 3

/-- Whether a component goes before another. Names go by their bytes. -/
def Component.before : Component → Component → Bool
  | .name s, .name t => decide (s.bytes < t.bytes)
  | c, d => c.rank < d.rank

namespace Path

/-! ## Text -/

/-- The pieces of a list between the occurrences of an element. -/
def splitAt {α : Type} [DecidableEq α] (sep : α) : List α → List (List α)
  | [] => [[]]
  | c :: s =>
    if c = sep then [] :: splitAt sep s
    else
      match splitAt sep s with
      | [] => [[c]]
      | piece :: pieces => (c :: piece) :: pieces

/-- The byte that stands between segments. -/
abbrev slash : UInt8 := 0x2f

/-- The path of some bytes. -/
def ofBytes (bytes : List UInt8) : Path :=
  ⟨(splitAt slash bytes).map .mk⟩

/-- The path of a text. -/
def ofString (s : String) : Path :=
  ofBytes (Text.encode s)

/-- The bytes of a path. -/
def toBytes (p : Path) : List UInt8 :=
  [slash].intercalate (p.segments.map (·.bytes))

/-- A path as it is shown. -/
def toString (p : Path) : String :=
  Text.decodeLossy p.toBytes

/-- The path of a text put behind the bytes of `p`. -/
def extend (p : Path) (s : String) : Path :=
  ofBytes (p.toBytes ++ Text.encode s)

/-! ## Components -/

/-- Segments that name nothing. -/
def isIdle (segment : FileName) : Bool :=
  segment == .empty || segment == .dot

/-- A path that starts with a slash. -/
def isAbsolute (p : Path) : Bool :=
  match p.segments with
  | .empty :: _ :: _ => true
  | _ => false

/-- The first component of a path that starts with a slash or a dot, and the other segments. -/
def lead (p : Path) : Option Component × List FileName :=
  match p.segments with
  | .empty :: s :: rest => (some .root, s :: rest)
  | .dot :: rest => (some .current, rest)
  | segments => (none, segments)

/-- What a segment after the first names. -/
def component? (segment : FileName) : Option Component :=
  if isIdle segment then none
  else if segment == .dots then some .up
  else some (.name segment)

/-- The steps of a path. -/
def components (p : Path) : List Component :=
  p.lead.1.toList ++ p.lead.2.filterMap component?

/-- The shortest text for a list of components. -/
def ofComponents : List Component → Path
  | [] => ⟨[.empty]⟩
  | [.root] => ⟨[.empty, .empty]⟩
  | cs => ⟨cs.map Component.segment⟩

/-- Whether two paths name the same steps. -/
def same (p q : Path) : Bool :=
  p.components == q.components

/-! ## Parts -/

/-- The path `q`, taken from `p` if it is relative. -/
def join (p q : Path) : Path :=
  if q.isAbsolute then q
  else if p.segments.getLast?.all (· == .empty) then ⟨p.segments.dropLast ++ q.segments⟩
  else ⟨p.segments ++ q.segments⟩

/-- Segments without the idle ones at the end. -/
def dropIdleTail (segments : List FileName) : List FileName :=
  (segments.reverse.dropWhile isIdle).reverse

/-- The path of a first component and further segments, without idle ones at the end. -/
def ofLead (first : Option Component) (segments : List FileName) : Path :=
  match first, dropIdleTail segments with
  | some .root, [] => ⟨[.empty, .empty]⟩
  | some c, rest => ⟨Component.segment c :: rest⟩
  | none, [] => ⟨[.empty]⟩
  | none, rest => ⟨rest⟩

/-- The path without its last component, as written. The root and the empty path have none. -/
def parent? (p : Path) : Option Path :=
  match p.lead with
  | (first, segments) =>
    match first, dropIdleTail segments with
    | some .root, [] => none
    | none, [] => none
    | some _, [] => some ⟨[.empty]⟩
    | first, segments => some (ofLead first segments.dropLast)

/-- The segments after the first `n` components, starting with a component. -/
def afterComponents : (n : Nat) → (segments : List FileName) → List FileName
  | 0, segments => segments.dropWhile isIdle
  | n + 1, segments => afterComponents n ((segments.dropWhile isIdle).drop 1)

/-- What follows the components of `base` in `p`, as written. -/
def relativeTo? (p base : Path) : Option Path :=
  if base.components.isPrefixOf p.components then
    match p.lead, base.components.length with
    | (first, segments), 0 => some (ofLead first segments)
    | (some _, segments), n + 1 => some (ofLead none (afterComponents n segments))
    | (none, segments), n => some (ofLead none (afterComponents n segments))
  else none

/-- The last component, if it is a name. -/
def fileName? (p : Path) : Option FileName :=
  match p.components.getLast? with
  | some (.name s) => some s
  | _ => none

/-- The part of a file name before its last dot, unless nothing stands before that dot. -/
def fileStem? (p : Path) : Option FileName :=
  p.fileName?.map fun name =>
    match splitAt 0x2e name.bytes with
    | [_] | [[], _] => name
    | pieces => ⟨[0x2e].intercalate pieces.dropLast⟩

/-- The path itself and the directories above it, nearest first. At most `n` are listed. -/
def ancestorsUpTo : (n : Nat) → Path → List Path
  | 0, _ => []
  | n + 1, p => p :: (p.parent?.elim [] (ancestorsUpTo n))

/-- The path itself and the directories above it, nearest first. -/
def ancestors (p : Path) : List Path :=
  ancestorsUpTo (p.components.length + 1) p

/-! ## Normal form -/

/-- The components so far, last one first, after one more. A `..` with nothing to cancel stays, and
the next one cancels it. -/
def cancel : List Component → Component → List Component
  | done, .current => done
  | [], .up => [.up]
  | .root :: done, .up => .up :: .root :: done
  | _ :: done, .up => done
  | done, c => c :: done

/-- The components of the normal form of a path. -/
def normalComponents (p : Path) : List Component :=
  (p.components.foldl cancel []).reverse

/-- The path with every dot removed and every `..` cancelled, in its shortest text. -/
def normalize (p : Path) : Path :=
  ofComponents p.normalComponents

/-- A path as it is shown, with slashes for backslashes. -/
def toSlashes (p : Path) : String :=
  p.toString.map fun c => if c = '\\' then '/' else c

/-! ## Order -/

/-- Whether a list of components goes before another, by the first place where they differ. -/
def componentsBefore : List Component → List Component → Bool
  | _, [] => false
  | [], _ :: _ => true
  | c :: cs, d :: ds => if c = d then componentsBefore cs ds else c.before d

/-- Whether a path goes before another. -/
def before (p q : Path) : Bool :=
  componentsBefore p.components q.components

/-- The paths in order, each listed once. Of paths with the same components the first is kept. -/
def sortUnique (paths : List Path) : List Path :=
  (paths.mergeSort fun p q => !q.before p).foldr
    (fun p rest => p :: rest.dropWhile (p.same ·)) []

end Path

end SuiteScope
