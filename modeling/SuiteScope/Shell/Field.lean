import SuiteScope.Shell.Pattern

/-!
# Fields

A word comes to a list of `Chunk`s, which tell where it may be cut. `fieldsOf` cuts the chunks of a
word into fields : at the separators in what parameters, commands and sums have given, and between
the values of a list of parameters. White space among the separators counts as one however much of
it there is, and it cuts off no empty field, except in what comes next behind a list of values.
-/

namespace SuiteScope.Shell

/-- A byte of a field, or a place where quotes stood. A literal byte has no special meaning in a
pattern. -/
inductive Glyph
  | mark
  | char (c : Char) (isLiteral : Bool)
  deriving DecidableEq, Repr

/-- Where a chunk may be cut. -/
inductive Cuts
  | never
  | atSeparators
  /-- Between values, where a zero byte stands. -/
  | betweenValues
  deriving DecidableEq, Repr

/-- A part of a word. -/
structure Chunk where
  cuts : Cuts
  glyphs : List Glyph
  deriving Repr

/-- The bytes of glyphs. -/
def bytesOf (glyphs : List Glyph) : Bytes :=
  glyphs.filterMap fun
    | .char c _ => some c
    | .mark => none

/-- The bytes of chunks. -/
def Chunk.bytes (chunks : List Chunk) : Bytes :=
  chunks.flatMap fun c => bytesOf c.glyphs

/-- The text of glyphs as a pattern, with a backslash in front of what is literal. -/
def patternOf (glyphs : List Glyph) : Bytes :=
  glyphs.flatMap fun
    | .char c isLiteral => if isLiteral then ['\\', c] else [c]
    | .mark => []

/-- Separators when nothing else has been said. -/
def defaultSeparators : Bytes := [' ', '\t', '\n']

/-- Whether a byte separates fields. A zero byte always does. -/
def isSeparator (separators : Bytes) (c : Char) : Bool :=
  c == '\x00' || separators.contains c

/-- Whether a separator is white space. -/
def isSpaceSeparator (c : Char) : Bool :=
  c == '\x00' || defaultSeparators.contains c

/-- Glyphs without the separators at their start, of which one may be no white space if `mayCut` is
set. -/
def dropSeparators (separators : Bytes) : (mayCut : Bool) → List Glyph → List Glyph
  | _, [] => []
  | _, .mark :: gs => .mark :: gs
  | mayCut, .char c l :: gs =>
    if !isSeparator separators c then .char c l :: gs
    else if isSpaceSeparator c then dropSeparators separators mayCut gs
    else if mayCut then dropSeparators separators false gs
    else .char c l :: gs

/-- Fields as far as they are complete, last one first, and the open one, last glyph first. -/
structure Cutting where
  complete : List (List Glyph) := []
  current : List Glyph := []
  /-- Whether the chunk that could be cut last is a list of values. -/
  isAfterValues : Bool := false

/-- The cutting with the open field completed. -/
def Cutting.close (f : Cutting) : Cutting :=
  { f with complete := f.current.reverse :: f.complete, current := [] }

/-- The cutting after glyphs that are cut wherever `isCut` says so. -/
def cutEverywhere (isCut : Char → Bool) (f : Cutting) (gs : List Glyph) : Cutting :=
  gs.foldl (fun f g =>
    match g with
    | .mark => { f with current := g :: f.current }
    | .char c _ => if isCut c then f.close else { f with current := g :: f.current }) f

/-- The cutting after glyphs that may be cut at separators. -/
def cutAtSeparators (separators : Bytes) : (fuel : Nat) → Cutting → List Glyph → Cutting
  | 0, f, _ | _, f, [] => f
  | fuel + 1, f, g :: gs =>
    match g with
    | .mark => cutAtSeparators separators fuel { f with current := g :: f.current } gs
    | .char c _ =>
      if !isSeparator separators c then
        cutAtSeparators separators fuel { f with current := g :: f.current } gs
      else if isSpaceSeparator c && f.current.isEmpty then cutAtSeparators separators fuel f gs
      else
        cutAtSeparators separators fuel f.close (dropSeparators separators (isSpaceSeparator c) gs)

/-- The cutting after a chunk. -/
def cutChunk (separators : Bytes) (f : Cutting) (c : Chunk) : Cutting :=
  match c.cuts with
  | .never => { f with current := c.glyphs.reverse ++ f.current }
  | .atSeparators =>
    let cut :=
      if f.isAfterValues then cutEverywhere (isSeparator separators) f c.glyphs
      else cutAtSeparators separators (c.glyphs.length + 1) f c.glyphs
    { cut with isAfterValues := false }
  | .betweenValues => { cutEverywhere (· == '\x00') f c.glyphs with isAfterValues := true }

/-- The fields of chunks. A last field that is empty counts only behind a list of values. -/
def fieldsOf (separators : Bytes) (chunks : List Chunk) : List (List Glyph) :=
  let f := chunks.foldl (cutChunk separators) {}
  let f := if f.current.isEmpty && !f.isAfterValues then f else f.close
  f.complete.reverse

end SuiteScope.Shell
