import SuiteScope.Text.Digit
import SuiteScope.Transcript.Block

/-!
# Failures of a transcript

A failing line carries a cross, at least one space or tab, and the name of a test, which goes to
the end of the line. `failures` reports one entry per failing line, in order. The file of an entry
is the last test file named before the cross in the same block. Its error message and its stack
frame are looked up first in the text up to the next failing line, then in the whole block.
-/

namespace SuiteScope.Transcript

open SuiteScope.Text

/-- One failing test. -/
structure Failure where
  testName : String
  originFile : String
  errorMessage : String
  sourceLine? : Option Nat
  stackExcerpt? : Option String
  deriving DecidableEq, Repr

/-! ## Failing lines -/

/-- The crosses that mark a failing test. -/
def isCross (c : Char) : Bool :=
  c == '×' || c == '✕'

/-- The name after a cross that stands here. -/
def failingName? : List Char → Option (List Char)
  | [] => none
  | c :: s => if isCross c then lineValue? 1 (restOfLine s) else none

/-- A failing line of a block : the block's text before the cross, the name, and the text from the
end of the line up to the next such cross or the end of the block. -/
structure FailingLine where
  before : List Char
  name : List Char
  segment : List Char
  deriving DecidableEq, Repr

/-- The text up to the first failing line, and the failing lines. `inName` tells that the current
line is a failing one already, and `seen` is the text so far, last character first. -/
def failingLinesFrom : (inName : Bool) → (seen : List Char) → (s : List Char) →
    List Char × List FailingLine
  | _, _, [] => ([], [])
  | inName, seen, c :: s =>
    if inName && c != '\n' then failingLinesFrom true (c :: seen) s
    else
      match failingName? (c :: s) with
      | some name =>
        let (segment, others) := failingLinesFrom true (c :: seen) s
        ([], ⟨seen.reverse, name, segment⟩ :: others)
      | none =>
        let (lead, others) := failingLinesFrom false (c :: seen) s
        (c :: lead, others)

/-- The failing lines of a block, in order. -/
def failingLines (block : List Char) : List FailingLine :=
  (failingLinesFrom false [] block).2

/-! ## Names -/

/-- What follows a nonempty run of decimal digits, together with the run. -/
def digits? (s : List Char) : Option (List Char × List Char) :=
  match s.takeWhile isDecimalDigit with
  | [] => none
  | ds => some (ds, s.dropWhile isDecimalDigit)

/-- What follows the decimal fraction that may stand here. -/
def afterFraction (s : List Char) : List Char :=
  match s with
  | '.' :: rest =>
    match digits? rest with
    | some (_, rest) => rest
    | none => s
  | _ => s

/-- Whether a text is white space and a time in seconds or milliseconds, and nothing else. -/
def isTiming (s : List Char) : Bool :=
  match s with
  | [] => false
  | c :: _ =>
    if isBlank c then
      match digits? (s.dropWhile isBlank) with
      | some (_, rest) =>
        let unit := (afterFraction rest).dropWhile isBlank
        unit == ['s'] || unit == ['m', 's']
      | none => false
    else false

/-- The text without the timing at its end. -/
def dropTiming : List Char → List Char
  | [] => []
  | c :: s => if isTiming (c :: s) then [] else c :: dropTiming s

/-- The name of a test, from what a failing line says. -/
def testName (name : List Char) : String :=
  String.ofList (trim (dropTiming name))

/-! ## Test files -/

/-- What the path of a test file is made of. -/
def isPathChar (c : Char) : Bool :=
  !(isBlank c || c == '❯' || c == '>' || c == '(' || c == ')' || c == '\x27' || c == '\x22')

/-- The words that mark a test file, in front of its extension. -/
def testMarks : List (List Char) :=
  [".spec.".toList, ".test.".toList]

/-- The extensions of test files. Where one starts another, the longer one comes first. -/
def testExtensions : List (List Char) :=
  ["tsx".toList, "ts".toList, "jsx".toList, "js".toList, "mts".toList, "cts".toList, "mjs".toList,
    "cjs".toList]

/-- The end of a test file's name that stands here, and what follows it. -/
def testSuffix? (s : List Char) : Option (List Char × List Char) :=
  (firstWord? testMarks s).bind fun (mark, rest) =>
    (firstWord? testExtensions rest).map fun (extension, rest) => (mark ++ extension, rest)

/-- The path of a test file with the longest stem from here, and what follows it. -/
def longestTestPath? : List Char → Option (List Char × List Char)
  | [] => none
  | c :: s =>
    if isPathChar c then
      match longestTestPath? s with
      | some (path, rest) => some (c :: path, rest)
      | none => (testSuffix? s).map fun (suffix, rest) => (c :: suffix, rest)
    else none

/-- The path of a test file, which starts where no path goes on. -/
def testPath? : Recognizer String := fun before s =>
  if before.any isPathChar then none
  else (longestTestPath? s).map fun (path, rest) => (String.ofList path, rest)

/-- The test file a failing line belongs to, from the text before its cross. -/
def originFile (before : List Char) : String :=
  (((findAll testPath? before).getLast?).map (·.value)).getD "Unknown File"

/-! ## Error messages -/

/-- An error label and its message. -/
def labelledError? : Recognizer String := fun _ s =>
  ("Error:".toList.isPrefixOf? s).bind fun rest =>
    (lineValue? 0 (restOfLine rest)).map fun message => (String.ofList message, afterLine rest)

/-- An arrow that starts a line, and its message. -/
def arrowError? : Recognizer String := fun before s =>
  if isLineStart before then
    match s.dropWhile isGap with
    | '→' :: rest =>
      (lineValue? 0 (restOfLine rest)).map fun message => (String.ofList message, afterLine rest)
    | _ => none
  else none

/-- The error message of a piece of text. A label goes before an arrow. -/
def errorIn? (s : List Char) : Option String :=
  (findValue? labelledError? s).or (findValue? arrowError? s)

/-! ## Stack frames -/

/-- A place in a file : `:line:column`. The value is the numeral of the line. -/
def filePosition? : List Char → Option (List Char × List Char)
  | ':' :: s =>
    (digits? s).bind fun (line, rest) =>
      match rest with
      | ':' :: rest => (digits? rest).map fun (_, rest) => (line, rest)
      | _ => none
  | _ => none

/-- The first place in a file after at least one character of this line. -/
def frameLocation? : List Char → Option (List Char × List Char)
  | [] => none
  | c :: s => if c = '\n' then none else (filePosition? s).or (frameLocation? s)

/-- A frame after white space, as much of it as leaves a frame to be found. -/
def blankThenFrame? : List Char → Option (List Char × List Char)
  | [] => none
  | c :: s => if isBlank c then (blankThenFrame? s).or (frameLocation? s) else none

/-- A stack frame : the numeral of its line, and its text. -/
def stackFrame? : Recognizer (List Char × List Char) := fun before s =>
  if isWordStart before then
    ("at".toList.isPrefixOf? s).bind fun rest =>
      (blankThenFrame? rest).map fun (line, rest) =>
        ((line, s.take (s.length - rest.length)), rest)
  else none

/-- The first stack frame of a piece of text. -/
def frameIn? (s : List Char) : Option (List Char × List Char) :=
  findValue? stackFrame? s

/-! ## Entries -/

/-- The message of a failing test without any other. -/
def defaultMessage : String := "Test failed"

/-- The entry of a failing line, with the error message and the stack frame of the whole block for
a line that has none of its own. -/
def FailingLine.entry (blockError? : Option String)
    (blockFrame? : Option (List Char × List Char)) (l : FailingLine) : Failure :=
  let frame? := (frameIn? l.segment).or blockFrame?
  { testName := testName l.name
    originFile := originFile l.before
    errorMessage := ((errorIn? l.segment).or blockError?).getD defaultMessage
    sourceLine? := frame?.bind fun (line, _) => readCount? lineBound line
    stackExcerpt? := frame?.map fun (_, text) => String.ofList text }

/-- The entries of a block, in order. -/
def blockFailures (block : List Char) : List Failure :=
  (failingLines block).map (FailingLine.entry (errorIn? block) (frameIn? block))

/-- Whether a block can hold a failing line at all. -/
def mentionsFailure (block : List Char) : Bool :=
  block.any isCross ||
    (findValue? (fun _ s => ("FAIL".toList.isPrefixOf? s).map ((), ·)) block).isSome

/-- The entries of a transcript without escapes, in order. -/
def failures (s : List Char) : List Failure :=
  ((blocks s).filter mentionsFailure).flatMap blockFailures

end SuiteScope.Transcript
