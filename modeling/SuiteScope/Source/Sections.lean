import SuiteScope.Section
import SuiteScope.Source.Block
import SuiteScope.Source.Label

/-!
# Sections of a source

`visits` walks a source from section head to section head. A head in skipped text is passed over.
Any other head has a body, when an opening brace follows it inside the call, and the walk goes on
after that body; so nested sections are part of the section around them. `sections` reports each
live head with the labels of the live cases in its body.
-/

namespace SuiteScope.Source

open SuiteScope.Text

/-- What belongs to a section head. -/
inductive Extent
  /-- The head is part of a string or comment. -/
  | inert
  /-- The call has no body. It ends at the given parenthesis, if at all. -/
  | bodiless (callEnd : Option Nat)
  /-- The call has a body, from a brace to its counterpart or else to the end of the source. -/
  | body (opening : Nat) (closing : Option Nat)
  deriving DecidableEq, Repr

/-- A section head met on the walk. -/
structure Visit where
  head : Match CallHead
  extent : Extent
  deriving DecidableEq, Repr

/-- The byte offset of the parenthesis that opens the call. -/
def Visit.parenthesis (v : Visit) : Nat :=
  v.head.span.start + v.head.value.lead

/-- Where the walk goes on, if it does. -/
def Visit.resume : Visit → Option Nat
  | ⟨head, .inert⟩ => some head.span.stop
  | ⟨head, .bodiless none⟩ => some head.span.stop
  | ⟨_, .bodiless (some callEnd)⟩ => some (callEnd + 1)
  | ⟨_, .body _ closing⟩ => closing.map (· + 1)

/-- Whether a place lies before the end of a call. A call that never ends covers every place. -/
def beforeEnd (callEnd : Option Nat) (pos : Nat) : Bool :=
  callEnd.all (pos < ·)

/-- What belongs to a head of the source `s`, whose skipped text is `spans`. -/
def extentOf (s : List Char) (spans : Array Span) (head : Match CallHead) : Extent :=
  if inSkipped spans head.span.start then .inert
  else
    let callEnd := matchingClose? s (head.span.start + head.value.lead)
    match (blockOpen? s head.span.stop).filter (beforeEnd callEnd) with
    | none => .bodiless callEnd
    | some opening => .body opening (matchingClose? s opening)

/-- The heads met on the walk through the rest of `s` from byte offset `pos` on, where the places
before `resume` are passed over. -/
def visitsFrom (s : List Char) (spans : Array Span) :
    (before : Option Char) → (pos resume : Nat) → (rest : List Char) → List Visit
  | _, _, _, [] => []
  | before, pos, resume, c :: rest =>
    if pos < resume then visitsFrom s spans (some c) (pos + c.utf8Size) resume rest
    else
      match matchAt? sectionHead? before pos (c :: rest) with
      | none => visitsFrom s spans (some c) (pos + c.utf8Size) resume rest
      | some head =>
        let v : Visit := ⟨head, extentOf s spans head⟩
        match v.resume with
        | none => [v]
        | some next => v :: visitsFrom s spans (some c) (pos + c.utf8Size) next rest

/-- The heads met on the walk through a source. -/
def visits (s : List Char) : List Visit :=
  visitsFrom s (skippedRanges s) none 0 0 s

/-- The labels of the live cases between a brace and its counterpart, in order. -/
def caseLabels (s : List Char) (spans : Array Span) (opening : Nat) (closing : Option Nat) :
    List String :=
  let start := opening + 1
  let found := findAll caseHead? (slice s start (closing.getD (byteSize s)))
  (found.filter fun m => !inSkipped spans (start + m.span.start)).map (·.value.label)

/-- The section of a visit, unless its head is skipped text. -/
def Visit.section? (s : List Char) (spans : Array Span) (v : Visit) : Option Section :=
  match v.extent with
  | .inert => none
  | .bodiless _ => some ⟨v.head.value.label, []⟩
  | .body opening closing =>
    some (Section.ofList v.head.value.label (caseLabels s spans opening closing))

/-- The top-level sections of a source, in order. Those without cases are kept. -/
def sections (s : List Char) : List Section :=
  (visits s).filterMap (Visit.section? s (skippedRanges s))

end SuiteScope.Source
