import SuiteScope.Text.Offset

/-!
# Skipped text

Quoted strings and comments of a test source are skipped text, everything else is code. `marks`
tells the two apart character by character, `skippedRanges` gathers the marked characters into
maximal stretches, and `inSkipped` finds a place among such stretches by bisection.
-/

namespace SuiteScope.Source

open SuiteScope.Text

/-- The three quotes around a string. -/
inductive Quote
  | single
  | double
  | backtick
  deriving DecidableEq, Repr

/-- The character a string in this quote starts and ends with. -/
def Quote.char : Quote → Char
  | .single => '\x27'
  | .double => '\x22'
  | .backtick => '\x60'

/-- The quote a character opens, if it opens one. -/
def Quote.ofChar? (c : Char) : Option Quote :=
  if c = Quote.single.char then some .single
  else if c = Quote.double.char then some .double
  else if c = Quote.backtick.char then some .backtick
  else none

theorem Quote.ofChar?_char (q : Quote) : Quote.ofChar? q.char = some q := by
  cases q <;> rfl

theorem Quote.ofChar?_eq_some_iff {c : Char} {q : Quote} :
    Quote.ofChar? c = some q ↔ c = q.char := by
  constructor
  · intro h
    unfold Quote.ofChar? at h
    split at h
    · cases h; assumption
    · split at h
      · cases h; assumption
      · split at h
        · cases h; assumption
        · cases h
  · rintro rfl
    exact Quote.ofChar?_char q

/-- Where a place of a source lies. -/
inductive Mode
  | code
  | quoted (q : Quote)
  /-- Behind a backslash in a string. -/
  | escaped (q : Quote)
  /-- Between the two slashes that open a line comment. -/
  | lineOpening
  | lineComment
  /-- Between the slash and the star that open a block comment. -/
  | blockOpening
  | blockComment
  /-- Between the star and the slash that close a block comment. -/
  | blockClosing
  deriving DecidableEq, Repr

/-- The mode behind a character `c` that stands in mode `m` and before `next`. -/
def Mode.after (m : Mode) (c : Char) (next : Option Char) : Mode :=
  match m with
  | .code =>
    if c = '/' ∧ next = some '/' then .lineOpening
    else if c = '/' ∧ next = some '*' then .blockOpening
    else (Quote.ofChar? c).elim .code .quoted
  | .quoted q => if c = '\\' then .escaped q else if c = q.char then .code else .quoted q
  | .escaped q => .quoted q
  | .lineOpening => .lineComment
  | .lineComment => if c = '\n' then .code else .lineComment
  | .blockOpening => .blockComment
  | .blockComment => if c = '*' ∧ next = some '/' then .blockClosing else .blockComment
  | .blockClosing => .code

/-- Whether a character is skipped. In code it is one that opens a string or a comment, and outside
code it is any but the line end after a line comment. -/
def Mode.skips (m : Mode) (c : Char) (next : Option Char) : Bool :=
  match m with
  | .code => m.after c next != .code
  | .lineComment => c != '\n'
  | _ => true

/-- Which characters of `s` are skipped when it is entered in mode `m`. -/
def marks : (m : Mode) → (s : List Char) → List Bool
  | _, [] => []
  | m, c :: s => m.skips c s.head? :: marks (m.after c s.head?) s

/-- The characters of a source, each with its mark. -/
def marked (s : List Char) : List (Char × Bool) :=
  s.zip (marks .code s)

/-- The maximal stretches of marked characters, where `s` starts at byte offset `pos` and `since`
is the start of the stretch that reaches up to there. -/
def stretches : (since : Option Nat) → (pos : Nat) → (s : List (Char × Bool)) → List Span
  | none, _, [] => []
  | some start, pos, [] => [⟨start, pos⟩]
  | since, pos, (c, true) :: s => stretches (some (since.getD pos)) (pos + c.utf8Size) s
  | none, pos, (c, false) :: s => stretches none (pos + c.utf8Size) s
  | some start, pos, (c, false) :: s => ⟨start, pos⟩ :: stretches none (pos + c.utf8Size) s

/-- The stretches of a source covered by strings and comments, in order. -/
def skippedRanges (s : List Char) : Array Span :=
  (stretches none 0 (marked s)).toArray

/-- The first index in `lo … hi` whose stretch ends after `pos`, for stretches in order. -/
def firstEndingAfter (spans : Array Span) (pos lo hi : Nat) : Nat :=
  if lo < hi then
    let mid := (lo + hi) / 2
    match spans[mid]? with
    | none => lo
    | some span =>
      if span.stop ≤ pos then firstEndingAfter spans pos (mid + 1) hi
      else firstEndingAfter spans pos lo mid
  else lo
termination_by hi - lo

/-- Whether `pos` lies in one of the stretches, which are in order. -/
def inSkipped (spans : Array Span) (pos : Nat) : Bool :=
  match spans[firstEndingAfter spans pos 0 spans.size]? with
  | some span => span.start ≤ pos
  | none => false

@[simp]
theorem length_marks (m : Mode) (s : List Char) : (marks m s).length = s.length := by
  fun_induction marks m s <;> simp_all

end SuiteScope.Source
