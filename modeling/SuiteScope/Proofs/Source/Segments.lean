import SuiteScope.Proofs.Source.Settled

/-!
# Segments of a source

A source is written as segments : code, strings in quotes, line comments and block comments, in any
order and right behind each other. Its last string or comment may lack its end (`Ending`). The bytes
of such a source that are skipped are those that a reader of its segments expects : all of a string
and of a block comment, a line comment up to its line end, and the whole ending
(`inSkipped_segments`).

A segment may hold the delimiters of all other kinds. It does not matter, because the marks of a
segment are its own, whatever follows it (`Segment.marked_append`).
-/

namespace SuiteScope.Source

open SuiteScope.Text

/-- A piece of a source that ends where the grammar says. -/
inductive Segment
  /-- Code without slashes and quotes. -/
  | code (s : List Char) (plain : s.all isPlain = true)
  | quoted (q : Quote) (s : List Char) (fits : q.fits s = true)
  /-- Two slashes and the rest of the line, its end included. -/
  | lineComment (s : List Char) (line : '\n' ∉ s)
  | blockComment (s : List Char) (unclosed : ¬['*', '/'] <:+: s)

/-- What a segment starts with : the part that is no code. -/
def Segment.skipped : Segment → List Char
  | code .. => []
  | quoted q s _ => literal q s
  | lineComment s _ => '/' :: '/' :: s
  | blockComment s _ => '/' :: '*' :: (s ++ ['*', '/'])

/-- What a segment ends with : the part that is code. -/
def Segment.live : Segment → List Char
  | code s _ => s
  | lineComment .. => ['\n']
  | quoted .. | blockComment .. => []

/-- The text of a segment. -/
def Segment.text (x : Segment) : List Char :=
  x.skipped ++ x.live

/-- The text of segments in a row. -/
def segmentsText (segments : List Segment) : List Char :=
  segments.flatMap Segment.text

/-- What may follow the last segment. -/
inductive Ending
  | nothing
  /-- A quote that is not closed. The source may end behind a backslash. -/
  | quoted (q : Quote) (s : List Char) (fits : q.fits s = true) (backslash : Bool)
  | lineComment (s : List Char) (line : '\n' ∉ s)
  | blockComment (s : List Char) (unclosed : ¬['*', '/'] <:+: s)

/-- The text of an ending. -/
def Ending.text : Ending → List Char
  | nothing => []
  | quoted q s _ backslash => q.char :: (s ++ if backslash then ['\\'] else [])
  | lineComment s _ => '/' :: '/' :: s
  | blockComment s _ => '/' :: '*' :: s

/-- Byte `p` lies in the part of one of the segments that is no code. -/
def InsideSegment (segments : List Segment) (p : Nat) : Prop :=
  ∃ before x after, segments = before ++ x :: after ∧ byteSize (segmentsText before) ≤ p ∧
    p < byteSize (segmentsText before ++ x.skipped)

/-! ## Marks of segments -/

theorem after_blockComment {c : Char} {next : Option Char} (h : ¬(c = '*' ∧ next = some '/')) :
    Mode.blockComment.after c next = .blockComment :=
  if_neg h

/-- A block comment goes on as long as its end has not come. The star of that end does not make one
with the last character before it. -/
theorem markedFrom_blockComment {x : List Char} (h : ¬['*', '/'] <:+: x) (s : List Char) :
    markedFrom .blockComment (x ++ '*' :: '/' :: s) =
      (x ++ ['*', '/']).map (·, true) ++ marked s := by
  induction x with
  | nil => rfl
  | cons c x ih =>
    have hx : ¬['*', '/'] <:+: x := fun hin => h (List.infix_cons hin)
    have hopen : ¬(c = '*' ∧ (x ++ '*' :: '/' :: s).head? = some '/') := by
      rintro ⟨rfl, hhead⟩
      cases x with
      | nil => simp at hhead
      | cons d x =>
        obtain rfl : d = '/' := by simpa using hhead
        exact h ⟨[], x, rfl⟩
    rw [List.cons_append, markedFrom_cons, after_blockComment hopen, ih hx]
    rfl

/-- A block comment that is not closed is skipped to the end. -/
theorem markedFrom_blockComment_end {x : List Char} (h : ¬['*', '/'] <:+: x) :
    markedFrom .blockComment x = x.map (·, true) := by
  induction x with
  | nil => rfl
  | cons c x ih =>
    have hx : ¬['*', '/'] <:+: x := fun hin => h (List.infix_cons hin)
    have hopen : ¬(c = '*' ∧ x.head? = some '/') := by
      rintro ⟨rfl, hhead⟩
      obtain ⟨tail, rfl⟩ := List.head?_eq_some_iff.mp hhead
      exact h ⟨[], tail, rfl⟩
    rw [markedFrom_cons, after_blockComment hopen, ih hx]
    rfl

/-- The star that opens a block comment is none that ends it. -/
theorem marked_blockOpening (x : List Char) :
    marked ('/' :: '*' :: x) = ['/', '*'].map (·, true) ++ markedFrom .blockComment x :=
  rfl

theorem marked_lineOpening (x : List Char) :
    marked ('/' :: '/' :: x) = ['/', '/'].map (·, true) ++ markedFrom .lineComment x :=
  rfl

/-- So is a comment in the last line. -/
theorem markedFrom_lineComment_end {x : List Char} (h : '\n' ∉ x) :
    markedFrom .lineComment x = x.map (·, true) := by
  induction x with
  | nil => rfl
  | cons c x ih =>
    rw [List.mem_cons, not_or] at h
    have hc : c ≠ '\n' := Ne.symm h.1
    simp [markedFrom_cons, Mode.skips, Mode.after, hc, ih h.2]

/-- So is a literal that is not closed. -/
theorem markedFrom_quoted_end {q : Quote} {x : List Char} (h : q.fits x = true)
    (backslash : Bool) :
    markedFrom (.quoted q) (x ++ if backslash then ['\\'] else []) =
      (x ++ if backslash then ['\\'] else []).map (·, true) := by
  fun_induction Quote.fits q x with
  | case1 => cases backslash <;> rfl
  | case2 c x ih => simp [markedFrom_cons, Mode.skips, Mode.after, ih h]
  | case3 c x _ ih =>
    simp only [Bool.and_eq_true, bne_iff_ne, ne_eq] at h
    simp [markedFrom_cons, Mode.skips, Mode.after, h, ih]

theorem marked_quote (q : Quote) (x : List Char) :
    marked (q.char :: x) = (q.char, true) :: markedFrom (.quoted q) x := by
  cases q <;> rfl

/-- The marks of a segment, whatever follows it. -/
theorem Segment.marked_append (x : Segment) (s : List Char) :
    marked (x.text ++ s) = x.skipped.map (·, true) ++ (x.live.map (·, false) ++ marked s) := by
  cases x with
  | code x plain => exact marked_plain plain s
  | quoted q x fits =>
    rw [text, skipped, live, List.append_nil]
    exact marked_literal fits s
  | lineComment x line =>
    rw [text, skipped, live, List.append_assoc, List.singleton_append]
    exact marked_comment line s
  | blockComment x unclosed =>
    have htext : (blockComment x unclosed).text ++ s = '/' :: '*' :: (x ++ '*' :: '/' :: s) := by
      simp [text, skipped, live]
    rw [htext, marked_blockOpening, markedFrom_blockComment unclosed]
    rfl

/-- An ending is skipped as a whole. -/
theorem Ending.marked_text (e : Ending) : marked e.text = e.text.map (·, true) := by
  cases e with
  | nothing => rfl
  | quoted q x fits backslash =>
    rw [text, marked_quote, markedFrom_quoted_end fits backslash]
    rfl
  | lineComment x line =>
    rw [text, marked_lineOpening, markedFrom_lineComment_end line]
    rfl
  | blockComment x unclosed =>
    rw [text, marked_blockOpening, markedFrom_blockComment_end unclosed]
    rfl

/-! ## Bytes of segments -/

theorem segmentsText_cons (x : Segment) (segments : List Segment) :
    segmentsText (x :: segments) = x.text ++ segmentsText segments :=
  List.flatMap_cons

/-- A byte in front of what follows a segment. -/
theorem Segment.covered_of_lt {x : Segment} {p : Nat} (h : p < byteSize x.text) (s : List Char) :
    covered (marked (x.text ++ s)) p = decide (p < byteSize x.skipped) := by
  rw [x.marked_append]
  rw [text, byteSize_append] at h
  rcases Nat.lt_or_ge p (byteSize x.skipped) with hlt | hge
  · rw [covered_map hlt, decide_eq_true hlt]
  · obtain ⟨k, rfl⟩ := Nat.exists_eq_add_of_le hge
    rw [covered_map_add, covered_map (by omega), decide_eq_false (by omega)]

/-- Every segment is settled. -/
theorem Segment.settled_text (x : Segment) : Settled x.text :=
  settled_of_append (l := x.skipped.map (·, true) ++ x.live.map (·, false)) fun s => by
    rw [x.marked_append, List.append_assoc]

/-- A place is inside the first segment or, counted from its end, inside another one. -/
theorem insideSegment_cons {x : Segment} {segments : List Segment} {p : Nat} :
    InsideSegment (x :: segments) p ↔
      p < byteSize x.skipped ∨ ∃ k, p = byteSize x.text + k ∧ InsideSegment segments k := by
  constructor
  · rintro ⟨before, y, after, heq, hle, hlt⟩
    cases before with
    | nil =>
      obtain ⟨rfl, -⟩ := List.cons.inj heq
      exact .inl hlt
    | cons z before =>
      obtain ⟨rfl, rfl⟩ := List.cons.inj heq
      rw [segmentsText_cons, byteSize_append] at hle
      rw [segmentsText_cons, List.append_assoc, byteSize_append] at hlt
      obtain ⟨k, rfl⟩ := Nat.exists_eq_add_of_le (Nat.le_of_add_right_le hle)
      exact .inr ⟨k, rfl, before, y, after, rfl, by omega, by omega⟩
  · rintro (hlt | ⟨k, rfl, before, y, after, rfl, hle, hlt⟩)
    · exact ⟨[], x, segments, rfl, Nat.zero_le p, hlt⟩
    · refine ⟨x :: before, y, after, rfl, ?_, ?_⟩
      · rw [segmentsText_cons, byteSize_append]
        omega
      · rw [segmentsText_cons, List.append_assoc, byteSize_append]
        omega

theorem not_insideSegment_nil (p : Nat) : ¬InsideSegment [] p := by
  rintro ⟨before, x, after, heq, -⟩
  cases before <;> cases heq

/-- Segment by segment it can be decided where a byte lies. -/
def decideInsideSegment : (segments : List Segment) → (p : Nat) → Decidable (InsideSegment segments p)
  | [], p => .isFalse (not_insideSegment_nil p)
  | x :: segments, p =>
    have := decideInsideSegment segments (p - byteSize x.text)
    decidable_of_iff (p < byteSize x.skipped ∨
        byteSize x.text ≤ p ∧ InsideSegment segments (p - byteSize x.text)) <| by
      rw [insideSegment_cons]
      refine or_congr_right ⟨fun ⟨hle, h⟩ => ⟨_, by omega, h⟩, ?_⟩
      rintro ⟨k, rfl, h⟩
      exact ⟨Nat.le_add_right _ _, by rwa [Nat.add_sub_cancel_left]⟩

instance (segments : List Segment) (p : Nat) : Decidable (InsideSegment segments p) :=
  decideInsideSegment segments p

/-- All bytes of an ending are skipped. -/
theorem Ending.covered_text (e : Ending) (p : Nat) :
    covered (marked e.text) p = true ↔ p < byteSize e.text := by
  rw [e.marked_text, ← List.append_nil (e.text.map _)]
  rcases Nat.lt_or_ge p (byteSize e.text) with hlt | hge
  · exact iff_of_true (covered_map hlt true []) hlt
  · obtain ⟨k, rfl⟩ := Nat.exists_eq_add_of_le hge
    rw [covered_map_add]
    exact iff_of_false nofun (Nat.not_lt_of_le hge)

/-- A byte of a source in segments is skipped if it lies in a string, in a block comment, in a line
comment before its line end, or in the ending. -/
theorem inSkipped_segments (segments : List Segment) (ending : Ending) (p : Nat) :
    inSkipped (skippedRanges (segmentsText segments ++ ending.text)) p = true ↔
      InsideSegment segments p ∨
        byteSize (segmentsText segments) ≤ p ∧
          p < byteSize (segmentsText segments ++ ending.text) := by
  rw [inSkipped_skippedRanges]
  induction segments generalizing p with
  | nil =>
    have hnil : segmentsText [] = [] := rfl
    rw [hnil, List.nil_append, ending.covered_text, or_iff_right (not_insideSegment_nil p)]
    exact (and_iff_right (Nat.zero_le p)).symm
  | cons x segments ih =>
    rw [segmentsText_cons, List.append_assoc, insideSegment_cons]
    rcases Nat.lt_or_ge p (byteSize x.text) with hlt | hge
    · rw [Segment.covered_of_lt hlt, decide_eq_true_iff]
      refine ⟨fun h => .inl (.inl h), ?_⟩
      rintro ((hskip | ⟨k, rfl, -⟩) | ⟨hle, -⟩)
      · exact hskip
      · omega
      · rw [byteSize_append] at hle
        omega
    · obtain ⟨k, rfl⟩ := Nat.exists_eq_add_of_le hge
      rw [x.settled_text.covered_add, ih k, byteSize_append x.text, byteSize_append x.text,
        Nat.add_le_add_iff_left, Nat.add_lt_add_iff_left]
      refine or_congr_left ⟨fun h => .inr ⟨k, rfl, h⟩, ?_⟩
      rintro (hskip | ⟨j, hj, h⟩)
      · rw [Segment.text, byteSize_append] at hskip
        omega
      · obtain rfl : k = j := by omega
        exact h

/-- Code, a string with the opening of a comment, a comment with a quote, and code again. -/
def mixedSegments : List Segment :=
  [.code "f(".toList (by decide), .quoted .single "/*".toList (by decide),
    .lineComment " don't".toList (by decide), .code ")".toList (by decide)]

/-- Behind the segments a string is left open. The string and the comment are skipped, and so is what is
left open, but not the line end and the code behind the comment. -/
theorem inSkipped_of_mixedSegments :
    let ending : Ending := .quoted .double "x".toList (by decide) true
    let text := segmentsText mixedSegments ++ ending.text
    text = "f('/*'// don't\n)\"x\\".toList ∧
      inSkipped (skippedRanges text) 3 = true ∧ inSkipped (skippedRanges text) 12 = true ∧
      inSkipped (skippedRanges text) 16 = true ∧ inSkipped (skippedRanges text) 14 = false := by
  intro ending text
  refine ⟨by decide, ?_, ?_, ?_, ?_⟩
  · exact (inSkipped_segments mixedSegments ending 3).mpr (by decide)
  · exact (inSkipped_segments mixedSegments ending 12).mpr (by decide)
  · exact (inSkipped_segments mixedSegments ending 16).mpr (by decide)
  · rw [← Bool.not_eq_true, inSkipped_segments]
    decide

end SuiteScope.Source
