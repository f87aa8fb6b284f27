import SuiteScope.Proofs.Source.Sections

/-!
# Forests of sections

A `Forest` is a test source as one writes it : sections with live cases, cases that are commented
out, and sections within sections to any depth, and between the sections some that are commented
out. Labels are arbitrary as far as their quotes allow. The only demands on them are that those of
nested sections have no parenthesis, and those in comments no line end.

All pieces of a written forest are whole (`Whole`) : they are settled and close the blocks that they
open. So whatever the labels say, what stands between the line that opens a section and the line
that closes it is the block of that section (`whole_suite`, `Items.whole_render`).
-/

namespace SuiteScope.Source

open SuiteScope.Text

/-- The head of a section. -/
abbrev SectionCall := Call sectionCallees sectionModifiers

/-- The head of a case. -/
abbrev CaseCall := Call caseCallees caseModifiers

/-- What a section holds : live cases, cases commented out, and nested sections. -/
inductive Items
  | nil
  | live (case : CaseCall) (rest : Items)
  | muted (case : CaseCall) (oneLine : '\n' ∉ case.label.text) (rest : Items)
  | nested (head : SectionCall) (flat : '(' ∉ head.label.text) (inner rest : Items)

/-- Sections, and between them heads of sections that are commented out. -/
inductive Forest
  | nil
  | suite (head : SectionCall) (items : Items) (rest : Forest)
  | muted (head : SectionCall) (oneLine : '\n' ∉ head.label.text) (rest : Forest)

/-! ## Writing -/

/-- What separates the head of a call from the body of its callback. -/
def arrow : List Char :=
  ", () => ".toList

/-- The line of a case. -/
def caseLine (case : CaseCall) : List Char :=
  case.text ++ (arrow ++ "\x7b\x7d)\n".toList)

/-- The line that opens a section. -/
def openLine (head : SectionCall) : List Char :=
  head.text ++ (arrow ++ "\x7b\n".toList)

/-- The line that closes a section. -/
def closeLine : List Char :=
  "\x7d)\n".toList

/-- What puts a line into a comment. -/
def slashes : List Char :=
  "// ".toList

/-- The items of a section, line by line. -/
def Items.render : Items → List Char
  | .nil => []
  | .live case rest => caseLine case ++ rest.render
  | .muted case _ rest => slashes ++ (caseLine case ++ rest.render)
  | .nested head _ inner rest => openLine head ++ (inner.render ++ (closeLine ++ rest.render))

/-- The forest, line by line. -/
def Forest.render : Forest → List Char
  | .nil => []
  | .suite head items rest => openLine head ++ (items.render ++ (closeLine ++ rest.render))
  | .muted head _ rest => slashes ++ (openLine head ++ rest.render)

/-- The labels of the live cases, at any depth. -/
def Items.labels : Items → List String
  | .nil => []
  | .live case rest => String.ofList case.label.text :: rest.labels
  | .muted _ _ rest => rest.labels
  | .nested _ _ inner rest => inner.labels ++ rest.labels

/-- The live sections, each with the labels of its live cases. -/
def Forest.sections : Forest → List Section
  | .nil => []
  | .suite head items rest =>
    Section.ofList (String.ofList head.label.text) items.labels :: rest.sections
  | .muted _ _ rest => rest.sections

/-! ## Lines -/

/-- What stands behind the head of a call, up to the parenthesis that closes it. -/
def callback (body : List Char) : List Char :=
  arrow ++ '\x7b' :: (body ++ ['\x7d'])

section

variable {callees modifiers : List (List Char)}

/-- The name of a call is plain, so it is read to its end. -/
theorem Vocabulary.whole_name (h : Vocabulary callees modifiers) (call : Call callees modifiers) :
    Whole call.name := by
  have hname := List.all_eq_true.mp (h.all_name call)
  have hnot (c : Char) (hc : isNameChar c = false) : c ∉ call.name := fun hmem =>
    absurd (hname c hmem) (by simp [hc])
  have hdelimiters : ∀ d ∈ delimiters, isNameChar d.1 = false ∧ isNameChar d.2 = false := by decide
  refine whole_plain (List.all_eq_true.mpr fun c hc => isPlain_of_isNameChar (hname c hc)) ?_
  intro d hd
  exact depthAfter_eq_self (hnot _ (hdelimiters d hd).1) (hnot _ (hdelimiters d hd).2) 0

/-- A label with its quotes is a literal. -/
theorem Label.whole_written (label : Label) : Whole label.written :=
  whole_literal label.fits

theorem whole_arrow : Whole arrow :=
  whole_plain (by decide) (by decide)

/-- A callback may be passed over as a whole if its body may. -/
theorem whole_callback {body : List Char} (h : Whole body) : Whole (callback body) :=
  whole_arrow.append (h.enclosed (d := ('\x7b', '\x7d')) (by decide))

/-- A call up to its label, with what follows : its name, a parenthesis and the label. -/
theorem Call.text_append (call : Call callees modifiers) (s : List Char) :
    call.text ++ s = call.name ++ '(' :: (call.label.written ++ s) := by
  simp [Call.text]

/-- A call with a whole body is whole. -/
theorem Vocabulary.whole_call (h : Vocabulary callees modifiers) (call : Call callees modifiers)
    {body : List Char} (hbody : Whole body) :
    Whole (call.text ++ (callback body ++ [')', '\n'])) := by
  have harguments := (call.label.whole_written.append (whole_callback hbody)).enclosed
    (d := ('(', ')')) (by decide)
  have hline := ((h.whole_name call).append harguments).append
    (whole_plain (x := ['\n']) (by decide) (by decide))
  rw [call.text_append]
  simpa using hline

/-- A call up to its label is settled, and so is plain text behind it. -/
theorem Vocabulary.settled_line (h : Vocabulary callees modifiers) (call : Call callees modifiers)
    {tail : List Char} (htail : tail.all isPlain = true) : Settled (call.text ++ tail) := by
  have hparen : Settled ['('] := settled_of_plain (by decide)
  have hline := (((h.whole_name call).settled.append hparen).append
    call.label.whole_written.settled).append (settled_of_plain htail)
  rw [call.text_append]
  simpa using hline

/-- A call and what follows its label make one line if the label has no line end. -/
theorem Vocabulary.exists_line (h : Vocabulary callees modifiers) {call : Call callees modifiers}
    (hlabel : '\n' ∉ call.label.text) (tail : List Char) (htail : '\n' ∉ tail) :
    ∃ line, '\n' ∉ line ∧ line ≠ [] ∧ call.text ++ (tail ++ ['\n']) = line ++ ['\n'] := by
  have hname : '\n' ∉ call.name := fun hmem =>
    absurd (List.all_eq_true.mp (h.all_name call) _ hmem) (by decide)
  have hquote : call.label.quote.char ≠ '\n' := by cases call.label.quote <;> decide
  refine ⟨call.text ++ tail, ?_, by simp [call.text_ne_nil], by rw [List.append_assoc]⟩
  simp [Call.text, Label.written, literal, hname, hlabel, hquote.symm, htail]

end

/-- A case is a call with an empty callback. -/
theorem caseLine_eq (case : CaseCall) : caseLine case = case.text ++ (callback [] ++ [')', '\n']) :=
  rfl

/-- A suite is a call whose callback has the items of the suite in its body. -/
theorem suite_eq (head : SectionCall) (x s : List Char) :
    openLine head ++ (x ++ (closeLine ++ s)) =
      head.text ++ (callback ('\n' :: x) ++ ')' :: '\n' :: s) := by
  have hopen : "\x7b\n".toList = ['\x7b', '\n'] := by decide
  have hclose : closeLine = ['\x7d', ')', '\n'] := by decide
  simp [openLine, callback, hopen, hclose]

/-- A case may be passed over as a whole. -/
theorem whole_caseLine (case : CaseCall) : Whole (caseLine case) := by
  rw [caseLine_eq]
  exact vocabulary_case.whole_call case whole_nil

/-- A suite may be passed over as a whole if its items may. -/
theorem whole_suite (head : SectionCall) {x : List Char} (hx : Whole x) :
    Whole (openLine head ++ (x ++ closeLine)) := by
  have hbody : Whole ('\n' :: x) := (whole_plain (x := ['\n']) (by decide) (by decide)).append hx
  have heq := suite_eq head x []
  rw [List.append_nil] at heq
  rw [heq]
  exact vocabulary_section.whole_call head hbody

/-- The line that opens a suite leaves the reading in code. -/
theorem settled_openLine (head : SectionCall) : Settled (openLine head) :=
  vocabulary_section.settled_line head (by decide)

/-- So does the line that closes it. -/
theorem settled_closeLine : Settled closeLine :=
  settled_of_plain (by decide)

/-- A case is one line, unless its label has a line end. -/
theorem exists_caseLine {case : CaseCall} (h : '\n' ∉ case.label.text) :
    ∃ line, '\n' ∉ line ∧ line ≠ [] ∧ caseLine case = line ++ ['\n'] :=
  vocabulary_case.exists_line h (arrow ++ "\x7b\x7d)".toList) (by decide)

/-- So is the start of a suite. -/
theorem exists_openLine {head : SectionCall} (h : '\n' ∉ head.label.text) :
    ∃ line, '\n' ∉ line ∧ line ≠ [] ∧ openLine head = line ++ ['\n'] :=
  vocabulary_section.exists_line h (arrow ++ "\x7b".toList) (by decide)

/-! ## Lines in comments -/

/-- A line in a comment may be passed over as a whole, whatever is in it. -/
theorem whole_muted {line : List Char} (h : '\n' ∉ line) : Whole (slashes ++ (line ++ ['\n'])) :=
  whole_comment (x := ' ' :: line) (by simpa using h)

/-- A case in a comment may be passed over as a whole. -/
theorem whole_muted_caseLine {case : CaseCall} (h : '\n' ∉ case.label.text) :
    Whole (slashes ++ caseLine case) := by
  obtain ⟨line, hline, -, heq⟩ := exists_caseLine h
  rw [heq]
  exact whole_muted hline

/-- So may the start of a suite in a comment. -/
theorem whole_muted_openLine {head : SectionCall} (h : '\n' ∉ head.label.text) :
    Whole (slashes ++ openLine head) := by
  obtain ⟨line, hline, -, heq⟩ := exists_openLine h
  rw [heq]
  exact whole_muted hline

/-- The items of a suite may be passed over as a whole, by induction over them. -/
theorem Items.whole_render (items : Items) : Whole items.render := by
  induction items with
  | nil => exact whole_nil
  | live case rest ih => exact (whole_caseLine case).append ih
  | muted case oneLine rest ih =>
    rw [Items.render, ← List.append_assoc]
    exact (whole_muted_caseLine oneLine).append ih
  | nested head flat inner rest ihInner ih =>
    rw [Items.render, ← List.append_assoc inner.render, ← List.append_assoc]
    exact (whole_suite head ihInner).append ih

end SuiteScope.Source
