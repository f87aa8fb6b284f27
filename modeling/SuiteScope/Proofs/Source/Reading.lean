import SuiteScope.Proofs.Source.Forest

/-!
# Reading a forest

Mining a written forest finds its sections in order, each with the labels of the live cases anywhere
in it, and then what the text behind the forest reports on its own : `sections_render`. A walk over
the items of a section meets their cases one by one (`Items.liveLabels_render`), each section is
reported by itself (`sections_suite`), and one that is commented out is passed over
(`sections_muted`).
-/

namespace SuiteScope.Source

open SuiteScope.Text

/-- The match of a head behind `a`. -/
def headAt {callees modifiers : List (List Char)} (a : List Char) (call : Call callees modifiers) :
    Match CallHead :=
  ⟨⟨byteSize a, byteSize (a ++ call.text)⟩, call.head⟩

/-- The case heads that a search meets from the end of `a` on. -/
def casesAfter (a s : List Char) : List (Match CallHead) :=
  walkAfter caseHead? (fun m => some m.span.stop) a s

/-- The labels of the matches that are not skipped, for a search that starts at `start`. -/
def liveLabels (spans : Array Span) (start : Nat) (found : List (Match CallHead)) : List String :=
  (found.filter fun m => !inSkipped spans (start + m.span.start)).map (·.value.label)

/-- From the end of `a` on the stretches are those of the text `s`. -/
def Answers (spans : Array Span) (a s : List Char) : Prop :=
  ∀ p, inSkipped spans (byteSize a + p) = covered (marked s) p

/-- Behind settled text the ranges of the whole text answer for the rest. -/
theorem Settled.answers {a : List Char} (h : Settled a) (s : List Char) :
    Answers (skippedRanges (a ++ s)) a s := fun p => by
  rw [inSkipped_skippedRanges, h.covered_add]

/-- They do so behind more settled text. -/
theorem Answers.behind {spans : Array Span} {a x s : List Char} (h : Answers spans a (x ++ s))
    (hx : Settled x) : Answers spans (a ++ x) s := fun p => by
  rw [byteSize_append, Nat.add_assoc, h, hx.covered_add]

/-! ## Case heads on a line -/

theorem Vocabulary.covered_text {callees modifiers : List (List Char)}
    (h : Vocabulary callees modifiers) (call : Call callees modifiers) (s : List Char) :
    covered (marked (call.text ++ s)) 0 = false := by
  obtain ⟨hne, hname⟩ := h.callees_name _ call.callee_mem
  obtain ⟨c, callee, hcallee⟩ := List.exists_cons_of_ne_nil hne
  rw [hcallee, List.all_cons, Bool.and_eq_true] at hname
  rw [call.text_append, Call.name, hcallee]
  exact covered_plain (isPlain_of_isNameChar hname.1) _

theorem casesAfter_text {a : List Char} (ha : isWordStart a.getLast? = true) (case : CaseCall)
    (s : List Char) :
    casesAfter a (case.text ++ s) = headAt a case :: casesAfter (a ++ case.text) s :=
  walkAfter_found case.text_ne_nil (vocabulary_case.callHead?_text case ha s) (by simp [headAt]) rfl
    rfl

theorem casesAfter_idle {a x : List Char} (hx : idle caseCallees a.getLast? x = true)
    (s : List Char) : casesAfter a (x ++ s) = casesAfter (a ++ x) s :=
  walkAfter_quiet (vocabulary_case.quiet_of_idle hx s)

/-- A case is found where it is written, and the search goes on behind its line. -/
theorem casesAfter_caseLine {a : List Char} (ha : isWordStart a.getLast? = true) (case : CaseCall)
    (s : List Char) :
    casesAfter a (caseLine case ++ s) = headAt a case :: casesAfter (a ++ caseLine case) s := by
  rw [caseLine, List.append_assoc, casesAfter_text ha, casesAfter_idle rfl, List.append_assoc]

/-- A case in a comment is found as well, and it is dropped later. -/
theorem casesAfter_muted (a : List Char) (case : CaseCall) (s : List Char) :
    casesAfter a (slashes ++ (caseLine case ++ s)) =
      headAt (a ++ slashes) case :: casesAfter (a ++ slashes ++ caseLine case) s := by
  have hb : isWordStart (a ++ slashes).getLast? = true := by
    rw [List.getLast?_append]
    rfl
  rw [casesAfter_idle rfl, casesAfter_caseLine hb]

/-- No case starts in the line that opens a section whose label has no parenthesis. -/
theorem casesAfter_openLine {a : List Char} (ha : a.getLast? = some '\n') {head : SectionCall}
    (flat : '(' ∉ head.label.text) (s : List Char) :
    casesAfter a (openLine head ++ s) = casesAfter (a ++ openLine head) s := by
  have hname : idle caseCallees (some '\n') (head.name ++ ['(']) = true := by
    have hall : ∀ callee ∈ sectionCallees, ∀ modifier ∈ [] :: sectionModifiers,
        idle caseCallees (some '\n') (callee ++ modifier ++ ['(']) = true := by decide
    exact hall _ head.callee_mem _ head.modifier_mem
  have hlabel : '(' ∉ head.label.quote.char :: head.label.text := by
    have hquote : head.label.quote.char ≠ '(' := by cases head.label.quote <;> decide
    simp [flat, hquote.symm]
  have hquiet (b t : List Char) :
      casesAfter b (head.label.written ++ t) = casesAfter (b ++ head.label.written) t :=
    walkAfter_quiet (vocabulary_case.quiet_of_no_parenthesis hlabel head.label.quote _ t)
  have hsplit (t : List Char) :
      head.text ++ t = (head.name ++ ['(']) ++ (head.label.written ++ t) := by
    simp [head.text_append]
  rw [openLine, List.append_assoc, hsplit, casesAfter_idle (by rw [ha]; exact hname), hquiet,
    casesAfter_idle rfl, hsplit]
  simp only [List.append_assoc]

theorem casesAfter_closeLine (a s : List Char) :
    casesAfter a (closeLine ++ s) = casesAfter (a ++ closeLine) s :=
  casesAfter_idle rfl s

/-! ## The items of a section -/

theorem getLast?_openLine (a : List Char) (head : SectionCall) :
    (a ++ openLine head).getLast? = some '\n' := by
  rw [openLine, List.getLast?_append, List.getLast?_append]
  rfl

theorem getLast?_caseLine (a : List Char) (case : CaseCall) :
    (a ++ caseLine case).getLast? = some '\n' := by
  rw [caseLine, List.getLast?_append, List.getLast?_append]
  rfl

theorem liveLabels_cons (spans : Array Span) (start : Nat) (m : Match CallHead)
    (found : List (Match CallHead)) :
    liveLabels spans start (m :: found) =
      (if inSkipped spans (start + m.span.start) then [] else [m.value.label]) ++
        liveLabels spans start found := by
  unfold liveLabels
  rw [List.filter_cons]
  cases inSkipped spans (start + m.span.start) <;> rfl

/-- What follows two slashes on a line is skipped. -/
theorem covered_muted {line : List Char} (hline : '\n' ∉ line) (hne : line ≠ []) (s : List Char) :
    covered (marked (slashes ++ (line ++ '\n' :: s))) (byteSize slashes) = true := by
  have hspace : '\n' ∉ ' ' :: line := by simpa using hline
  obtain ⟨c, line, rfl⟩ := List.exists_cons_of_ne_nil hne
  have hlt : byteSize slashes < byteSize ('/' :: '/' :: ' ' :: c :: line) := by
    have hc := c.utf8Size_pos
    have hsize : byteSize slashes = byteSize ['/', '/', ' '] := rfl
    simp only [hsize, byteSize_cons, byteSize_nil]
    omega
  have hmarks := marked_comment hspace s
  exact (congrArg (covered · (byteSize slashes)) hmarks).trans (covered_map hlt true _)

/-- A case in the code is live. -/
theorem inSkipped_caseLine {spans : Array Span} {a b s : List Char} {case : CaseCall}
    (h : Answers spans (a ++ b) (caseLine case ++ s)) :
    inSkipped spans (byteSize a + (headAt b case).span.start) = false := by
  have hplace := h 0
  rw [caseLine, List.append_assoc, vocabulary_case.covered_text] at hplace
  simpa [headAt] using hplace

/-- A case in a comment is not. -/
theorem inSkipped_muted {spans : Array Span} {a b s : List Char} {case : CaseCall}
    (oneLine : '\n' ∉ case.label.text)
    (h : Answers spans (a ++ b) (slashes ++ (caseLine case ++ s))) :
    inSkipped spans (byteSize a + (headAt (b ++ slashes) case).span.start) = true := by
  obtain ⟨line, hline, hne, heq⟩ := exists_caseLine oneLine
  have hplace := h (byteSize slashes)
  rw [heq, List.append_assoc, List.singleton_append, covered_muted hline hne] at hplace
  simpa [headAt, Nat.add_assoc] using hplace

/-- A search through written items meets their live cases in order. All other heads that it meets
are skipped. -/
theorem Items.liveLabels_render (items : Items) {spans : Array Span} {a b y z : List Char}
    (hb : b.getLast? = some '\n') (h : Answers spans (a ++ b) (items.render ++ (y ++ z))) :
    liveLabels spans (byteSize a) (casesAfter b (items.render ++ y)) =
      items.labels ++ liveLabels spans (byteSize a) (casesAfter (b ++ items.render) y) := by
  have hword : isWordStart (some '\n') = true := by decide
  induction items generalizing b y z with
  | nil => simp [Items.render, Items.labels]
  | live case rest ih =>
    simp only [Items.render, List.append_assoc] at h ⊢
    have hnext := getLast?_caseLine b case
    have hbehind := h.behind (whole_caseLine case).settled
    rw [List.append_assoc] at hbehind
    rw [casesAfter_caseLine (by rw [hb, hword]), liveLabels_cons, inSkipped_caseLine h,
      ih hnext hbehind, List.append_assoc]
    rfl
  | muted case oneLine rest ih =>
    simp only [Items.render, List.append_assoc] at h ⊢
    have hnext := getLast?_caseLine (b ++ slashes) case
    have hbehind := Answers.behind (x := slashes ++ caseLine case) (by simpa using h)
      (whole_muted_caseLine oneLine).settled
    rw [casesAfter_muted, liveLabels_cons, inSkipped_muted oneLine h,
      ih hnext (by simpa using hbehind)]
    simp only [List.append_assoc]
    rfl
  | nested head flat inner rest ihInner ih =>
    simp only [Items.render, List.append_assoc] at h ⊢
    have hopen := getLast?_openLine b head
    have hclose : (b ++ openLine head ++ inner.render ++ closeLine).getLast? = some '\n' := by
      rw [List.getLast?_append]
      rfl
    have hinner := h.behind (settled_openLine head)
    have hrest := (hinner.behind inner.whole_render.settled).behind settled_closeLine
    rw [casesAfter_openLine hb flat, ihInner (y := closeLine ++ (rest.render ++ y)) (z := z) hopen,
      casesAfter_closeLine, ih (z := z) hclose]
    · simp only [Items.labels, List.append_assoc]
    · simpa using hrest
    · simpa using hinner

/-! ## Sections -/

theorem sectionsAfter_idle {a x : List Char} (hx : idle sectionCallees a.getLast? x = true)
    (s : List Char) : sectionsAfter a (x ++ s) = sectionsAfter (a ++ x) s := by
  rw [sectionsAfter, sectionsAfter, List.append_assoc, sectionHead?,
    walkAfter_quiet (vocabulary_section.quiet_of_idle hx s)]

/-- A head that claims the text `x` behind it is reported, and the walk goes on behind `x`. -/
theorem sectionsAfter_head {a : List Char} (ha : isWordStart a.getLast? = true) (head : SectionCall)
    {x s : List Char}
    (hresume : (visitOf (a ++ (head.text ++ (x ++ s))) (headAt a head)).resume =
      some (byteSize (a ++ (head.text ++ x)))) :
    sectionsAfter a (head.text ++ (x ++ s)) =
      (sectionOf (a ++ (head.text ++ (x ++ s))) (headAt a head)).toList ++
        sectionsAfter (a ++ (head.text ++ x)) s := by
  have hread := vocabulary_section.callHead?_text head ha (x ++ s)
  let next := fun m => (visitOf (a ++ (head.text ++ (x ++ s))) m).resume
  have hwalk : walkAfter (callHead? sectionCallees sectionModifiers) next a (head.text ++ x ++ s) =
      headAt a head :: walkAfter (callHead? sectionCallees sectionModifiers) next
        (a ++ (head.text ++ x)) s :=
    walkAfter_found (by simp [head.text_ne_nil]) (by simpa using hread) (by simp [headAt])
      hresume rfl
  rw [List.append_assoc] at hwalk
  rw [sectionsAfter, sectionHead?, hwalk, sectionsAfter]
  simp only [List.append_assoc, List.filterMap_cons]
  cases sectionOf (a ++ (head.text ++ (x ++ s))) (headAt a head) <;> rfl

/-- A section that is commented out is passed over. -/
theorem sections_muted {head : SectionCall} (oneLine : '\n' ∉ head.label.text) (s : List Char) :
    sections (slashes ++ (openLine head ++ s)) = sections s := by
  have hvisit : visitOf (slashes ++ (openLine head ++ s)) (headAt slashes head) =
      ⟨headAt slashes head, .inert⟩ := by
    obtain ⟨line, hline, hne, heq⟩ := exists_openLine oneLine
    have hskip : inSkipped (skippedRanges (slashes ++ (openLine head ++ s)))
        (headAt slashes head).span.start = true := by
      rw [inSkipped_skippedRanges, heq, List.append_assoc]
      exact covered_muted hline hne s
    rw [visitOf, extentOf, if_pos hskip]
  have hword : isWordStart (slashes ++ openLine head).getLast? = true := by
    rw [getLast?_openLine]
    decide
  calc sections (slashes ++ (openLine head ++ s))
      = sectionsAfter slashes (head.text ++ ([] ++ (arrow ++ "\x7b\n".toList ++ s))) := by
        rw [sections_eq, sectionsAfter_idle rfl, openLine, List.append_assoc]
        rfl
    _ = sectionsAfter (slashes ++ (head.text ++ [])) (arrow ++ "\x7b\n".toList ++ s) := by
        rw [sectionsAfter_head (by decide), List.nil_append, ← List.append_assoc head.text,
          ← openLine, sectionOf, hvisit]
        · rfl
        · rw [List.nil_append, ← List.append_assoc head.text, ← openLine, hvisit]
          simp [Visit.resume, headAt]
    _ = sectionsAfter (slashes ++ openLine head) s := by
        rw [sectionsAfter_idle rfl, List.append_nil, List.append_assoc, openLine]
    _ = sections s := sectionsAfter_eq_sections (whole_muted_openLine oneLine).settled hword s

/-- A section with a whole body runs up to the brace that closes its callback. -/
theorem visitOf_call (head : SectionCall) {body : List Char} (hbody : Whole body) (s : List Char) :
    visitOf (head.text ++ (callback body ++ ')' :: '\n' :: s)) (headAt [] head) =
      ⟨headAt [] head, .body (byteSize (head.text ++ arrow))
        (some (byteSize (head.text ++ (arrow ++ '\x7b' :: body))))⟩ := by
  have hskip := inSkipped_skippedRanges (head.text ++ (callback body ++ ')' :: '\n' :: s)) 0
  rw [vocabulary_section.covered_text] at hskip
  have hcall := matchingClose?_enclosed (d := ('(', ')')) (by decide)
    (head.label.whole_written.append (whole_callback hbody)) head.name ('\n' :: s)
  rw [List.append_assoc, ← head.text_append] at hcall
  have hsplit : head.text ++ (callback body ++ ')' :: '\n' :: s) =
      head.text ++ (arrow ++ '\x7b' :: (body ++ '\x7d' :: ')' :: '\n' :: s)) := by
    simp [callback]
  have hopening := blockOpen?_plain (x := arrow) (by decide) (by decide) head.text
    (body ++ '\x7d' :: ')' :: '\n' :: s)
  have hclosing := matchingClose?_enclosed (d := ('\x7b', '\x7d')) (by decide) hbody
    (head.text ++ arrow) (')' :: '\n' :: s)
  rw [List.append_assoc, ← hsplit] at hclosing
  rw [← hsplit] at hopening
  have hinside : byteSize (head.text ++ arrow) <
      byteSize (head.name ++ '(' :: (head.label.written ++ callback body)) := by
    have hbrace : Char.utf8Size '\x7b' = 1 := rfl
    rw [← head.text_append]
    simp only [callback, byteSize_append, byteSize_cons, hbrace]
    omega
  simp only [visitOf, extentOf, headAt, Call.head, List.nil_append, byteSize_nil, Nat.zero_add,
    hskip, hcall, hopening, hclosing, Option.filter_some, beforeEnd, Option.all_some, hinside,
    decide_true, Bool.false_eq_true, if_false, if_true, List.append_assoc]

/-- The live cases in the body of a section are those of its items. -/
theorem caseLabels_call (head : SectionCall) (items : Items) (s : List Char) :
    caseLabels (head.text ++ (callback ('\n' :: items.render) ++ s))
        (skippedRanges (head.text ++ (callback ('\n' :: items.render) ++ s)))
        (byteSize (head.text ++ arrow))
        (some (byteSize (head.text ++ (arrow ++ '\x7b' :: '\n' :: items.render)))) =
      items.labels := by
  obtain ⟨a, ha⟩ : ∃ a, a = head.text ++ (arrow ++ ['\x7b']) := ⟨_, rfl⟩
  have hsource : head.text ++ (callback ('\n' :: items.render) ++ s) =
      a ++ ('\n' :: items.render ++ '\x7d' :: s) := by
    simp [ha, callback]
  have hopening : byteSize (head.text ++ arrow) + 1 = byteSize a := by
    have hbrace : Char.utf8Size '\x7b' = 1 := rfl
    simp [ha, hbrace, Nat.add_assoc]
  have hclosing : head.text ++ (arrow ++ '\x7b' :: '\n' :: items.render) =
      a ++ '\n' :: items.render := by
    simp [ha]
  have hsettled : Settled (a ++ ['\n']) := by
    rw [ha, List.append_assoc, List.append_assoc]
    exact vocabulary_section.settled_line head (by decide)
  have hanswers := hsettled.answers (items.render ++ ([] ++ '\x7d' :: s))
  rw [List.append_assoc] at hanswers
  have hlabels := items.liveLabels_render (y := []) (b := ['\n']) rfl hanswers
  rw [hsource, hclosing, caseLabels]
  simp only [hopening, Option.getD_some, slice_byteSize, findAll_eq_walkAfter]
  rw [← casesAfter, ← List.singleton_append, casesAfter_idle (by decide)]
  simpa [casesAfter, walkAfter, walkFrom, liveLabels] using hlabels

/-- A section is reported with the labels of the live cases among its items. -/
theorem sections_suite (head : SectionCall) (items : Items) (s : List Char) :
    sections (openLine head ++ (items.render ++ (closeLine ++ s))) =
      Section.ofList (String.ofList head.label.text) items.labels :: sections s := by
  have hbody : Whole ('\n' :: items.render) :=
    (whole_plain (x := ['\n']) (by decide) (by decide)).append items.whole_render
  have hvisit := visitOf_call head hbody s
  have hsection : sectionOf (head.text ++ (callback ('\n' :: items.render) ++ ')' :: '\n' :: s))
      (headAt [] head) = some (Section.ofList (String.ofList head.label.text) items.labels) := by
    rw [sectionOf, hvisit, Visit.section?]
    simp only [caseLabels_call]
    rfl
  have hresume : (visitOf (head.text ++ (callback ('\n' :: items.render) ++ ')' :: '\n' :: s))
      (headAt [] head)).resume =
        some (byteSize (head.text ++ callback ('\n' :: items.render))) := by
    have hbrace : Char.utf8Size '\x7d' = 1 := rfl
    rw [hvisit]
    simp [Visit.resume, callback, hbrace, Nat.add_assoc]
  have hend : (head.text ++ callback ('\n' :: items.render) ++ [')', '\n']).getLast? =
      some '\n' := by
    rw [List.getLast?_append]
    rfl
  have hsettled := (vocabulary_section.whole_call head hbody).settled
  rw [← List.append_assoc] at hsettled
  calc sections (openLine head ++ (items.render ++ (closeLine ++ s)))
      = sectionsAfter [] (head.text ++ (callback ('\n' :: items.render) ++ ')' :: '\n' :: s)) := by
        rw [sections_eq, suite_eq]
    _ = Section.ofList (String.ofList head.label.text) items.labels ::
          sectionsAfter (head.text ++ callback ('\n' :: items.render)) ([')', '\n'] ++ s) := by
        rw [sectionsAfter_head (by decide) head hresume, List.nil_append, hsection]
        rfl
    _ = Section.ofList (String.ofList head.label.text) items.labels :: sections s := by
        rw [sectionsAfter_idle rfl, sectionsAfter_eq_sections hsettled (by rw [hend]; decide)]

/-- Mining a written forest finds the live sections in order, each with the labels of the live cases
in it, and then the sections of the text behind the forest. -/
theorem sections_render (forest : Forest) (s : List Char) :
    sections (forest.render ++ s) = forest.sections ++ sections s := by
  induction forest with
  | nil => rfl
  | suite head items rest ih =>
    simp only [Forest.render, List.append_assoc]
    rw [sections_suite, ih]
    rfl
  | muted head oneLine rest ih =>
    simp only [Forest.render, List.append_assoc]
    rw [sections_muted oneLine, ih]
    rfl

/-- A section with a live case, one that is commented out, and a nested section, all with delimiters in
their labels. Behind it, the head of a section that is commented out. -/
def crowdedForest : Forest :=
  .suite ⟨"describe".toList, [], ⟨.single, "a) \x7b".toList, rfl⟩, by decide, by decide⟩
    (.live ⟨"it".toList, ".only".toList, ⟨.double, "b // (".toList, rfl⟩, by decide, by decide⟩
      (.muted ⟨"test".toList, [], ⟨.single, "c \x7d".toList, rfl⟩, by decide, by decide⟩ (by decide)
        (.nested ⟨"describe".toList, [], ⟨.single, "d".toList, rfl⟩, by decide, by decide⟩ (by decide)
          (.live ⟨"it".toList, [], ⟨.backtick, "e\n/*".toList, rfl⟩, by decide, by decide⟩ .nil) .nil)))
    (.muted ⟨"describe".toList, [], ⟨.double, "f".toList, rfl⟩, by decide, by decide⟩ (by decide) .nil)

/-- A suite with brackets in its name, cases whose labels look like comments and one that is
commented out, and a section of other text behind it. -/
theorem sections_of_crowdedForest :
    sections (crowdedForest.render ++ "describe('g', () => \x7b it('h') \x7d)".toList) =
      [⟨"a) \x7b", ["b // (", "e\n/*"]⟩, ⟨"g", ["h"]⟩] :=
  (sections_render crowdedForest _).trans (by decide +kernel)

end SuiteScope.Source
