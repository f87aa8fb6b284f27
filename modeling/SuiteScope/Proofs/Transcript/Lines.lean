import SuiteScope.Proofs.Transcript.Block
import SuiteScope.Proofs.Transcript.Failure

/-!
# Entries line by line

A line reports a failed test (`Reports`) if it holds a cross, a space or tab behind it and at least
one more character. The entries of a transcript are those of the lines that report, in order :
`testNames_failures`. This does not depend on where the blocks are cut, as long as it is in front of
a line, nor on the blocks that are left out, as long as no line of them reports.

A text that ends a line and one that begins a block have the entries that each has on its own
(`failures_append_of_beginsBlock`) : the cuts of the two together are those of each
(`blocks_append`), and an entry is read from its block alone.
-/

namespace SuiteScope.Transcript

open SuiteScope.Text

/-- The lines of a text : the pieces between its newline characters. -/
def lines (s : List Char) : List (List Char) :=
  s.splitOn '\n'

/-- The line reports a failed test. -/
def Reports (line : List Char) : Prop :=
  ∃ a cross gap d b, line = a ++ cross :: gap :: d :: b ∧ isCross cross = true ∧ isGap gap = true

/-- What a line says behind its first cross that has a name. -/
def reportedName? : List Char → Option (List Char)
  | [] => none
  | c :: line => (failingName? (c :: line)).or (reportedName? line)

/-- The name of the test that a line reports. -/
def reportedTest (line : List Char) : String :=
  testName ((reportedName? line).getD [])

/-- The names on all lines of a text. -/
def reportedNames (s : List Char) : List (List Char) :=
  (lines s).filterMap reportedName?

/-- Nothing, or a text that ends with a newline. -/
def EndsLine (s : List Char) : Prop :=
  s = [] ∨ s.getLast? = some '\n'

instance (s : List Char) : Decidable (EndsLine s) :=
  inferInstanceAs (Decidable (_ ∨ _))

/-! ## Lines -/

theorem lines_cons_newline (s : List Char) : lines ('\n' :: s) = [] :: lines s :=
  List.splitOn_cons_eq_if_modifyHead '\n' s

theorem lines_cons {c : Char} (hc : c ≠ '\n') (s : List Char) :
    lines (c :: s) = (lines s).modifyHead (c :: ·) := by
  rw [lines, List.splitOn_cons_eq_if_modifyHead, if_neg (by simpa using hc)]
  rfl

/-- The first line is the rest of the line at the start. -/
theorem exists_lines (s : List Char) : ∃ rest, lines s = restOfLine s :: rest := by
  induction s with
  | nil => exact ⟨[], rfl⟩
  | cons c s ih =>
    obtain ⟨rest, hrest⟩ := ih
    by_cases hc : c = '\n'
    · subst hc
      exact ⟨_, lines_cons_newline s⟩
    · refine ⟨rest, ?_⟩
      rw [lines_cons hc, hrest, List.modifyHead_cons, restOfLine, restOfLine,
        List.takeWhile_cons_of_pos (by simpa using hc)]

/-- No line has a line end in it. -/
theorem newline_not_mem_of_mem_lines {s line : List Char} (h : line ∈ lines s) : '\n' ∉ line := by
  induction s generalizing line with
  | nil =>
    obtain rfl : line = [] := by simpa [lines] using h
    simp
  | cons c s ih =>
    by_cases hc : c = '\n'
    · rw [hc, lines_cons_newline, List.mem_cons] at h
      rcases h with rfl | h
      · simp
      · exact ih h
    · obtain ⟨rest, hrest⟩ := exists_lines s
      rw [lines_cons hc, hrest, List.modifyHead_cons, List.mem_cons] at h
      rcases h with rfl | h
      · rw [List.mem_cons, not_or]
        exact ⟨Ne.symm hc, ih (by rw [hrest]; exact List.mem_cons_self)⟩
      · exact ih (by rw [hrest]; exact List.mem_cons_of_mem _ h)

/-- A text is made of its lines. -/
theorem flatMap_lines (s : List Char) : (lines s).flatMap (· ++ ['\n']) = s ++ ['\n'] := by
  induction s with
  | nil => rfl
  | cons c s ih =>
    obtain ⟨rest, hrest⟩ := exists_lines s
    by_cases hc : c = '\n'
    · rw [hc, lines_cons_newline, List.flatMap_cons, ih]
      rfl
    · rw [hrest, List.flatMap_cons] at ih
      rw [lines_cons hc, hrest, List.modifyHead_cons, List.flatMap_cons, List.cons_append,
        List.cons_append, ih, List.cons_append]

/-! ## Lines that report -/

/-- A name needs a space or tab in front of it and at least one character of its own. -/
theorem isSome_lineValue? {s : List Char} :
    (lineValue? 1 s).isSome = true ↔ ∃ gap d b, s = gap :: d :: b ∧ isGap gap = true := by
  cases s with
  | nil => simp [lineValue?]
  | cons gap s =>
    cases hgap : isGap gap with
    | false =>
      rw [lineValue?_eq_none (by simpa using hgap) Nat.one_pos]
      simp [hgap]
    | true =>
      cases s with
      | nil => simp [lineValue?, hgap]
      | cons d b =>
        refine iff_of_true ?_ ⟨gap, d, b, rfl, hgap⟩
        cases hrest : (d :: b).dropWhile isGap with
        | nil =>
          have hall : (d :: b).takeWhile isGap = d :: b := by
            have happend := List.takeWhile_append_dropWhile (p := isGap) (l := d :: b)
            rwa [hrest, List.append_nil] at happend
          simp [lineValue?, hgap, hrest, hall]
        | cons e rest => simp [lineValue?, hgap, hrest]

/-- A name is read behind a cross and a gap. -/
theorem isSome_failingName?_cons {c : Char} {s : List Char} (hs : '\n' ∉ s) :
    (failingName? (c :: s)).isSome = true ↔
      ∃ gap d b, s = gap :: d :: b ∧ isCross c = true ∧ isGap gap = true := by
  have hrest : restOfLine s = s := List.takeWhile_eq_self_iff.mpr fun d hd => by
    rw [bne_iff_ne]
    rintro rfl
    exact hs hd
  rw [failingName?, hrest]
  cases isCross c with
  | false => simp
  | true => simpa using isSome_lineValue?

theorem reports_cons {c : Char} {s : List Char} :
    Reports (c :: s) ↔ (∃ gap d b, s = gap :: d :: b ∧ isCross c = true ∧ isGap gap = true) ∨
      Reports s := by
  constructor
  · rintro ⟨a, cross, gap, d, b, heq, hcross, hgap⟩
    cases a with
    | nil =>
      obtain ⟨rfl, rfl⟩ := List.cons.inj heq
      exact .inl ⟨gap, d, b, rfl, hcross, hgap⟩
    | cons e a =>
      obtain ⟨-, rfl⟩ := List.cons.inj heq
      exact .inr ⟨a, cross, gap, d, b, rfl, hcross, hgap⟩
  · rintro (⟨gap, d, b, rfl, hcross, hgap⟩ | ⟨a, cross, gap, d, b, rfl, hcross, hgap⟩)
    · exact ⟨[], c, gap, d, b, rfl, hcross, hgap⟩
    · exact ⟨c :: a, cross, gap, d, b, rfl, hcross, hgap⟩

/-- Whether a line reports a failed test. -/
def reports : List Char → Bool
  | [] => false
  | c :: line =>
    match line with
    | gap :: _ :: _ => (isCross c && isGap gap) || reports line
    | _ => false

/-- Whether a line reports a failure can be computed. -/
theorem reports_iff {line : List Char} : reports line = true ↔ Reports line := by
  fun_induction reports line with
  | case1 => simp [Reports]
  | case2 c gap d b ih => simp [reports_cons (c := c), ← ih]
  | case3 c line hshort =>
    refine iff_of_false (by decide) ?_
    rintro ⟨a, cross, gap, d, b, heq, -⟩
    have hlength := congrArg List.length heq
    match line with
    | [] => simp at hlength; omega
    | [_] => simp at hlength; omega
    | gap :: d :: b => exact hshort gap d b rfl

instance (line : List Char) : Decidable (Reports line) :=
  decidable_of_iff _ reports_iff

/-- A name is read from a line exactly if it reports a failure. -/
theorem isSome_reportedName? {line : List Char} (h : '\n' ∉ line) :
    (reportedName? line).isSome = true ↔ Reports line := by
  induction line with
  | nil => simp [reportedName?, Reports]
  | cons c line ih =>
    rw [List.mem_cons, not_or] at h
    rw [reportedName?, Option.isSome_or, Bool.or_eq_true, isSome_failingName?_cons h.2, ih h.2,
      reports_cons]

/-! ## Entries of a block -/

theorem toList_append_filterMap (line : List Char) (rest : List (List Char)) :
    (reportedName? line).toList ++ rest.filterMap reportedName? =
      (line :: rest).filterMap reportedName? := by
  rw [List.filterMap_cons]
  cases reportedName? line <;> rfl

/-- The failing lines of a text are named on its lines, except for the first if that has a failing
line already. -/
theorem map_name_failingLinesFrom {s line : List Char} {rest : List (List Char)}
    (h : lines s = line :: rest) (inName : Bool) (seen : List Char) :
    (failingLinesFrom inName seen s).2.map (·.name) =
      (if inName then [] else (reportedName? line).toList) ++ rest.filterMap reportedName? := by
  induction s generalizing line rest inName seen with
  | nil =>
    obtain ⟨rfl, rfl⟩ : [] = line ∧ [] = rest := by simpa [lines] using h
    cases inName <;> rfl
  | cons c s ih =>
    obtain ⟨others, hs⟩ := exists_lines s
    by_cases hc : c = '\n'
    · subst hc
      obtain ⟨rfl, rfl⟩ : [] = line ∧ lines s = rest := by simpa [lines_cons_newline] using h
      have hnone : failingName? ('\n' :: s) = none := rfl
      have hrest := ih hs false ('\n' :: seen)
      rw [if_neg (by decide), toList_append_filterMap, ← hs] at hrest
      rw [failingLinesFrom, if_neg (by simp), hnone]
      cases inName <;> exact hrest
    · obtain ⟨rfl, rfl⟩ : c :: restOfLine s = line ∧ others = rest := by
        simpa [lines_cons hc, hs] using h
      have hname : failingName? (c :: restOfLine s) = failingName? (c :: s) := by
        rw [failingName?, failingName?, restOfLine, restOfLine, List.takeWhile_idem]
      cases inName with
      | true =>
        rw [failingLinesFrom, if_pos (by simpa using hc)]
        exact ih hs true (c :: seen)
      | false =>
        rw [failingLinesFrom, if_neg (by simp), reportedName?, hname]
        cases failingName? (c :: s) with
        | some name => simp [ih hs true (c :: seen)]
        | none => simp [ih hs false (c :: seen)]

/-- The failing lines of a text are those that report a failure. -/
theorem map_name_failingLines (s : List Char) :
    (failingLines s).map (·.name) = reportedNames s := by
  obtain ⟨rest, hs⟩ := exists_lines s
  rw [failingLines, map_name_failingLinesFrom hs, if_neg (by decide), toList_append_filterMap, ← hs,
    reportedNames]

theorem map_testName_blockFailures (block : List Char) :
    (blockFailures block).map (·.testName) = (reportedNames block).map testName := by
  rw [blockFailures, List.map_map, ← map_name_failingLines, List.map_map]
  rfl

/-! ## Cuts at lines -/

/-- Names are read part by part, if the first part ends a line. -/
theorem reportedNames_append {a : List Char} (ha : EndsLine a) (b : List Char) :
    reportedNames (a ++ b) = reportedNames a ++ reportedNames b := by
  rcases ha with rfl | ha
  · rfl
  · obtain ⟨a, rfl⟩ := List.getLast?_eq_some_iff.mp ha
    have hnone : ([[]] : List (List Char)).filterMap reportedName? = [] := rfl
    simp only [reportedNames, lines, List.append_assoc, List.singleton_append,
      List.splitOn_append_cons_self, List.splitOn_nil, List.filterMap_append, hnone,
      List.append_nil]

/-- So they are for several parts. -/
theorem reportedNames_flatten {pieces : List (List Char)}
    (h : ∀ piece ∈ pieces.dropLast, EndsLine piece) :
    reportedNames pieces.flatten = pieces.flatMap reportedNames := by
  induction pieces with
  | nil => rfl
  | cons piece pieces ih =>
    cases pieces with
    | nil => simp
    | cons next pieces =>
      obtain ⟨hpiece, hpieces⟩ := List.forall_mem_cons.mp h
      rw [List.flatten_cons, List.flatMap_cons, reportedNames_append hpiece, ih hpieces]

/-- A transcript is cut in front of lines. -/
theorem endsLine_blocks (s : List Char) : ∀ block ∈ (blocks s).dropLast, EndsLine block := by
  fun_induction blocks s with
  | case1 => simp
  | case2 c s hs ih => simp
  | case3 c s b bs hs hcut ih =>
    rw [hs] at ih
    exact List.forall_mem_cons.mpr ⟨.inr (by rw [hcut.1]; rfl), ih⟩
  | case4 c s b bs hs hcut ih =>
    rw [hs] at ih
    cases bs with
    | nil => simp
    | cons next bs =>
      rw [List.dropLast_cons_cons, List.forall_mem_cons] at ih ⊢
      refine ⟨.inr ?_, ih.2⟩
      rcases ih.1 with rfl | hb
      · exact absurd rfl (ne_nil_of_mem_blocks (hs ▸ List.mem_cons_self))
      · rw [List.getLast?_cons, hb]
        rfl

/-- A block in which no line reports has no name. -/
theorem reportedNames_eq_nil {s : List Char} (h : ¬∃ line ∈ lines s, Reports line) :
    reportedNames s = [] :=
  List.filterMap_eq_nil_iff.mpr fun line hline => by
    rw [← Option.not_isSome_iff_eq_none, isSome_reportedName? (newline_not_mem_of_mem_lines hline)]
    exact fun hreports => h ⟨line, hline, hreports⟩

/-! ## Entries of a transcript -/

/-- The names do not depend on the cuts, nor on blocks left out in which no line reports. -/
theorem map_testName_flatMap {pieces : List (List Char)} {keep : List Char → Bool}
    (hends : ∀ piece ∈ pieces.dropLast, EndsLine piece)
    (hkeep : ∀ piece ∈ pieces, (∃ line ∈ lines piece, Reports line) → keep piece = true) :
    ((pieces.filter keep).flatMap blockFailures).map (·.testName) =
      (reportedNames pieces.flatten).map testName := by
  have hkept : (pieces.filter keep).flatMap reportedNames = pieces.flatMap reportedNames := by
    clear hends
    induction pieces with
    | nil => rfl
    | cons piece pieces ih =>
      obtain ⟨hpiece, hpieces⟩ := List.forall_mem_cons.mp hkeep
      rw [List.filter_cons]
      split
      · rw [List.flatMap_cons, List.flatMap_cons, ih hpieces]
      next h =>
        rw [List.flatMap_cons, reportedNames_eq_nil fun hreports => h (hpiece hreports),
          List.nil_append, ih hpieces]
  rw [reportedNames_flatten hends, ← hkept, List.map_flatMap, List.map_flatMap]
  simp only [map_testName_blockFailures]

theorem map_testName_reportedNames (s : List Char) :
    (reportedNames s).map testName = ((lines s).filter (Reports ·)).map reportedTest := by
  have hlines : ∀ line ∈ lines s, '\n' ∉ line := fun _ => newline_not_mem_of_mem_lines
  rw [reportedNames]
  generalize lines s = ls at hlines
  induction ls with
  | nil => rfl
  | cons line rest ih =>
    obtain ⟨hline, hrest⟩ := List.forall_mem_cons.mp hlines
    have hiff := isSome_reportedName? hline
    rw [List.filterMap_cons, List.filter_cons]
    cases hname : reportedName? line with
    | none =>
      rw [hname] at hiff
      rw [if_neg (by simpa using hiff), ih hrest]
    | some name =>
      rw [hname] at hiff
      rw [if_pos (by simpa using hiff), List.map_cons, List.map_cons, ih hrest, reportedTest, hname,
        Option.getD_some]

/-- There is one entry for each line that reports, in order, with the name on that line, wherever
the transcript is cut in front of lines and whichever blocks are left out in which no line
reports. -/
theorem testNames_failures (s : List Char) :
    (failures s).length = (lines s).countP (Reports ·) ∧
    (failures s).map (·.testName) = ((lines s).filter (Reports ·)).map reportedTest ∧
    ∀ (pieces : List (List Char)) (keep : List Char → Bool), pieces.flatten = s →
      (∀ piece ∈ pieces.dropLast, EndsLine piece) →
      (∀ piece ∈ pieces, (∃ line ∈ lines piece, Reports line) → keep piece = true) →
      ((pieces.filter keep).flatMap blockFailures).map (·.testName) =
        (failures s).map (·.testName) := by
  have hnames : (failures s).map (·.testName) = (reportedNames s).map testName := by
    have hall : ∀ block ∈ blocks s, (∃ line ∈ lines block, Reports line) →
        (fun _ : List Char => true) block = true := fun _ _ _ => rfl
    have hcut := map_testName_flatMap (endsLine_blocks s) hall
    rwa [flatten_blocks, List.filter_true, ← failures_eq_flatMap] at hcut
  refine ⟨?_, by rw [hnames, map_testName_reportedNames], ?_⟩
  · rw [← List.length_map Failure.testName, hnames, map_testName_reportedNames, List.length_map,
      List.countP_eq_length_filter]
  · rintro pieces keep rfl hends hkeep
    rw [map_testName_flatMap hends hkeep, hnames]

/-- A line cut off for itself, with another one in front of it that does not report, and a line with
two crosses. -/
theorem testNames_of_cut_lines :
    let s := "FAIL x\n × a 3ms\n×b\n✕ c × d".toList
    let pieces := ["FAIL x\n × a 3ms\n".toList, "×b\n".toList, "✕ c × d".toList]
    let keep : List Char → Bool := fun piece => piece.any isGap
    pieces.flatten = s ∧ (∀ piece ∈ pieces.dropLast, EndsLine piece) ∧
      (∀ piece ∈ pieces, (∃ line ∈ lines piece, Reports line) → keep piece = true) ∧
      (failures s).length = 2 ∧ (failures s).map (·.testName) = ["a", "c × d"] ∧
      ((pieces.filter keep).flatMap blockFailures).map (·.testName) = ["a", "c × d"] := by
  intro s pieces keep
  have hflat : pieces.flatten = s := by decide
  have hends : ∀ piece ∈ pieces.dropLast, EndsLine piece := by decide
  have hkeep : ∀ piece ∈ pieces, (∃ line ∈ lines piece, Reports line) → keep piece = true := by
    decide +kernel
  obtain ⟨hlength, hnames, hcut⟩ := testNames_failures s
  have hread : ((lines s).filter (Reports ·)).map reportedTest = ["a", "c × d"] := by
    decide +kernel
  refine ⟨hflat, hends, hkeep, ?_, by rw [hnames, hread], ?_⟩
  · rw [hlength]
    decide +kernel
  · rw [hcut pieces keep hflat hends hkeep, hnames, hread]

/-! ## Texts side by side -/

/-- A text that ends a line and one that begins a block keep their entries, whatever stands in
either. -/
theorem failures_append_of_beginsBlock {a b : List Char} (ha : EndsLine a) (hb : BeginsBlock b) :
    failures (a ++ b) = failures a ++ failures b := by
  rcases ha with rfl | ha
  · rfl
  · obtain ⟨block, rest, hblocks, hstart⟩ := exists_block hb
    rw [failures_eq_flatMap, failures_eq_flatMap, failures_eq_flatMap,
      blocks_append ha hblocks hstart, List.flatMap_append]

/-- A file, a message and a stack frame behind a test that has none of its own. -/
theorem failures_append_of_bare_cross :
    let a := "× alone\n".toList
    let b := "\tFAIL  x.spec.ts\n × b\n Error: no\n at f x.ts:3:4\n".toList
    EndsLine a ∧ BeginsBlock b ∧
      failures (a ++ b) =
        [⟨"alone", "Unknown File", "Test failed", none, none⟩,
          ⟨"b", "x.spec.ts", "no", some 3, some "at f x.ts:3:4"⟩] := by
  intro a b
  have ha : EndsLine a := by decide
  have hb : BeginsBlock b :=
    ⟨['\t'], "  x.spec.ts\n × b\n Error: no\n at f x.ts:3:4\n".toList, by decide,
      .inr ⟨by decide, by decide⟩⟩
  refine ⟨ha, hb, ?_⟩
  rw [failures_append_of_beginsBlock ha hb]
  decide +kernel

end SuiteScope.Transcript
