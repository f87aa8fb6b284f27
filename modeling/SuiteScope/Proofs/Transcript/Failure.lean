import Mathlib.Data.List.TakeWhile
import SuiteScope.Proofs.Text.Digit
import SuiteScope.Proofs.Text.Line
import SuiteScope.Proofs.Text.Search
import SuiteScope.Transcript.Failure

/-!
# What the parts of an entry are read from

One statement for each part of an entry, with whatever text around it that cannot be mistaken for
it. The entries of a transcript are those of its blocks (`failures_eq_flatMap`). A timing behind a
name is dropped and nothing else (`testName_append`), the path of a test file is found if no other
follows (`originFile_append`), and an arrow gives the message where no label does
(`errorIn?_arrow`).
-/

namespace SuiteScope.Transcript

open SuiteScope.Text

/-! ## Failing lines -/

/-- The name after a cross, as a recognizer. -/
def failing? : Recognizer (List Char) := fun _ s =>
  (failingName? s).map (·, [])

theorem failing?_eq_none_of_ne_cross {c : Char} (h : isCross c = false) (before : Option Char)
    (s : List Char) : failing? before (c :: s) = none := by
  simp [failing?, failingName?, h]

/-- A cross marks no line if no gap follows it. -/
theorem failing?_eq_none_of_next {c d : Char} (h : isGap d = false) (before : Option Char)
    (s : List Char) : failing? before (c :: d :: s) = none := by
  have hhead : ∀ e ∈ (restOfLine (d :: s)).head?, isGap e = false := by
    intro e he
    rw [restOfLine, List.takeWhile_cons] at he
    split at he
    · obtain rfl : d = e := by simpa using he
      exact h
    · simp at he
  simp [failing?, failingName?, lineValue?_eq_none hhead]

theorem quiet_failing_of_no_cross {x : List Char} (h : x.any isCross = false)
    (before : Option Char) (y : List Char) : Quiet failing? before x y :=
  quiet_of_forall fun c hc =>
    failing?_eq_none_of_ne_cross (by simpa using List.any_eq_false.mp h c hc)

theorem failingName?_of_failing? {before : Option Char} {s : List Char}
    (h : failing? before s = none) : failingName? s = none := by
  simpa [failing?] using h

theorem failingLinesFrom_quiet {before : Option Char} {x y : List Char}
    (h : Quiet failing? before x y) (seen : List Char) :
    failingLinesFrom false seen (x ++ y) =
      (x ++ (failingLinesFrom false (x.reverse ++ seen) y).1,
        (failingLinesFrom false (x.reverse ++ seen) y).2) := by
  induction x generalizing before seen with
  | nil => rfl
  | cons c x ih =>
    rw [List.cons_append, failingLinesFrom, if_neg (by simp), failingName?_of_failing? h.1]
    simp [ih h.2]

/-- The rest of a failing line holds no failing line. -/
theorem failingLinesFrom_restOfLine {x : List Char} (hx : '\n' ∉ x) (seen y : List Char) :
    failingLinesFrom true seen (x ++ '\n' :: y) =
      failingLinesFrom false (x.reverse ++ seen) ('\n' :: y) := by
  induction x generalizing seen with
  | nil => simp [failingLinesFrom]
  | cons c x ih =>
    rw [List.mem_cons, not_or] at hx
    rw [List.cons_append, failingLinesFrom, if_pos (by simpa using Ne.symm hx.1), ih hx.2]
    simp

theorem failingLinesFrom_cross {c : Char} {s name : List Char}
    (h : failingName? (c :: s) = some name) (seen : List Char) :
    failingLinesFrom false seen (c :: s) =
      ([], ⟨seen.reverse, name, (failingLinesFrom true (c :: seen) s).1⟩ ::
        (failingLinesFrom true (c :: seen) s).2) := by
  rw [failingLinesFrom, if_neg (by simp), h]

/-- A block without a cross has no failing line. -/
theorem failingLines_eq_nil {block : List Char} (h : block.any isCross = false) :
    failingLines block = [] := by
  have hquiet := failingLinesFrom_quiet (quiet_failing_of_no_cross h none []) []
  rw [List.append_nil] at hquiet
  rw [failingLines, hquiet]
  rfl

/-- A block that mentions no failure has no failing line, so no block needs to be left out. -/
theorem failures_eq_flatMap (s : List Char) : failures s = (blocks s).flatMap blockFailures := by
  have hskip (block : List Char) (h : mentionsFailure block = false) :
      blockFailures block = [] := by
    rw [mentionsFailure, Bool.or_eq_false_iff] at h
    rw [blockFailures, failingLines_eq_nil h.1]
    rfl
  rw [failures]
  induction blocks s with
  | nil => rfl
  | cons block rest ih =>
    rw [List.filter_cons]
    split
    next h => rw [List.flatMap_cons, List.flatMap_cons, ih]
    next h => rw [List.flatMap_cons, hskip block (by simpa using h), ih, List.nil_append]

/-! ## Names -/

/-- The timing behind a name. -/
def timing (durationMs : Nat) : List Char :=
  ' ' :: (numeral durationMs ++ ['m', 's'])

/-- A number is read to its last digit. -/
theorem digits?_append (d : Digits) {s : List Char}
    (hs : ∀ c ∈ s.head?, isDecimalDigit c = false) :
    digits? (d.chars ++ s) = some (d.chars, s) := by
  have hall := d.all_isDecimalDigit
  rw [digits?, takeWhile_append_of_head hall hs, dropWhile_append_of_head hall hs]
  split
  next h => exact absurd h d.chars_ne_nil
  · rfl

/-- A duration at the end of a line is one. -/
theorem isTiming_timing (durationMs : Nat) : isTiming (timing durationMs) = true := by
  have hblank : isBlank ' ' = true := by decide
  have hhead := (Digits.ofNat durationMs).head_append (fun _ => isBlank_of_isDigit) ['m', 's']
  have hdigits := digits?_append (.ofNat durationMs) (s := ['m', 's']) (by simp; decide)
  simp only [Digits.ofNat] at hhead hdigits
  simp only [timing, isTiming, hblank, if_true, List.dropWhile_cons, dropWhile_eq_self hhead,
    hdigits]
  decide

/-- Reading digits or a fraction does not go past a blank. -/
theorem exists_of_digits? {x s ds rest : List Char}
    (h : digits? (x ++ ' ' :: s) = some (ds, rest)) : ∃ y, rest = y ++ ' ' :: s := by
  unfold digits? at h
  split at h
  · simp at h
  · rw [Option.some.injEq, Prod.mk.injEq] at h
    exact ⟨_, h.2.symm.trans (dropWhile_append_cons (by decide) x s)⟩

theorem exists_afterFraction (x s : List Char) :
    ∃ y, afterFraction (x ++ ' ' :: s) = y ++ ' ' :: s := by
  cases x with
  | nil => exact ⟨[], rfl⟩
  | cons c x =>
    unfold afterFraction
    split
    next rest heq =>
      obtain ⟨-, rfl⟩ := List.cons.inj heq
      split
      next hdigits => exact exists_of_digits? hdigits
      · exact ⟨c :: x, rfl⟩
    · exact ⟨c :: x, rfl⟩

/-- What is left of a timing behind other text is too long for a unit. -/
theorem lt_length_unit (x : List Char) (durationMs : Nat) :
    2 < ((x ++ timing durationMs).dropWhile isBlank).length := by
  obtain ⟨d, ds, hd⟩ := List.exists_cons_of_ne_nil (numeral_ne_nil durationMs)
  have hblank : isBlank d = false :=
    isBlank_of_isDigit (isDigit_of_mem_numeral (n := durationMs) (by simp [hd]))
  have hsplit : x ++ timing durationMs = (x ++ [' ']) ++ d :: (ds ++ ['m', 's']) := by
    simp [timing, hd]
  rw [hsplit, dropWhile_append_cons hblank]
  simp
  omega

/-- Behind a character that is not white space a timing does not start before its own blank. -/
theorem isTiming_append {x : List Char} (hne : x ≠ []) (hx : ∀ c ∈ x.getLast?, isBlank c = false)
    (durationMs : Nat) : isTiming (x ++ timing durationMs) = false := by
  have hrest : x.dropWhile isBlank ≠ [] := fun hnil => by
    have hlast := hx _ (List.getLast?_eq_some_getLast hne)
    rw [List.dropWhile_eq_nil_iff.mp hnil _ (List.getLast_mem hne)] at hlast
    exact absurd hlast (by decide)
  have hdrop : (x ++ timing durationMs).dropWhile isBlank =
      x.dropWhile isBlank ++ timing durationMs := by
    rw [List.dropWhile_append, if_neg (by rwa [List.isEmpty_iff])]
  obtain ⟨c, y, hxy⟩ := List.exists_cons_of_ne_nil hne
  rw [hxy, List.cons_append, isTiming]
  split
  · rw [← List.cons_append, ← hxy, hdrop]
    split
    next ds rest hdigits =>
      obtain ⟨y, rfl⟩ := exists_of_digits? hdigits
      obtain ⟨z, hz⟩ := exists_afterFraction y (numeral durationMs ++ ['m', 's'])
      have hlength := lt_length_unit z durationMs
      rw [timing, ← hz] at hlength
      simp only [Bool.or_eq_false_iff, beq_eq_false_iff_ne]
      constructor
      · intro hunit
        simp [hunit] at hlength
      · intro hunit
        simp [hunit] at hlength
    · rfl
  · rfl

/-- It is dropped with the blank in front of it. -/
theorem dropTiming_append {x : List Char} (hx : ∀ c ∈ x.getLast?, isBlank c = false)
    (durationMs : Nat) : dropTiming (x ++ timing durationMs) = x := by
  induction x with
  | nil =>
    rw [List.nil_append, timing, dropTiming, ← timing, isTiming_timing]
    rfl
  | cons c x ih =>
    have htiming := isTiming_append (List.cons_ne_nil c x) hx durationMs
    rw [List.cons_append] at htiming
    rw [List.cons_append, dropTiming, htiming, if_neg (by decide), ih]
    intro d hd
    refine hx d ?_
    rw [List.getLast?_cons, hd]
    rfl

/-- The name of a test is what stands in front of its timing. -/
theorem testName_append {name : List Char} (h : Bare isBlank name) (durationMs : Nat) :
    testName (name ++ timing durationMs) = String.ofList name := by
  rw [testName, dropTiming_append h.last, trim_eq_self h]

/-! ## Test files -/

/-- A text without the marks of tests is no ending of one. -/
theorem testSuffix?_eq_none {x s : List Char} (hx : ∀ mark ∈ testMarks, ¬mark <:+: x)
    (hs : ∀ c ∈ s.head?, isPathChar c = false) : testSuffix? (x ++ s) = none := by
  have hall : ∀ mark ∈ testMarks, mark.all isPathChar = true := by decide
  have hnone : firstWord? testMarks (x ++ s) = none := firstWord?_eq_none fun mark hmark hpre =>
    hx mark hmark (prefix_of_prefix_append (hall mark hmark) hs hpre).isInfix
  rw [testSuffix?, hnone]
  rfl

/-- No path starts where no mark of a test file stands behind the first character. -/
theorem longestTestPath?_eq_none {x s : List Char} (hx : ∀ mark ∈ testMarks, ¬mark <:+: x)
    (hs : ∀ c ∈ s.head?, isPathChar c = false) (c : Char) :
    longestTestPath? (c :: (x ++ s)) = none := by
  induction x generalizing c with
  | nil =>
    have hrest : longestTestPath? s = none := by
      cases s with
      | nil => rfl
      | cons d s => rw [longestTestPath?, hs d rfl, if_neg (by decide)]
    have hsuffix := testSuffix?_eq_none hx hs
    rw [List.nil_append] at hsuffix ⊢
    simp [longestTestPath?, hrest, hsuffix]
  | cons d x ih =>
    have hrest := ih (fun mark hmark hin => hx mark hmark (List.infix_cons hin)) d
    have hsuffix := testSuffix?_eq_none hx hs
    rw [List.cons_append] at hsuffix ⊢
    rw [longestTestPath?, hrest, hsuffix]
    simp

/-- A mark with an extension is. -/
theorem testSuffix?_append {mark extension s : List Char} (hmark : mark ∈ testMarks)
    (hextension : extension ∈ testExtensions) (hs : ∀ c ∈ s.head?, isPathChar c = false) :
    testSuffix? (mark ++ (extension ++ s)) = some (mark ++ extension, s) := by
  have hmarks : testMarks.Pairwise Apart := by decide
  have hall : ∀ w ∈ testExtensions, w.all isPathChar = true := by decide
  have hextensions : testExtensions.Pairwise fun v w => ¬v <+: w := by decide
  have happend : testExtensions.Pairwise fun v w => ¬v <+: w ++ s :=
    hextensions.imp_of_mem fun hv _ hvw hpre => hvw (prefix_of_prefix_append (hall _ hv) hs hpre)
  rw [testSuffix?, firstWord?_append hmarks hmark, Option.bind_some]
  simp only [firstWord?_of_mem happend hextension, Option.map_some]

/-- Behind its first dot the end of a test file's name has a single dot, and a mark has two. -/
theorem exists_tail_suffix {mark extension : List Char} (hmark : mark ∈ testMarks)
    (hextension : extension ∈ testExtensions) :
    ∃ x, mark ++ extension = '.' :: x ∧ ∀ m ∈ testMarks, ¬m <:+: x := by
  have hdots : ∀ m ∈ testMarks, m.count '.' = 2 := by decide
  have htail : ∀ mark ∈ testMarks, ∀ extension ∈ testExtensions,
      mark ++ extension = '.' :: (mark ++ extension).tail ∧
        (mark ++ extension).tail.count '.' = 1 := by decide
  obtain ⟨hcons, hcount⟩ := htail mark hmark extension hextension
  refine ⟨_, hcons, fun m hm hin => ?_⟩
  have hle := hin.sublist.count_le '.'
  rw [hdots m hm, hcount] at hle
  exact absurd hle (by decide)

/-- A test file : a nonempty stem, a mark and an extension. -/
structure TestPath where
  stem : List Char
  mark : List Char
  extension : List Char
  stem_ne_nil : stem ≠ []
  stem_all : stem.all isPathChar = true
  mark_mem : mark ∈ testMarks
  extension_mem : extension ∈ testExtensions

/-- The path as it is written. -/
def TestPath.text (path : TestPath) : List Char :=
  path.stem ++ (path.mark ++ path.extension)

/-- The path of a test is read to its end. -/
theorem TestPath.longestTestPath?_append (path : TestPath) {s : List Char}
    (hs : ∀ c ∈ s.head?, isPathChar c = false) :
    longestTestPath? (path.text ++ s) = some (path.text, s) := by
  obtain ⟨stem, mark, extension, hne, hstem, hmark, hextension⟩ := path
  simp only [TestPath.text, List.append_assoc]
  have hsuffix := testSuffix?_append hmark hextension hs
  induction stem with
  | nil => exact absurd rfl hne
  | cons c stem ih =>
    simp only [List.all_cons, Bool.and_eq_true] at hstem
    rw [List.cons_append, longestTestPath?, if_pos hstem.1]
    by_cases hnil : stem = []
    · obtain ⟨x, hx, hmarks⟩ := exists_tail_suffix hmark hextension
      have hnone := longestTestPath?_eq_none hmarks hs '.'
      rw [← List.cons_append, ← hx, List.append_assoc] at hnone
      rw [hnil, List.nil_append, hnone, hsuffix]
      rfl
    · rw [ih hnil hstem.2]
      rfl

/-- The file of a failing line is the test file in front of it that no other follows. -/
theorem originFile_append {lead rest : List Char} (path : TestPath)
    (hlead : lead.any isPathChar = false) (hrest : ∀ c ∈ rest.head?, isPathChar c = false)
    (hmarks : ∀ mark ∈ testMarks, ¬mark <:+: rest) :
    originFile (lead ++ (path.text ++ rest)) = String.ofList path.text := by
  have hlead (c : Char) (hc : c ∈ lead) : isPathChar c = false := by
    simpa using List.any_eq_false.mp hlead c hc
  have hquiet : Quiet testPath? none lead (path.text ++ rest) := by
    refine quiet_of_forall fun c hc before s => ?_
    rw [testPath?, longestTestPath?, hlead c hc]
    simp
  have hbefore : lead.getLast?.any isPathChar = false := by
    cases hlast : lead.getLast? with
    | none => rfl
    | some c => exact hlead c (List.mem_of_getLast? hlast)
  have hread : testPath? lead.getLast? (path.text ++ rest) =
      some (String.ofList path.text, rest) := by
    rw [testPath?, hbefore, path.longestTestPath?_append hrest]
    rfl
  have hsilent : Quiet testPath? (lead ++ path.text).getLast? rest [] := by
    refine quiet_of_suffix fun before s hs => ?_
    have hnone : longestTestPath? s = none := by
      cases s with
      | nil => rfl
      | cons c s =>
        have hin : s <:+: rest := ((List.suffix_cons c s).trans hs).isInfix
        simpa using longestTestPath?_eq_none (s := [])
          (fun mark hmark h => hmarks mark hmark (h.trans hin)) (by simp) c
    rw [testPath?, hnone]
    simp
  have hpath : path.text ≠ [] := by simp [TestPath.text, path.stem_ne_nil]
  rw [originFile, findAll_eq_singleton hquiet hpath hread hsilent]
  rfl

/-! ## Error messages -/

theorem labelledError?_eq_none {s : List Char} (h : ¬"Error:".toList <+: s)
    (before : Option Char) : labelledError? before s = none := by
  rw [labelledError?]
  cases hp : "Error:".toList.isPrefixOf? s with
  | none => rfl
  | some rest => exact absurd ⟨rest, List.isPrefixOf?_eq_some_iff_append_eq.mp hp⟩ h

/-- The message behind an arrow, where no label stands. -/
theorem errorIn?_arrow {gap message rest : List Char} (hgap : gap.all isGap = true)
    (hmessage : Bare isLineTail message) (hline : '\n' ∉ message)
    (herror : ¬"Error:".toList <:+: '\n' :: (gap ++ '→' :: ' ' :: (message ++ '\n' :: rest))) :
    errorIn? ('\n' :: (gap ++ '→' :: ' ' :: (message ++ '\n' :: rest))) =
      some (String.ofList message) := by
  have hlabel : findValue? labelledError?
      ('\n' :: (gap ++ '→' :: ' ' :: (message ++ '\n' :: rest))) = none :=
    findValue?_eq_none fun before s hs =>
      labelledError?_eq_none (fun hpre => herror (hpre.isInfix.trans hs.isInfix)) before
  have hquiet : Quiet arrowError? none ['\n'] (gap ++ '→' :: ' ' :: (message ++ '\n' :: rest)) :=
    ⟨rfl, trivial⟩
  have hspace : '\n' ∉ ' ' :: message := by simpa using hline
  have hspaces : [' '].all isGap = true := by decide
  have hvalue : lineValue? 0 (' ' :: message) = some message :=
    lineValue?_append hspaces hmessage (Nat.zero_le _)
  have harrow : arrowError? (some '\n') (gap ++ '→' :: ' ' :: (message ++ '\n' :: rest)) =
      some (String.ofList message, '\n' :: rest) := by
    have hdrop : (gap ++ '→' :: ' ' :: (message ++ '\n' :: rest)).dropWhile isGap =
        '→' :: ' ' :: (message ++ '\n' :: rest) :=
      dropWhile_append_of_head hgap (by simp [isGap])
    have hrest := restOfLine_append hspace rest
    have hafter := afterLine_append hspace rest
    rw [List.cons_append] at hrest hafter
    simp only [arrowError?, isLineStart, Option.all_some, beq_self_eq_true, if_true, hdrop, hrest,
      hafter, hvalue, Option.map_some]
  rw [errorIn?, hlabel, Option.none_or]
  exact findValue?_append hquiet harrow

end SuiteScope.Transcript
