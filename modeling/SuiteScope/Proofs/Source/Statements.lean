import SuiteScope.Proofs.Text.Search
import SuiteScope.Source.Imports

/-!
# Statements character by character

`imports` searches a source for matches that begin with a line end or a semicolon. `Statements`
reads the same source one character at a time : all it remembers is whether a statement may start,
and where one does it goes on behind that. Both find the same dependencies
(`values_findAll_import`). So two sources can be compared one step at a time.
-/

namespace SuiteScope.Source

open SuiteScope.Text

/-- Whether a statement may start behind the character, given whether one may start in front. -/
def readyAfter (ready : Bool) (c : Char) : Bool :=
  c == '\n' || c == ';' || (isBlank c && ready)

/-- Whether a statement may start behind the text. -/
def opensStatement (a : List Char) : Bool :=
  a.foldl readyAfter true

/-- The dependencies of the statements in a text, in front of which a statement may start or not. -/
inductive Statements : (ready : Bool) → (s : List Char) → List String → Prop
  | nil (ready : Bool) : Statements ready [] []
  | skip {ready : Bool} {c : Char} {s : List Char} {names : List String}
    (none : ready = true → statement? (c :: s) = none)
    (behind : Statements (readyAfter ready c) s names) : Statements ready (c :: s) names
  | found {s rest : List Char} {name : String} {names : List String}
    (read : statement? s = some (name, rest)) (behind : Statements false rest names) :
    Statements true s (name :: names)

/-! ## The shape of a statement -/

/-- A dependency stands between quotes, behind blanks. -/
theorem dependency?_eq_some_iff {s rest : List Char} {name : String} :
    dependency? s = some (name, rest) ↔
      ∃ c t close, s.dropWhile isBlank = c :: t ∧ t.dropWhile isDependencyChar = close :: rest ∧
        isDependencyQuote c = true ∧ t.takeWhile isDependencyChar ≠ [] ∧
        isDependencyQuote close = true ∧ name = String.ofList (t.takeWhile isDependencyChar) := by
  unfold dependency?
  constructor
  · intro h
    split at h
    · cases h
    next c t ht =>
      dsimp only at h
      split at h
      · cases h
      next close left hleft =>
        split at h
        next hquotes =>
          obtain ⟨rfl, rfl⟩ := Prod.mk.inj (Option.some.inj h)
          exact ⟨c, t, close, ht, hleft, hquotes.1, hquotes.2.1, hquotes.2.2, rfl⟩
        · cases h
  · rintro ⟨c, t, close, ht, hleft, hopen, hne, hclose, rfl⟩
    simp [ht, hleft, hopen, hne, hclose]

theorem exists_dependency {s rest : List Char} {name : String}
    (h : dependency? s = some (name, rest)) :
    ∃ x q, s = x ++ q :: rest ∧ isDependencyQuote q = true := by
  obtain ⟨c, t, close, ht, hleft, -, -, hclose, -⟩ := dependency?_eq_some_iff.mp h
  refine ⟨s.takeWhile isBlank ++ c :: t.takeWhile isDependencyChar, close, ?_, hclose⟩
  rw [List.append_assoc, List.cons_append, ← hleft, List.takeWhile_append_dropWhile, ← ht,
    List.takeWhile_append_dropWhile]

theorem exists_fromDependency {before : Option Char} {s rest : List Char} {name : String}
    (h : fromDependency? before s = some (name, rest)) :
    ∃ x q, s = x ++ q :: rest ∧ isDependencyQuote q = true := by
  unfold fromDependency? at h
  split at h
  · obtain ⟨t, ht, h⟩ := Option.bind_eq_some_iff.mp h
    obtain ⟨x, q, rfl, hq⟩ := exists_dependency h
    refine ⟨"from".toList ++ x, q, ?_, hq⟩
    rw [List.append_assoc, List.isPrefixOf?_eq_some_iff_append_eq.mp ht]
  · cases h

theorem exists_clauseDependency {before : Option Char} {s rest : List Char} {name : String}
    (h : clauseDependency? before s = some (name, rest)) :
    ∃ x q, s = x ++ q :: rest ∧ isDependencyQuote q = true := by
  fun_induction clauseDependency? before s with
  | case1 before => exact exists_fromDependency h
  | case2 before c s found hfound =>
    obtain rfl := Option.some.inj h
    exact exists_fromDependency hfound
  | case3 before c s hfound hc ih =>
    obtain ⟨x, q, rfl, hq⟩ := ih h
    exact ⟨c :: x, q, rfl, hq⟩
  | case4 => cases h

theorem exists_statementTail {s rest : List Char} {name : String}
    (h : statementTail? s = some (name, rest)) :
    ∃ x q, s = x ++ q :: rest ∧ isDependencyQuote q = true := by
  unfold statementTail? at h
  split at h
  · cases h
  next c s =>
    split at h
    · obtain ⟨x, q, rfl, hq⟩ := exists_clauseDependency h
      exact ⟨c :: x, q, rfl, hq⟩
    · cases h

/-- A statement ends with a quote. -/
theorem exists_statement {s rest : List Char} {name : String}
    (h : statement? s = some (name, rest)) :
    ∃ x q, s = x ++ q :: rest ∧ isDependencyQuote q = true := by
  unfold statement? at h
  split at h
  next t ht =>
    have hs := List.isPrefixOf?_eq_some_iff_append_eq.mp ht
    obtain ⟨x, q, rfl, hq⟩ : ∃ x q, t = x ++ q :: rest ∧ isDependencyQuote q = true := by
      rcases Option.or_eq_some_iff.mp h with h | ⟨-, h⟩
      · exact exists_dependency h
      · exact exists_statementTail h
    exact ⟨"import".toList ++ x, q, by rw [List.append_assoc, hs], hq⟩
  · obtain ⟨t, ht, h⟩ := Option.bind_eq_some_iff.mp h
    have hs := List.isPrefixOf?_eq_some_iff_append_eq.mp ht
    obtain ⟨x, q, rfl, hq⟩ := exists_statementTail h
    exact ⟨"export".toList ++ x, q, by rw [List.append_assoc, hs], hq⟩

/-- A statement behind blanks ends with a quote. -/
theorem exists_statement_dropWhile {s rest : List Char} {name : String}
    (h : statement? (s.dropWhile isBlank) = some (name, rest)) :
    ∃ x q, s = x ++ q :: rest ∧ isDependencyQuote q = true := by
  obtain ⟨x, q, hx, hq⟩ := exists_statement h
  refine ⟨s.takeWhile isBlank ++ x, q, ?_, hq⟩
  rw [List.append_assoc, ← hx, List.takeWhile_append_dropWhile]

/-- What is found ends with a quote. -/
theorem exists_import {before : Option Char} {s rest : List Char} {name : String}
    (h : import? before s = some (name, rest)) :
    ∃ x q, s = x ++ q :: rest ∧ isDependencyQuote q = true := by
  unfold import? at h
  dsimp only at h
  split at h
  next found hfound =>
    obtain rfl := Option.some.inj h
    split at hfound
    · exact exists_statement_dropWhile hfound
    · cases hfound
  next t _ =>
    obtain ⟨x, q, rfl, hq⟩ := exists_statement_dropWhile h
    exact ⟨';' :: x, q, rfl, hq⟩
  · cases h

theorem fromDependency?_cons_eq_none {c : Char} (hc : c ≠ 'f') (before : Option Char)
    (s : List Char) : fromDependency? before (c :: s) = none := by
  unfold fromDependency?
  split
  · simp [List.isPrefixOf?, hc.symm]
  · rfl

theorem clauseDependency?_cons (before : Option Char) (c : Char) (s : List Char) :
    clauseDependency? before (c :: s) = (fromDependency? before (c :: s)).or
      (if isClauseChar c then clauseDependency? (some c) s else none) := by
  rw [clauseDependency?]
  cases fromDependency? before (c :: s) <;> rfl

/-- A statement starts with one of two letters. -/
theorem statement?_cons_eq_none {c : Char} (hi : c ≠ 'i') (he : c ≠ 'e') (s : List Char) :
    statement? (c :: s) = none := by
  have himport : "import".toList.isPrefixOf? (c :: s) = none := by
    simp [List.isPrefixOf?, hi.symm]
  have hexport : "export".toList.isPrefixOf? (c :: s) = none := by
    simp [List.isPrefixOf?, he.symm]
  rw [statement?, himport, hexport]
  rfl

/-- No statement starts with a blank. -/
theorem statement?_blank {c : Char} (h : isBlank c = true) (s : List Char) :
    statement? (c :: s) = none :=
  statement?_cons_eq_none (by rintro rfl; simp [isBlank] at h)
    (by rintro rfl; simp [isBlank] at h) s

/-- Whether a statement may open is found character by character. -/
theorem opensStatement_append (a x : List Char) :
    opensStatement (a ++ x) = x.foldl readyAfter (opensStatement a) :=
  List.foldl_append

theorem readyAfter_quote {q : Char} (h : isDependencyQuote q = true) (ready : Bool) :
    readyAfter ready q = false := by
  simp only [isDependencyQuote, Bool.or_eq_true, beq_iff_eq] at h
  rcases h with rfl | rfl <;> cases ready <;> rfl

/-! ## The search -/

/-- What stands before a place at the start of a line, or in the middle of one. -/
def beforePlace (lineStart : Bool) : Option Char :=
  if lineStart then none else some ' '

/-- Where the search goes on. -/
def behindMatch (m : Match String) : Option Nat :=
  some m.span.stop

/-- The dependencies that the search finds in a text, at the start of a line or not. -/
def importsFrom (lineStart : Bool) (s : List Char) : List String :=
  (walkFrom import? behindMatch (beforePlace lineStart) 0 0 s).map (·.value)

theorem import?_beforePlace (before : Option Char) (s : List Char) :
    (import? before s) = import? (beforePlace (before.all (· == '\n'))) s := by
  unfold import?
  cases before.all (· == '\n') <;> rfl

/-- At the start of a line the search looks for a statement before it looks for a semicolon. -/
theorem import?_lineStart (s : List Char) : import? (beforePlace true) s =
    (statement? (s.dropWhile isBlank)).or (import? (beforePlace false) s) := by
  unfold import?
  cases statement? (s.dropWhile isBlank) <;> rfl

theorem import?_semicolon (s : List Char) : import? (beforePlace false) (';' :: s) =
    statement? (s.dropWhile isBlank) :=
  rfl

theorem import?_midLine {c : Char} (h : c ≠ ';') (s : List Char) :
    (import? (beforePlace false) (c :: s)) = none := by
  unfold import?
  dsimp only [beforePlace]
  split
  next hfound => cases hfound
  next hc => exact absurd (List.cons.inj hc).1 h
  · rfl

/-- The matches of a text are the imports that are read from it. -/
theorem importsFrom_eq (a s : List Char) :
    (walkAfter import? behindMatch a s).map (·.value) =
      importsFrom (a.getLast?.all (· == '\n')) s := by
  have hmove (m : Match String) : behindMatch (m.shift (byteSize a)) =
      (behindMatch m).map (byteSize a + ·) := rfl
  have hshift := walkFrom_shift (r := import?) hmove
    (beforePlace (a.getLast?.all (· == '\n'))) 0 0 s
  rw [Nat.add_zero] at hshift
  rw [importsFrom, walkAfter, ← walkFrom_of_le (Nat.le_refl _),
    walkFrom_before (import?_beforePlace a.getLast?), hshift, List.map_map]
  rfl

/-- A text of no character or one, behind which a line starts or not. -/
theorem exists_before (lineStart : Bool) : ∃ a : List Char, a.getLast? = beforePlace lineStart ∧
    a.getLast?.all (· == '\n') = lineStart := by
  cases lineStart
  · exact ⟨[' '], rfl, rfl⟩
  · exact ⟨[], rfl, rfl⟩

/-- Behind what the search finds it goes on in the middle of a line. -/
theorem importsFrom_found {lineStart : Bool} {s rest : List Char} {name : String}
    (h : import? (beforePlace lineStart) s = some (name, rest)) :
    importsFrom lineStart s = name :: importsFrom false rest := by
  obtain ⟨a, hlast, hstart⟩ := exists_before lineStart
  obtain ⟨x, q, rfl, hq⟩ := exists_import h
  have hline : (a ++ (x ++ [q])).getLast?.all (· == '\n') = false := by
    have hne : q ≠ '\n' := by rintro rfl; simp [isDependencyQuote] at hq
    simp [← List.append_assoc, hne]
  have hread : import? a.getLast? (x ++ [q] ++ rest) = some (name, rest) := by
    rw [hlast]
    simpa using h
  have hwalk : walkAfter import? behindMatch a (x ++ [q] ++ rest) =
      _ :: walkAfter import? behindMatch (a ++ (x ++ [q])) rest :=
    walkAfter_found (by simp) hread rfl rfl (by simp; omega)
  have hfound := importsFrom_eq a (x ++ [q] ++ rest)
  rw [hwalk, List.map_cons, importsFrom_eq, hline, hstart] at hfound
  simpa using hfound.symm

theorem importsFrom_quiet {lineStart : Bool} {c : Char} {s : List Char}
    (h : import? (beforePlace lineStart) (c :: s) = none) :
    importsFrom lineStart (c :: s) = importsFrom (c == '\n') s := by
  obtain ⟨a, hlast, hstart⟩ := exists_before lineStart
  have hquiet : Quiet import? a.getLast? [c] s := ⟨by rw [hlast]; exact h, trivial⟩
  have hpassed := importsFrom_eq a ([c] ++ s)
  rw [walkAfter_quiet hquiet, importsFrom_eq, hstart] at hpassed
  simpa using hpassed.symm

/-- At the start of a line the search finds the statement behind the white space. -/
theorem importsFrom_lineStart_found {s rest : List Char} {name : String}
    (h : statement? (s.dropWhile isBlank) = some (name, rest)) :
    importsFrom true s = name :: importsFrom false rest :=
  importsFrom_found (by rw [import?_lineStart, h]; rfl)

theorem importsFrom_lineStart {s : List Char} (h : statement? (s.dropWhile isBlank) = none) :
    importsFrom true s = importsFrom false s := by
  have hline : import? (beforePlace true) s = import? (beforePlace false) s := by
    rw [import?_lineStart, h, Option.none_or]
  cases hfound : import? (beforePlace false) s with
  | some found => rw [importsFrom_found hfound, importsFrom_found (hline.trans hfound)]
  | none =>
    cases s with
    | nil => rfl
    | cons c s => rw [importsFrom_quiet hfound, importsFrom_quiet (hline.trans hfound)]

/-- Behind a semicolon the search finds what it finds at the start of a line. -/
theorem importsFrom_midLine (c : Char) (s : List Char) :
    importsFrom false (c :: s) = importsFrom (c == '\n' || c == ';') s := by
  by_cases hc : c = ';'
  · subst hc
    cases hread : statement? (s.dropWhile isBlank) with
    | some found =>
      rw [importsFrom_found (import?_semicolon s ▸ hread)]
      exact (importsFrom_lineStart_found hread).symm
    | none =>
      rw [importsFrom_quiet (import?_semicolon s ▸ hread)]
      exact (importsFrom_lineStart hread).symm
  · rw [importsFrom_quiet (import?_midLine hc s), beq_eq_false_iff_ne.mpr hc, Bool.or_false]

/-! ## Both readings -/

/-- What stands in front of a statement, as far as only white space, does not matter. -/
theorem importsFrom_blank {c : Char} (h : isBlank c = true) (s : List Char) :
    importsFrom true (c :: s) = importsFrom true s := by
  have hdrop : (c :: s).dropWhile isBlank = s.dropWhile isBlank := by
    rw [List.dropWhile_cons, if_pos h]
  cases hread : statement? (s.dropWhile isBlank) with
  | some found =>
    rw [importsFrom_lineStart_found hread, importsFrom_lineStart_found (hdrop ▸ hread)]
  | none =>
    rw [importsFrom_lineStart (hdrop ▸ hread), importsFrom_midLine]
    cases c == '\n' || c == ';'
    · exact (importsFrom_lineStart hread).symm
    · rfl

/-- A character at which no statement starts is passed over. -/
theorem importsFrom_skip {ready : Bool} {c : Char} {s : List Char}
    (h : ready = true → statement? (c :: s) = none) :
    importsFrom ready (c :: s) = importsFrom (readyAfter ready c) s := by
  cases ready with
  | false => rw [importsFrom_midLine, readyAfter, Bool.and_false, Bool.or_false]
  | true =>
    cases hc : isBlank c with
    | true => rw [importsFrom_blank hc, readyAfter, hc, Bool.and_true, Bool.or_true]
    | false =>
      have hdrop : (c :: s).dropWhile isBlank = c :: s := by
        rw [List.dropWhile_cons, if_neg (by simp [hc])]
      rw [importsFrom_lineStart (by rw [hdrop]; exact h rfl), importsFrom_midLine, readyAfter, hc,
        Bool.false_and, Bool.or_false]

/-- A statement is read, and reading goes on behind it. -/
theorem importsFrom_of_statement {s rest : List Char} {name : String}
    (h : statement? s = some (name, rest)) :
    importsFrom true s = name :: importsFrom false rest := by
  refine importsFrom_lineStart_found ?_
  cases s with
  | nil => cases h
  | cons c s =>
    have hc : ¬isBlank c = true := fun hc => by
      rw [statement?_blank hc] at h
      cases h
    rwa [List.dropWhile_cons, if_neg hc]

/-- What is read are the statements. -/
theorem importsFrom_of_statements {ready : Bool} {s : List Char} {names : List String}
    (h : Statements ready s names) : importsFrom ready s = names := by
  induction h with
  | nil ready => rfl
  | skip hnone hbehind ih => rw [importsFrom_skip hnone, ih]
  | found hread hbehind ih => rw [importsFrom_of_statement hread, ih]

/-- Every text has its statements. -/
theorem exists_statements (ready : Bool) (s : List Char) : ∃ names, Statements ready s names := by
  induction hn : s.length using Nat.strongRecOn generalizing ready s with
  | ind n ih =>
    cases s with
    | nil => exact ⟨[], .nil ready⟩
    | cons c s =>
      cases hread : statement? (c :: s) with
      | none =>
        obtain ⟨names, h⟩ := ih s.length (by simp [← hn]) (readyAfter ready c) s rfl
        exact ⟨names, .skip (fun _ => hread) h⟩
      | some found =>
        cases ready with
        | false =>
          obtain ⟨names, h⟩ := ih s.length (by simp [← hn]) (readyAfter false c) s rfl
          exact ⟨names, .skip nofun h⟩
        | true =>
          obtain ⟨name, rest⟩ := found
          obtain ⟨x, q, hs, -⟩ := exists_statement hread
          obtain ⟨names, h⟩ := ih rest.length (by simp [← hn, hs]; omega) false rest rfl
          exact ⟨name :: names, .found hread h⟩

/-- The search finds the dependencies of the statements. -/
theorem values_findAll_import {s : List Char} {names : List String} (h : Statements true s names) :
    (findAll import? s).map (·.value) = names := by
  rw [findAll_eq_walkAfter]
  exact (importsFrom_eq [] s).trans (importsFrom_of_statements h)

end SuiteScope.Source
