import SuiteScope.Proofs.FirstOccurrence
import SuiteScope.Proofs.Source.Statements
import SuiteScope.Proofs.Text.Line

/-!
# Written imports

A `WrittenImport` is an import statement as one writes it, on a line of its own : a dependency in
quotes behind `import`, or behind a clause and `from`. A clause may hold the words of a statement, and
line ends. What keeps it from ending early is that it holds no quote : `from` ends a clause only in
front of one (`clauseDependency?_written`).

So a list of such lines in front of any source adds its dependencies to those of the source
(`imports_render`).
-/

namespace SuiteScope.Source

open SuiteScope.Text

/-- What a written clause is made of. -/
def isClauseText (c : Char) : Bool :=
  isClauseChar c && !isDependencyQuote c

/-- The word that a statement starts with if it has no clause. -/
def importWord : List Char :=
  "import".toList

/-- The word between a clause and the dependency, with the spaces around it. -/
def fromWord : List Char :=
  " from ".toList

/-- The words that a statement with a clause starts with. -/
def clauseKeywords : List (List Char) :=
  [importWord, "export".toList]

/-- What stands in front of the dependency of a statement. -/
inductive Lead
  /-- The word `import` alone. -/
  | bare
  /-- A keyword, a clause and `from`. -/
  | clause (keyword text : List Char) (keyword_mem : keyword ∈ clauseKeywords)
    (fits : text.all isClauseText = true)

/-- An import statement, with the same quote on both sides of its dependency. -/
structure WrittenImport where
  lead : Lead
  quote : Char
  name : List Char
  semicolon : Bool
  isQuote : isDependencyQuote quote = true
  nonempty : name ≠ []
  fits : name.all isDependencyChar = true

/-- The lead as it is written, up to the quote. -/
def Lead.written : Lead → List Char
  | bare => importWord ++ [' ']
  | clause keyword text _ _ => keyword ++ ' ' :: (text ++ fromWord)

-- Both words are rewritten by these equations : to unfold a word is to decode its text.
theorem importWord_eq : importWord = "import".toList :=
  rfl

theorem fromWord_eq : fromWord = ' ' :: 'f' :: "rom ".toList :=
  rfl

namespace WrittenImport

/-- The dependency in quotes. -/
def quoted (i : WrittenImport) : List Char :=
  i.quote :: (i.name ++ [i.quote])

/-- What ends the line of the statement. -/
def ending (i : WrittenImport) : List Char :=
  if i.semicolon then [';', '\n'] else ['\n']

/-- The line of the statement. -/
def line (i : WrittenImport) : List Char :=
  i.lead.written ++ (i.quoted ++ i.ending)

/-- The dependency that the statement names. -/
def dependency (i : WrittenImport) : String :=
  String.ofList i.name

/-! ## Reading a dependency -/

theorem dependency?_quoted (i : WrittenImport) (s : List Char) :
    dependency? (' ' :: (i.quoted ++ s)) = some (i.dependency, s) := by
  have hname := List.all_eq_true.mp i.fits
  have hquote : ¬isDependencyChar i.quote = true := by simp [isDependencyChar, i.isQuote]
  have hblank : ¬isBlank i.quote = true := by
    have hq := i.isQuote
    simp only [isDependencyQuote, Bool.or_eq_true, beq_iff_eq] at hq
    rcases hq with hq | hq <;> rw [hq] <;> decide
  have htake : (i.name ++ i.quote :: s).takeWhile isDependencyChar = i.name := by
    rw [List.takeWhile_append_of_pos hname, List.takeWhile_cons_of_neg hquote, List.append_nil]
  have hdrop : (i.name ++ i.quote :: s).dropWhile isDependencyChar = i.quote :: s := by
    rw [List.dropWhile_append_of_pos hname, List.dropWhile_cons_of_neg hquote]
  refine dependency?_eq_some_iff.mpr ⟨i.quote, i.name ++ i.quote :: s, i.quote, ?_, hdrop, i.isQuote,
    by rw [htake]; exact i.nonempty, i.isQuote, by rw [htake, dependency]⟩
  rw [List.dropWhile_cons_of_pos (by decide), quoted, List.cons_append,
    List.dropWhile_cons_of_neg hblank]
  simp

end WrittenImport

/-- A dependency is looked for in front of anything that is neither white space nor a quote. -/
theorem dependency?_eq_none {x : List Char} {c : Char}
    (hx : ∀ d ∈ x, isDependencyQuote d = false) (hblank : isBlank c = false)
    (hc : isDependencyQuote c = false) (s : List Char) : dependency? (x ++ c :: s) = none := by
  refine Option.eq_none_iff_forall_ne_some.mpr ?_
  rintro ⟨name, rest⟩ h
  obtain ⟨d, t, -, hdrop, -, hd, -⟩ := dependency?_eq_some_iff.mp h
  rw [dropWhile_append_cons hblank] at hdrop
  cases hleft : x.dropWhile isBlank with
  | nil =>
    rw [hleft, List.nil_append] at hdrop
    obtain ⟨rfl, -⟩ := List.cons.inj hdrop
    simp [hc] at hd
  | cons e y =>
    rw [hleft, List.cons_append] at hdrop
    obtain ⟨rfl, -⟩ := List.cons.inj hdrop
    have he : e ∈ x := (List.dropWhile_suffix isBlank).mem (by simp [hleft])
    simp [hx e he] at hd

/-- In front of `from` there is no dependency. -/
theorem dependency?_fromWord {x : List Char} (hx : ∀ d ∈ x, isDependencyQuote d = false)
    (s : List Char) : dependency? (x ++ (fromWord ++ s)) = none := by
  have hplace : x ++ (fromWord ++ s) = (x ++ [' ']) ++ 'f' :: ("rom ".toList ++ s) := by
    simp [fromWord_eq]
  rw [hplace]
  refine dependency?_eq_none (fun d hd => ?_) (by decide) (by decide) _
  rcases List.mem_append.mp hd with hd | hd
  · exact hx d hd
  · obtain rfl := List.mem_singleton.mp hd
    decide

/-! ## Reading a clause -/

theorem not_quote_of_fits {text : List Char} (h : text.all isClauseText = true) :
    ∀ c ∈ text, isDependencyQuote c = false := fun c hc => by
  have := List.all_eq_true.mp h c hc
  simp_all [isClauseText]

/-- No `from` inside a clause stands in front of a dependency. -/
theorem fromDependency?_text {text : List Char} (h : text.all isClauseText = true)
    (hne : text ≠ []) (before : Option Char) (s : List Char) :
    fromDependency? before (text ++ (fromWord ++ s)) = none := by
  unfold fromDependency?
  split
  · cases hword : "from".toList.isPrefixOf? (text ++ (fromWord ++ s)) with
    | none => rfl
    | some rest =>
      have hrest := List.isPrefixOf?_eq_some_iff_append_eq.mp hword
      obtain ⟨text', rfl⟩ : "from".toList <+: text :=
        prefix_append_cons (c := ' ') (by decide) ⟨rest, hrest⟩
      rw [List.append_assoc] at hrest
      rw [Option.bind_some, List.append_cancel_left hrest]
      exact dependency?_fromWord (fun d hd => not_quote_of_fits h d (List.mem_append_right _ hd)) s
  · rfl

/-- The `from` that ends a clause is the first one that a dependency follows. -/
theorem clauseDependency?_written (i : WrittenImport) {text : List Char}
    (h : text.all isClauseText = true) (before : Option Char) (s : List Char) :
    clauseDependency? before (text ++ (fromWord ++ (i.quoted ++ s))) =
      some (i.dependency, s) := by
  induction text generalizing before with
  | nil =>
    have hspace : fromWord ++ (i.quoted ++ s) =
        ' ' :: ("from ".toList ++ (i.quoted ++ s)) := rfl
    have hfrom : fromDependency? (some ' ') ("from ".toList ++ (i.quoted ++ s)) =
        some (i.dependency, s) := i.dependency?_quoted s
    rw [List.nil_append, hspace, clauseDependency?_cons, fromDependency?_cons_eq_none (by decide),
      Option.none_or, if_pos (by decide)]
    have hword : "from ".toList ++ (i.quoted ++ s) =
        'f' :: ("rom ".toList ++ (i.quoted ++ s)) := rfl
    rw [hword] at hfrom ⊢
    rw [clauseDependency?_cons, hfrom, Option.some_or]
  | cons c text ih =>
    have hc : isClauseChar c = true := by simp_all [isClauseText]
    rw [List.cons_append, clauseDependency?_cons, ← List.cons_append,
      fromDependency?_text h (List.cons_ne_nil c text), Option.none_or, if_pos hc]
    exact ih (by simp_all) (some c)

/-! ## Reading a line -/

theorem statementTail?_written (i : WrittenImport) {text : List Char}
    (h : text.all isClauseText = true) (s : List Char) :
    statementTail? (' ' :: (text ++ (fromWord ++ (i.quoted ++ s)))) = some (i.dependency, s) := by
  rw [statementTail?, if_pos (by decide), clauseDependency?_written i h]

/-- A written import is read as a statement. -/
theorem statement?_written (i : WrittenImport) (s : List Char) :
    statement? (i.lead.written ++ (i.quoted ++ s)) = some (i.dependency, s) := by
  have hword (w t : List Char) : w.isPrefixOf? (w ++ t) = some t :=
    List.isPrefixOf?_eq_some_iff_append_eq.mpr rfl
  cases i.lead with
  | bare =>
    rw [Lead.written, List.append_assoc, List.singleton_append, statement?, importWord_eq, hword]
    simp only [i.dependency?_quoted, Option.some_or]
  | clause keyword text keyword_mem fits =>
    have hsplit : (keyword ++ ' ' :: (text ++ fromWord)) ++ (i.quoted ++ s) =
        keyword ++ ' ' :: (text ++ (fromWord ++ (i.quoted ++ s))) := by
      simp
    rw [Lead.written, hsplit, statement?]
    simp only [clauseKeywords, List.mem_cons, List.not_mem_nil, or_false] at keyword_mem
    rcases keyword_mem with rfl | rfl
    · have hnone : dependency? (' ' :: (text ++ (fromWord ++ (i.quoted ++ s)))) = none :=
        dependency?_fromWord
          (List.forall_mem_cons.mpr ⟨by decide, not_quote_of_fits fits⟩) (i.quoted ++ s)
      rw [importWord_eq, hword]
      simp only [hnone, Option.none_or, statementTail?_written i fits]
    · have himport (t : List Char) :
          "import".toList.isPrefixOf? ("export".toList ++ t) = none := rfl
      rw [himport, hword]
      exact statementTail?_written i fits s

/-- Behind the line of a statement another one may start. -/
theorem statements_ending (i : WrittenImport) {s : List Char} {names : List String}
    (h : Statements true s names) : Statements false (i.ending ++ s) names := by
  unfold WrittenImport.ending
  split
  · refine .skip nofun (.skip (fun _ => statement?_blank (by decide) s) h)
  · exact .skip nofun h

/-- An import in front of statements adds its dependency. -/
theorem statements_line (i : WrittenImport) {s : List Char} {names : List String}
    (h : Statements true s names) : Statements true (i.line ++ s) (i.dependency :: names) := by
  have hread := statement?_written i (i.ending ++ s)
  rw [WrittenImport.line, List.append_assoc, List.append_assoc]
  exact .found hread (statements_ending i h)

/-- So do several imports, by induction over them. -/
theorem statements_lines (written : List WrittenImport) {s : List Char} {names : List String}
    (h : Statements true s names) :
    Statements true (written.flatMap WrittenImport.line ++ s)
      (written.map WrittenImport.dependency ++ names) := by
  induction written with
  | nil => exact h
  | cons i written ih =>
    rw [List.flatMap_cons, List.append_assoc]
    exact statements_line i ih

/-- The imports of a text are the dependencies of its statements, each of them once. -/
theorem imports_eq {s : List Char} {names : List String} (h : Statements true s names) :
    imports s = names.eraseDups := by
  rw [imports, values_findAll_import h, eraseDups_eq_foldl]

/-- Lines of imports in front of any text add their dependencies to those of the text. -/
theorem imports_render (written : List WrittenImport) (s : List Char) :
    imports (written.flatMap WrittenImport.line ++ s) =
      (written.map WrittenImport.dependency ++ imports s).eraseDups := by
  obtain ⟨names, h⟩ := exists_statements true s
  rw [imports_eq (statements_lines written h), imports_eq h, eraseDups_append_eraseDups]

/-- Two imports of one dependency, of which the first has a clause with the words of a statement, and
between them an export. -/
def crowdedImports : List WrittenImport :=
  [⟨.clause importWord "from,\n  import".toList (by decide) (by decide), '\'', "a".toList, false,
      by decide, by decide, by decide⟩,
    ⟨.clause "export".toList "*".toList (by decide) (by decide), '"', "b".toList, true, by decide,
      by decide, by decide⟩,
    ⟨.bare, '\'', "a".toList, false, by decide, by decide, by decide⟩]

/-- Imports of several shapes are read, and one that comes twice is listed once. -/
theorem imports_of_crowdedImports :
    imports (crowdedImports.flatMap WrittenImport.line ++ "import c from './c'".toList) =
      ["a", "b", "./c"] :=
  (imports_render crowdedImports _).trans (by decide +kernel)

end SuiteScope.Source
