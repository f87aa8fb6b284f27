import SuiteScope.Proofs.Source.ImportList

/-!
# Lines behind a source

A statement that is read in a source is read with more lines behind it as well, and the reading goes
on at the same place (`Stays`). What more lines can do is to give a statement an end where the source
has none : a clause runs over line ends, and over any statement on the way, up to a dependency in
those lines (`Overrun`). Only a start of a statement with nothing behind it that ends a clause does so
(`RunsOn`).

So the imports of a source and of the lines behind it come one after the other unless a statement
overruns. If one does, the dependencies that it runs over are lost unless they are named elsewhere
(`imports_append_newline`).
-/

namespace SuiteScope.Source

open SuiteScope.Text

variable {s t rest : List Char} {name : String}

/-- What `found` reads in a text, `found'` reads with the line end and `t` behind it. Where only
`found'` reads something, it ends in `t`, and `unended` tells what the text is like. -/
structure Stays (t : List Char) (unended : Prop) (found found' : Option (String × List Char)) :
    Prop where
  kept : ∀ {name rest}, found = some (name, rest) → found' = some (name, rest ++ '\n' :: t)
  across : ∀ {name rest}, found = none → found' = some (name, rest) → unended ∧ rest <:+ t

/-- A start of a statement that nothing ends : a keyword, white space and characters of a clause. -/
def RunsOn (s : List Char) : Prop :=
  ∃ keyword ∈ clauseKeywords, ∃ clause, s = keyword ++ clause ∧
    (∀ c ∈ clause.head?, isBlank c = true) ∧ clause.all isClauseChar = true

/-- The search through a source and the search through it with `t` behind it both come to `b`, behind
the dependencies `kept`. There the source alone has no statement. With `t` behind it there is one, for
`name`, in front of `rest`. -/
inductive Overrun (t b : List Char) (name : String) (rest : List Char) :
    (ready : Bool) → (s : List Char) → (kept : List String) → Prop
  | here (alone : statement? b = none) (read : statement? (b ++ '\n' :: t) = some (name, rest)) :
    Overrun t b name rest true b []
  | skip {ready : Bool} {c : Char} {s : List Char} {kept : List String}
    (none : ready = true → statement? (c :: (s ++ '\n' :: t)) = none)
    (behind : Overrun t b name rest (readyAfter ready c) s kept) :
    Overrun t b name rest ready (c :: s) kept
  | found {s left : List Char} {first : String} {kept : List String}
    (read : statement? s = some (first, left)) (behind : Overrun t b name rest false left kept) :
    Overrun t b name rest true s (first :: kept)

/-! ## What stays read -/

/-- Nothing is found, whatever is added. -/
theorem Stays.nothing (t : List Char) (unended : Prop) : Stays t unended none none :=
  ⟨nofun, nofun⟩

theorem Stays.imp {unended unended' : Prop} {found found' : Option (String × List Char)}
    (h : Stays t unended found found') (himp : unended → unended') :
    Stays t unended' found found' :=
  ⟨h.kept, fun hnone hsome => (h.across hnone hsome).imp_left himp⟩

/-- The first of two readings cannot come in only now if the second one has read something. -/
theorem Stays.or {p q : Prop} {f f' g g' : Option (String × List Char)} (hf : Stays t p f f')
    (hg : Stays t q g g') (hpq : p → q) (hpg : p → g = none) :
    Stays t q (f.or g) (f'.or g') where
  kept := by
    intro name rest h
    rcases Option.or_eq_some_iff.mp h with h | ⟨hfnone, h⟩
    · rw [hf.kept h, Option.some_or]
    · have hfnone' : f' = none := by
        refine Option.eq_none_iff_forall_ne_some.mpr fun found hfound => ?_
        rw [hpg (hf.across hfnone hfound).1] at h
        cases h
      rw [hfnone', Option.none_or, hg.kept h]
  across := by
    intro name rest h h'
    obtain ⟨hfnone, hgnone⟩ := Option.or_eq_none_iff.mp h
    rcases Option.or_eq_some_iff.mp h' with h' | ⟨-, h'⟩
    · exact (hf.across hfnone h').imp_left hpq
    · exact hg.across hgnone h'

/-- What ends with a quote behind a line end ends behind that line end. -/
theorem suffix_of_quote {x : List Char} {q : Char} (h : '\n' :: t = x ++ q :: rest)
    (hq : isDependencyQuote q = true) : rest <:+ t := by
  cases x with
  | nil =>
    obtain ⟨rfl, -⟩ := List.cons.inj h
    simp [isDependencyQuote] at hq
  | cons c x => exact ⟨x ++ [q], by simp [(List.cons.inj h).2]⟩

theorem isPrefixOf?_append_newline {w : List Char} (hw : '\n' ∉ w) (s t : List Char) :
    w.isPrefixOf? (s ++ '\n' :: t) = (w.isPrefixOf? s).map (· ++ '\n' :: t) := by
  cases h : w.isPrefixOf? s with
  | some rest =>
    rw [← List.isPrefixOf?_eq_some_iff_append_eq.mp h, List.append_assoc]
    exact List.isPrefixOf?_eq_some_iff_append_eq.mpr rfl
  | none =>
    refine Option.eq_none_iff_forall_ne_some.mpr fun rest hrest => ?_
    obtain ⟨left, hleft⟩ :=
      prefix_append_cons hw ⟨rest, List.isPrefixOf?_eq_some_iff_append_eq.mp hrest⟩
    simp [List.isPrefixOf?_eq_some_iff_append_eq.mpr hleft] at h

/-! ## Dependencies -/

/-- A dependency is white space and a name in quotes. -/
theorem dependency?_eq_some_iff_append : dependency? s = some (name, rest) ↔
    ∃ x q y close, s = x ++ q :: (y ++ close :: rest) ∧ x.all isBlank = true ∧
      isDependencyQuote q = true ∧ y ≠ [] ∧ y.all isDependencyChar = true ∧
      isDependencyQuote close = true ∧ name = String.ofList y := by
  rw [dependency?_eq_some_iff]
  constructor
  · rintro ⟨q, z, close, hdrop, hleft, hq, hne, hclose, rfl⟩
    refine ⟨s.takeWhile isBlank, q, z.takeWhile isDependencyChar, close, ?_, List.all_takeWhile,
      hq, hne, List.all_takeWhile, hclose, rfl⟩
    rw [← hleft, List.takeWhile_append_dropWhile, ← hdrop, List.takeWhile_append_dropWhile]
  · rintro ⟨x, q, y, close, rfl, hx, hq, hne, hy, hclose, rfl⟩
    have hblank : ∀ c ∈ (q :: (y ++ close :: rest)).head?, isBlank c = false := by
      simp only [isDependencyQuote, Bool.or_eq_true, beq_iff_eq] at hq
      rcases hq with rfl | rfl <;> simp [isBlank]
    have hend : ∀ c ∈ (close :: rest).head?, isDependencyChar c = false := by
      simp [isDependencyChar, hclose]
    have htake := takeWhile_append_of_head hy hend
    exact ⟨q, y ++ close :: rest, close, dropWhile_append_of_head hx hblank,
      dropWhile_append_of_head hy hend, hq, htake.symm ▸ hne, hclose, by rw [htake]⟩

theorem newline_not_mem_quoted {y : List Char} {q close : Char} (hq : isDependencyQuote q = true)
    (hy : y.all isDependencyChar = true) (hclose : isDependencyQuote close = true) :
    '\n' ∉ q :: (y ++ [close]) := by
  have hquote (c : Char) (hc : isDependencyQuote c = true) : '\n' ≠ c := by
    rintro rfl
    simp [isDependencyQuote] at hc
  have hmem : '\n' ∉ y := fun hmem => by
    simpa [isDependencyChar] using List.all_eq_true.mp hy '\n' hmem
  simp [hquote q hq, hquote close hclose, hmem]

/-- A name in quotes stands on one line. -/
theorem stays_dependency (s t : List Char) :
    Stays t (s.all isBlank = true) (dependency? s) (dependency? (s ++ '\n' :: t)) where
  kept := by
    intro name rest h
    obtain ⟨x, q, y, close, rfl, hread⟩ := dependency?_eq_some_iff_append.mp h
    exact dependency?_eq_some_iff_append.mpr ⟨x, q, y, close, by simp, hread⟩
  across := by
    intro name rest hnone h
    obtain ⟨x, q, y, close, heq, hx, hq, hne, hy, hclose, rfl⟩ :=
      dependency?_eq_some_iff_append.mp h
    rcases List.append_eq_append_iff.mp heq with ⟨z, rfl, hz⟩ | ⟨z, rfl, hz⟩
    · rw [List.all_append, Bool.and_eq_true] at hx
      exact ⟨hx.1, suffix_of_quote (x := z ++ q :: y) (by simpa using hz) hclose⟩
    · obtain ⟨left, rfl⟩ : q :: (y ++ [close]) <+: z :=
        prefix_append_cons (newline_not_mem_quoted hq hy hclose) ⟨rest, by simpa using hz⟩
      have hread : dependency? (x ++ (q :: (y ++ [close]) ++ left)) =
          some (String.ofList y, left) := dependency?_eq_some_iff_append.mpr
        ⟨x, q, y, close, by simp, hx, hq, hne, hy, hclose, rfl⟩
      cases hnone.symm.trans hread

/-! ## Clauses and statements -/

theorem isClauseText_of_isBlank {c : Char} (h : isBlank c = true) : isClauseText c = true := by
  rw [← Bool.not_eq_false]
  intro hc
  simp only [isClauseText, isClauseChar, isDependencyQuote, Bool.and_eq_false_iff,
    Bool.not_eq_false', Bool.or_eq_true, beq_iff_eq] at hc
  rcases hc with ((((rfl | rfl) | rfl) | rfl)) | (rfl | rfl) <;> simp [isBlank] at h

theorem all_isClauseText_of_isBlank (h : s.all isBlank = true) : s.all isClauseText = true :=
  List.all_eq_true.mpr fun c hc => isClauseText_of_isBlank (List.all_eq_true.mp h c hc)

theorem all_isClauseChar_of_isClauseText (h : s.all isClauseText = true) :
    s.all isClauseChar = true :=
  List.all_eq_true.mpr fun c hc => (Bool.and_eq_true _ _ ▸ List.all_eq_true.mp h c hc).1

/-- No reading that ends with a quote reads anything in a text without one. -/
theorem eq_none_of_isClauseText {found : Option (String × List Char)}
    (h : s.all isClauseText = true)
    (hfound : ∀ {name rest}, found = some (name, rest) →
      ∃ x q, s = x ++ q :: rest ∧ isDependencyQuote q = true) : found = none := by
  refine Option.eq_none_iff_forall_ne_some.mpr ?_
  rintro ⟨name, rest⟩ hsome
  obtain ⟨x, q, rfl, hq⟩ := hfound hsome
  simp [not_quote_of_fits h q (by simp)] at hq

/-- A dependency behind `from` is found as before, or the text has run on to its end. -/
theorem stays_from (before : Option Char) (s t : List Char) :
    Stays t (s.all isClauseText = true) (fromDependency? before s)
      (fromDependency? before (s ++ '\n' :: t)) := by
  unfold fromDependency?
  split
  · rw [isPrefixOf?_append_newline (by decide)]
    cases hword : "from".toList.isPrefixOf? s with
    | none => exact .nothing t _
    | some u =>
      refine (stays_dependency u t).imp fun hu => ?_
      rw [← List.isPrefixOf?_eq_some_iff_append_eq.mp hword, List.all_append,
        all_isClauseText_of_isBlank hu]
      decide
  · exact .nothing t _

/-- A clause that has no end goes on behind the line end. -/
theorem stays_clause (before : Option Char) (s t : List Char) :
    Stays t (s.all isClauseChar = true) (clauseDependency? before s)
      (clauseDependency? before (s ++ '\n' :: t)) := by
  induction s generalizing before with
  | nil =>
    refine ⟨fun h => ?_, fun _ h => ?_⟩
    · obtain ⟨x, q, hnil, -⟩ := exists_clauseDependency h
      simp at hnil
    · obtain ⟨x, q, hx, hq⟩ := exists_clauseDependency h
      exact ⟨rfl, suffix_of_quote hx hq⟩
  | cons c s ih =>
    rw [List.cons_append, clauseDependency?_cons, clauseDependency?_cons]
    have hbehind : Stays t ((c :: s).all isClauseChar = true)
        (if isClauseChar c then clauseDependency? (some c) s else none)
        (if isClauseChar c then clauseDependency? (some c) (s ++ '\n' :: t) else none) := by
      split
      next hc => exact (ih (some c)).imp fun hs => by rw [List.all_cons, hc, hs, Bool.and_self]
      · exact .nothing t _
    refine (stays_from before (c :: s) t).or hbehind all_isClauseChar_of_isClauseText ?_
    intro htext
    split
    · rw [List.all_cons, Bool.and_eq_true] at htext
      exact eq_none_of_isClauseText htext.2 exists_clauseDependency
    · rfl

/-- So is one behind the first word of a statement. -/
theorem stays_tail (s t : List Char) :
    Stays t ((∀ c ∈ s.head?, isBlank c = true) ∧ s.all isClauseChar = true) (statementTail? s)
      (statementTail? (s ++ '\n' :: t)) := by
  cases s with
  | nil =>
    refine ⟨nofun, fun _ h => ?_⟩
    obtain ⟨x, q, hx, hq⟩ := exists_statementTail h
    exact ⟨⟨nofun, rfl⟩, suffix_of_quote hx hq⟩
  | cons c s =>
    rw [List.cons_append, statementTail?, statementTail?]
    split
    next hc =>
      refine (stays_clause (some c) s t).imp fun hs => ⟨by simpa using hc, ?_⟩
      rw [List.all_cons, hs, Bool.and_true]
      exact (Bool.and_eq_true _ _ ▸ isClauseText_of_isBlank hc).1
    · exact .nothing t _

/-- So is one of a whole statement. -/
theorem stays_statement (s t : List Char) :
    Stays t (RunsOn s) (statement? s) (statement? (s ++ '\n' :: t)) := by
  have hruns {keyword u : List Char} (hkeyword : keyword ∈ clauseKeywords)
      (hu : keyword.isPrefixOf? s = some u)
      (h : (∀ c ∈ u.head?, isBlank c = true) ∧ u.all isClauseChar = true) : RunsOn s :=
    ⟨keyword, hkeyword, u, (List.isPrefixOf?_eq_some_iff_append_eq.mp hu).symm, h⟩
  unfold statement?
  rw [isPrefixOf?_append_newline (by decide), isPrefixOf?_append_newline (by decide)]
  cases himport : "import".toList.isPrefixOf? s with
  | some u =>
    have htail := (stays_tail u t).imp (hruns List.mem_cons_self himport)
    refine (stays_dependency u t).or htail (fun hu => ?_) fun hu => ?_
    · have hhead (c : Char) (hc : c ∈ u.head?) : isBlank c = true :=
        List.all_eq_true.mp hu c (List.mem_of_mem_head? hc)
      exact hruns List.mem_cons_self himport
        ⟨hhead, all_isClauseChar_of_isClauseText (all_isClauseText_of_isBlank hu)⟩
    · exact eq_none_of_isClauseText (all_isClauseText_of_isBlank hu) exists_statementTail
  | none =>
    cases hexport : "export".toList.isPrefixOf? s with
    | some u => exact (stays_tail u t).imp (hruns (by simp [clauseKeywords]) hexport)
    | none => exact .nothing t _

/-! ## The search -/

/-- Either a statement overruns, or the search comes to `t` as to a source of its own. -/
theorem overrun_or_append {ready : Bool} {names : List String} (h : Statements ready s names)
    (t : List Char) : (∃ b name rest kept, Overrun t b name rest ready s kept) ∨
      importsFrom ready (s ++ '\n' :: t) = names ++ importsFrom true t := by
  induction h with
  | nil ready =>
    have hline : readyAfter ready '\n' = true := by simp [readyAfter]
    refine .inr ?_
    rw [List.nil_append, importsFrom_skip fun _ => statement?_blank (by decide) t, hline]
    rfl
  | @skip ready c s names hnone hbehind ih =>
    by_cases hover : ready = true ∧ statement? (c :: (s ++ '\n' :: t)) ≠ none
    · obtain ⟨rfl, hsome⟩ := hover
      obtain ⟨⟨name, rest⟩, hread⟩ := Option.ne_none_iff_exists'.mp hsome
      exact .inl ⟨c :: s, name, rest, [], .here (hnone rfl) hread⟩
    · rw [not_and, ne_eq, Decidable.not_not] at hover
      rcases ih with ⟨b, name, rest, kept, ih⟩ | ih
      · exact .inl ⟨b, name, rest, kept, .skip hover ih⟩
      · rw [List.cons_append, importsFrom_skip hover, ih]
        exact .inr rfl
  | @found s left first names hread hbehind ih =>
    rcases ih with ⟨b, name, rest, kept, ih⟩ | ih
    · exact .inl ⟨b, name, rest, first :: kept, .found hread ih⟩
    · rw [importsFrom_of_statement ((stays_statement s t).kept hread), ih]
      exact .inr rfl

namespace Overrun

variable {b : List Char} {ready : Bool} {kept : List String}

/-- Up to the statement that overruns, the search finds the same with and without `t`. -/
theorem importsFrom_eq (h : Overrun t b name rest ready s kept) :
    importsFrom ready s = kept ++ importsFrom true b ∧
      importsFrom ready (s ++ '\n' :: t) = kept ++ name :: importsFrom false rest := by
  induction h with
  | here alone read => exact ⟨rfl, importsFrom_of_statement read⟩
  | @skip ready c s kept hnone hbehind ih =>
    have halone (hready : ready = true) : statement? (c :: s) = none := by
      refine Option.eq_none_iff_forall_ne_some.mpr ?_
      rintro ⟨name, rest⟩ hsome
      cases (hnone hready).symm.trans ((stays_statement (c :: s) t).kept hsome)
    rw [List.cons_append, importsFrom_skip hnone, importsFrom_skip halone]
    exact ih
  | @found s left first kept hread hbehind ih =>
    rw [importsFrom_of_statement hread,
      importsFrom_of_statement ((stays_statement s t).kept hread), ih.1, ih.2]
    exact ⟨rfl, rfl⟩

/-- What overruns is a start of a statement at the end of the source. It ends in `t`. -/
theorem runsOn (h : Overrun t b name rest ready s kept) : RunsOn b ∧ b <:+ s ∧ rest <:+ t := by
  induction h with
  | here alone read =>
    obtain ⟨hruns, hrest⟩ := (stays_statement b t).across alone read
    exact ⟨hruns, List.suffix_refl b, hrest⟩
  | skip none behind ih => exact ⟨ih.1, ih.2.1.trans (List.suffix_cons _ _), ih.2.2⟩
  | found read behind ih =>
    obtain ⟨x, q, rfl, -⟩ := exists_statement read
    exact ⟨ih.1, ih.2.1.trans ⟨x ++ [q], by simp⟩, ih.2.2⟩

end Overrun

theorem imports_eq_importsFrom (s : List Char) : imports s = (importsFrom true s).eraseDups := by
  obtain ⟨names, h⟩ := exists_statements true s
  rw [imports_eq h, importsFrom_of_statements h]

/-- Without a statement that overruns, the imports of the lines behind a source follow its own. -/
theorem imports_append_of_not_overrun
    (h : ∀ b name rest kept, ¬Overrun t b name rest true s kept) :
    imports (s ++ '\n' :: t) = (imports s ++ imports t).eraseDups := by
  obtain ⟨names, hnames⟩ := exists_statements true s
  rcases overrun_or_append hnames t with ⟨b, name, rest, kept, hover⟩ | happend
  · exact absurd hover (h b name rest kept)
  · rw [imports_eq_importsFrom, happend, imports_eq hnames, imports_eq_importsFrom t,
      eraseDups_eraseDups_append, eraseDups_append_eraseDups]

/-- What is lost by an overrun, and what is found instead. -/
theorem imports_of_overrun_eq {b : List Char} {kept : List String}
    (h : Overrun t b name rest true s kept) : imports s = (kept ++ imports b).eraseDups ∧
      imports (s ++ '\n' :: t) = (kept ++ name :: importsFrom false rest).eraseDups := by
  rw [imports_eq_importsFrom, imports_eq_importsFrom b, eraseDups_append_eraseDups,
    imports_eq_importsFrom, h.importsFrom_eq.1, h.importsFrom_eq.2]
  exact ⟨rfl, rfl⟩

/-- The imports of a source and of the lines behind it come one after the other, unless a statement
without an end at the end of the source finds one in those lines. Then the imports in front of that
statement stay. Those behind it stay exactly if its dependency, or the text behind that, names them
again. -/
theorem imports_append_newline (s t : List Char) :
    ((∀ b name rest kept, ¬Overrun t b name rest true s kept) →
      imports (s ++ '\n' :: t) = (imports s ++ imports t).eraseDups) ∧
    (∀ b name rest kept, Overrun t b name rest true s kept →
      (RunsOn b ∧ b <:+ s ∧ rest <:+ t) ∧ imports s = (kept ++ imports b).eraseDups ∧
        imports (s ++ '\n' :: t) = (kept ++ name :: importsFrom false rest).eraseDups) ∧
    (imports s ⊆ imports (s ++ '\n' :: t) ↔
      ∀ b name rest kept, Overrun t b name rest true s kept →
        imports b ⊆ kept ++ name :: importsFrom false rest) := by
  refine ⟨imports_append_of_not_overrun,
    fun b name rest kept h => ⟨h.runsOn, imports_of_overrun_eq h⟩,
    fun hsubset b name rest kept h d hd => ?_, fun hsubset => ?_⟩
  · obtain ⟨hs, ht⟩ := imports_of_overrun_eq h
    rw [hs, ht] at hsubset
    exact List.mem_eraseDups.mp
      (hsubset (List.mem_eraseDups.mpr (List.mem_append_right kept hd)))
  · by_cases hover : ∃ b name rest kept, Overrun t b name rest true s kept
    · obtain ⟨b, name, rest, kept, h⟩ := hover
      obtain ⟨hs, ht⟩ := imports_of_overrun_eq h
      rw [hs, ht]
      intro d hd
      rcases List.mem_append.mp (List.mem_eraseDups.mp hd) with hd | hd
      · exact List.mem_eraseDups.mpr (List.mem_append_left _ hd)
      · exact List.mem_eraseDups.mpr (hsubset b name rest kept h hd)
    · simp only [not_exists] at hover
      rw [imports_append_of_not_overrun hover]
      intro d hd
      exact List.mem_eraseDups.mpr (List.mem_append_left _ hd)

/-- An export that names no dependency runs over the import on the next line. -/
theorem imports_of_overrun :
    let s := "export default App\nimport './setup'".toList
    let t := "import \x7b a \x7d from './a'".toList
    Overrun t s "./a" [] true s [] ∧ imports s = ["./setup"] ∧
      imports (s ++ '\n' :: t) = ["./a"] :=
  ⟨.here (by decide +kernel) (by decide +kernel), by decide +kernel, by decide +kernel⟩

end SuiteScope.Source
