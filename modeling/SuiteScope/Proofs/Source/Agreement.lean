import SuiteScope.Proofs.Source.Comments
import SuiteScope.Proofs.Source.Statements

/-!
# Statements around comments

A statement is read twice, in a source and in the same source without its comments, from a place
outside comments. The two readings agree (`Agree`) if they find the same dependency and go on at the
same place, or both find none. `keepsStatement` tells when a comment makes no difference : it stands
between no `import` or `from` and its dependency, it ends no clause that the statement needs, and
nothing in it passes for the end of one. Then the readings agree (`agree_statement`).

Inside a clause both readings move on together, the one through a comment and the other through
spaces (`agree_clause`). All that the next word depends on is whether it may start (`InStep`).
-/

namespace SuiteScope.Source

open SuiteScope.Text

/-- What is found in `s`, which stands in mode `m`, is found without the comments, and the reading
goes on at the same place. -/
def Agree (m : Mode) (s : List Char) : (found found' : Option (String × List Char)) → Prop
  | none, found' => found' = none
  | some (name, rest), found' => ∃ x q, s = x ++ q :: rest ∧ isDependencyQuote q = true ∧
      found' = some (name, uncommentedFrom (modeAfter m (x ++ [q]) rest) rest)

/-- Whether the same dependency stands here with the comments as without. -/
def keepsDependency (m : Mode) (s : List Char) : Bool :=
  (dependency? (uncommentedFrom m s)).map (·.1) == (dependency? s).map (·.1)

/-- Whether the same dependency stands behind a `from` at this place. -/
def keepsFrom (m : Mode) (before : Option Char) (s : List Char) : Bool :=
  !isWordStart before ||
    ("from".toList.isPrefixOf? s).all fun t => keepsDependency (modeAfter m "from".toList t) t

/-- Whether comments leave the rest of a clause alone : none of their characters ends it or starts a
`from` with a dependency, and each `from` in front of the end keeps its dependency. -/
def keepsClause : (m : Mode) → (before : Option Char) → List Char → Bool
  | _, _, [] => true
  | m, before, c :: s =>
    let behind := keepsClause (m.after c s.head?) (some c) s
    if m.comments c s.head? then
      isClauseChar c && (fromDependency? before (c :: s)).isNone && behind
    else
      keepsFrom m before (c :: s) &&
        ((fromDependency? before (c :: s)).isSome || !isClauseChar c || behind)

/-- Whether comments leave what follows the keyword of a statement alone. A comment that touches the
keyword leaves it alone if no clause with a dependency follows that comment. -/
def keepsTail (m : Mode) : List Char → Bool
  | [] => true
  | c :: s =>
    if m.comments c s.head? then (statementTail? (uncommentedFrom m (c :: s))).isNone
    else !isBlank c || keepsClause (m.after c s.head?) (some c) s

/-- Whether comments leave the statement that may start here alone. -/
def keepsStatement (m : Mode) (s : List Char) : Bool :=
  match "import".toList.isPrefixOf? s with
  | some t =>
    let m := modeAfter m "import".toList t
    keepsDependency m t && ((dependency? t).isSome || keepsTail m t)
  | none =>
    ("export".toList.isPrefixOf? s).all fun t => keepsTail (modeAfter m "export".toList t) t

/-- What agrees behind some text agrees in front of it. -/
theorem Agree.append {m : Mode} {w s : List Char} {found found' : Option (String × List Char)}
    (h : Agree (modeAfter m w s) s found found') : Agree m (w ++ s) found found' := by
  cases found with
  | none => exact h
  | some found =>
    obtain ⟨name, rest⟩ := found
    obtain ⟨x, q, rfl, hq, rfl⟩ := h
    refine ⟨w ++ x, q, (List.append_assoc ..).symm, hq, ?_⟩
    have hmode := modeAfter_append m w (x ++ [q]) rest
    rw [List.append_assoc, List.singleton_append] at hmode
    rw [List.append_assoc, hmode]

/-- Two readings agree, one tried after the other, if both of them do. -/
theorem Agree.or {m : Mode} {s : List Char} {f f' g g' : Option (String × List Char)}
    (hf : Agree m s f f') (hg : f = none → Agree m s g g') : Agree m s (f.or g) (f'.or g') := by
  cases f with
  | none =>
    obtain rfl : f' = none := hf
    exact hg rfl
  | some found =>
    obtain ⟨x, q, hs, hq, rfl⟩ := hf
    exact ⟨x, q, hs, hq, rfl⟩

/-! ## Dependencies -/

theorem ne_slash_of_isBlank {c : Char} (h : isBlank c = true) : c ≠ '/' := by
  rintro rfl
  simp [isBlank] at h

theorem ne_slash_of_isDependencyQuote {c : Char} (h : isDependencyQuote c = true) : c ≠ '/' := by
  rintro rfl
  simp [isDependencyQuote] at h

/-- White space in front of a dependency holds no comment. -/
theorem dropWhile_isBlank_uncommentedFrom {m : Mode} (hm : m.outside = true) {c : Char}
    {s t : List Char} (h : s.dropWhile isBlank = c :: t) (hc : c ≠ '/') :
    let x := s.takeWhile isBlank ++ [c]
    s = x ++ t ∧ (modeAfter m x t).outside = true ∧
      (uncommentedFrom m s).dropWhile isBlank = c :: uncommentedFrom (modeAfter m x t) t := by
  intro x
  have hs : s = x ++ t := by
    rw [List.append_assoc, List.singleton_append, ← h, List.takeWhile_append_dropWhile]
  have hx : '/' ∉ x := by
    have hblank : ∀ d ∈ s.takeWhile isBlank, d ≠ '/' := fun d hd =>
      ne_slash_of_isBlank (List.all_eq_true.mp List.all_takeWhile d hd)
    simp only [x, List.mem_append, List.mem_singleton, not_or]
    exact ⟨fun hmem => hblank '/' hmem rfl, Ne.symm hc⟩
  have hlast : ¬isBlank c = true := by
    have hhead := List.head?_dropWhile_not isBlank s
    rw [h] at hhead
    simpa using hhead
  refine ⟨hs, outside_modeAfter hm hx t, ?_⟩
  conv_lhs => rw [hs, uncommentedFrom_append hm hx, List.append_assoc, List.singleton_append]
  rw [List.dropWhile_append_of_pos fun d hd => List.all_eq_true.mp List.all_takeWhile d hd,
    List.dropWhile_cons, if_neg hlast]

/-- A dependency that is the same without comments holds none. -/
theorem dropWhile_uncommentedFrom {m : Mode} (hm : m.outside = true) {s : List Char}
    (h : (uncommentedFrom m s).takeWhile isDependencyChar = s.takeWhile isDependencyChar) :
    (uncommentedFrom m s).dropWhile isDependencyChar =
        uncommentedFrom (modeAfter m (s.takeWhile isDependencyChar) (s.dropWhile isDependencyChar))
          (s.dropWhile isDependencyChar) ∧
      (modeAfter m (s.takeWhile isDependencyChar)
        (s.dropWhile isDependencyChar)).outside = true := by
  induction s generalizing m with
  | nil => exact ⟨rfl, hm⟩
  | cons c s ih =>
    cases hc : m.comments c s.head? with
    | true =>
      obtain rfl := slash_of_comments hm hc
      have hslash : isDependencyChar '/' = true := by decide
      have hspace : isDependencyChar ' ' = true := by decide
      have hsize : '/'.utf8Size = 1 := rfl
      rw [uncommentedFrom_comment hc (by decide), hsize] at h
      simp [hslash, hspace] at h
    | false =>
      rw [uncommentedFrom_live hc] at h ⊢
      cases hchar : isDependencyChar c with
      | true =>
        simp only [List.takeWhile_cons, List.dropWhile_cons, hchar, if_true, List.cons.injEq,
          true_and] at h ⊢
        have hs := ih (outside_after hm hc) h
        rwa [modeAfter, List.takeWhile_append_dropWhile]
      | false =>
        simp only [List.takeWhile_cons, List.dropWhile_cons, hchar, Bool.false_eq_true, if_false]
        exact ⟨(uncommentedFrom_live hc).symm, hm⟩

/-- A quoted dependency is read with comments and without. -/
theorem agree_dependency {m : Mode} (hm : m.outside = true) {s : List Char}
    (h : keepsDependency m s = true) :
    Agree m s (dependency? s) (dependency? (uncommentedFrom m s)) := by
  rw [keepsDependency, beq_iff_eq] at h
  cases hread : dependency? s with
  | none =>
    rw [hread, Option.map_none, Option.map_eq_none_iff] at h
    exact h
  | some found =>
    obtain ⟨name, rest⟩ := found
    rw [hread] at h
    obtain ⟨⟨name', rest'⟩, hread', hnames⟩ := Option.map_eq_some_iff.mp h
    obtain rfl : name' = name := hnames
    obtain ⟨c, t, close, ht, hleft, hopen, -, hclose, hname⟩ := dependency?_eq_some_iff.mp hread
    obtain ⟨c', t', close', ht', hleft', -, -, -, hname'⟩ := dependency?_eq_some_iff.mp hread'
    obtain ⟨hs, hinner, hopened⟩ := dropWhile_isBlank_uncommentedFrom hm ht
      (ne_slash_of_isDependencyQuote hopen)
    rw [hopened] at ht'
    obtain ⟨rfl, rfl⟩ := List.cons.inj ht'
    -- the names are equal, so what stands between the quotes is
    obtain ⟨hclosed, hinner'⟩ :=
      dropWhile_uncommentedFrom hinner (String.ofList_inj.mp (hname'.symm.trans hname))
    rw [hleft] at hclosed hinner'
    have hlive := comments_eq_false hinner' (ne_slash_of_isDependencyQuote hclose) rest.head?
    rw [hleft', uncommentedFrom_live hlive] at hclosed
    obtain ⟨rfl, rfl⟩ := List.cons.inj hclosed
    have ht : t = t.takeWhile isDependencyChar ++ close' :: rest := by
      rw [← hleft, List.takeWhile_append_dropWhile]
    have htext : t.takeWhile isDependencyChar ++ [close'] ++ rest = t := by
      rw [List.append_assoc, List.singleton_append, ← ht]
    have hmode := modeAfter_append m (s.takeWhile isBlank ++ [c])
      (t.takeWhile isDependencyChar ++ [close']) rest
    rw [htext, modeAfter_append _ (t.takeWhile isDependencyChar)] at hmode
    refine ⟨s.takeWhile isBlank ++ [c] ++ t.takeWhile isDependencyChar, close', ?_, hclose, ?_⟩
    · rwa [List.append_assoc, ← ht]
    · rw [hread', List.append_assoc _ _ [close'], hmode]
      rfl

/-! ## Clauses -/

theorem clauseDependency?_spaces {n : Nat} (hn : n ≠ 0) (before : Option Char) (s : List Char) :
    clauseDependency? before (List.replicate n ' ' ++ s) = clauseDependency? (some ' ') s := by
  induction n generalizing before with
  | zero => exact absurd rfl hn
  | succ n ih =>
    have hspace : isClauseChar ' ' = true := by decide
    rw [List.replicate_succ, List.cons_append, clauseDependency?_cons,
      fromDependency?_cons_eq_none (by decide), Option.none_or, if_pos hspace]
    cases n with
    | zero => rfl
    | succ n => exact ih (by omega) (some ' ')

/-- So is the word `from` with its dependency. -/
theorem agree_from {m : Mode} (hm : m.outside = true) {before before' : Option Char}
    (hword : isWordStart before = isWordStart before') {s : List Char}
    (h : keepsFrom m before s = true) :
    Agree m s (fromDependency? before s) (fromDependency? before' (uncommentedFrom m s)) := by
  unfold fromDependency?
  rw [← hword, isPrefixOf?_uncommentedFrom hm (by decide) (by decide)]
  rw [keepsFrom] at h
  cases hstart : isWordStart before with
  | false => exact rfl
  | true =>
    rw [hstart, Bool.not_true, Bool.false_or] at h
    cases ht : "from".toList.isPrefixOf? s with
    | none => exact rfl
    | some t =>
      rw [ht, Option.all_some] at h
      obtain rfl := List.isPrefixOf?_eq_some_iff_append_eq.mp ht
      exact (agree_dependency (outside_modeAfter hm (by decide) t) h).append

/-- A comment is left with its closing slash. -/
theorem blockClosing_of_outside {m : Mode} {c : Char} {next : Option Char}
    (h : m.comments c next = true) (hafter : (m.after c next).outside = true) :
    m = .blockClosing := by
  cases m with
  | code =>
    simp only [Mode.comments, Bool.and_eq_true, Bool.or_eq_true, beq_iff_eq] at h
    obtain ⟨rfl, rfl | rfl⟩ := h <;> cases hafter
  | lineComment =>
    rw [Mode.after, if_neg (by simpa [Mode.comments] using h)] at hafter
    cases hafter
  | blockComment =>
    rw [Mode.after] at hafter
    split at hafter <;> cases hafter
  | blockClosing => rfl
  | quoted q => cases h
  | escaped q => cases h
  | lineOpening => cases hafter
  | blockOpening => cases hafter

/-- What the two readings of a clause have in common : where they stand outside comments a word may
start for both or for none. -/
structure InStep (m : Mode) (before before' : Option Char) (s : List Char) : Prop where
  word : m.outside = true → isWordStart before = isWordStart before'
  closing : m = .blockClosing → s.head? = some '/'

theorem inStep_after (m : Mode) (c : Char) (s : List Char) :
    InStep (m.after c s.head?) (some c) (some c) s :=
  ⟨fun _ => rfl, head?_of_blockClosing⟩

/-- A comment is one blank for the text without comments. -/
theorem InStep.comment {m : Mode} {before before' : Option Char} {c : Char} {s : List Char}
    (h : InStep m before before' (c :: s)) (hc : m.comments c s.head? = true) :
    InStep (m.after c s.head?) (some c) (some ' ') s := by
  refine ⟨fun hafter => ?_, head?_of_blockClosing⟩
  obtain rfl := Option.some.inj (h.closing (blockClosing_of_outside hc hafter))
  rfl

/-- Both readings pass a line end. -/
theorem clauseDependency?_newline (before : Option Char) (s : List Char) :
    clauseDependency? before ('\n' :: s) = clauseDependency? (some '\n') s := by
  have hclause : isClauseChar '\n' = true := by decide
  rw [clauseDependency?_cons, fromDependency?_cons_eq_none (by decide), Option.none_or,
    if_pos hclause]

theorem keepsClause_newline {m : Mode} {before : Option Char} {s : List Char}
    (h : keepsClause m before ('\n' :: s) = true) :
    keepsClause (m.after '\n' s.head?) (some '\n') s = true := by
  have hclause : isClauseChar '\n' = true := by decide
  rw [keepsClause, fromDependency?_cons_eq_none (by decide), hclause] at h
  split at h <;> simp_all

/-- A clause is read with comments and without, by induction over it. Where it starts does not have
to be the same character, only one of the same kind. -/
theorem agree_clause {m : Mode} {before before' : Option Char} {s : List Char}
    (hstep : InStep m before before' s) (h : keepsClause m before s = true) :
    Agree m s (clauseDependency? before s) (clauseDependency? before' (uncommentedFrom m s)) := by
  induction s generalizing m before before' with
  | nil =>
    have hnil (before : Option Char) : clauseDependency? before [] = none := by
      unfold clauseDependency? fromDependency?
      split <;> rfl
    rw [uncommentedFrom_nil, hnil, hnil]
    exact rfl
  | cons c s ih =>
    -- a line end stays, so both readings pass it, whether it stands in a comment or not
    by_cases hnewline : c = '\n'
    · subst hnewline
      rw [uncommentedFrom_newline, clauseDependency?_newline, clauseDependency?_newline]
      exact (ih (inStep_after m '\n' s) (keepsClause_newline h)).append (w := ['\n'])
    · rw [keepsClause] at h
      cases hc : m.comments c s.head? with
      | true =>
        rw [hc, if_pos rfl, Bool.and_eq_true, Bool.and_eq_true, Option.isNone_iff_eq_none] at h
        obtain ⟨⟨hclause, hfrom⟩, hbehind⟩ := h
        rw [uncommentedFrom_comment hc hnewline,
          clauseDependency?_spaces (Nat.ne_of_gt c.utf8Size_pos), clauseDependency?_cons, hfrom,
          Option.none_or, if_pos hclause]
        exact (ih (hstep.comment hc) hbehind).append (w := [c])
      | false =>
        have hm := (outside_of_comments_eq_false hc).resolve_right hnewline
        rw [hc, if_neg (by decide), Bool.and_eq_true] at h
        have hfrom := agree_from hm (hstep.word hm) h.1
        rw [uncommentedFrom_live hc] at hfrom ⊢
        rw [clauseDependency?_cons, clauseDependency?_cons]
        refine hfrom.or fun hnone => ?_
        split
        next hclause =>
          rw [hnone, hclause] at h
          exact (ih (inStep_after m c s) (by simpa using h.2)).append (w := [c])
        · exact rfl

/-! ## Statements -/

/-- So is what follows the first word of a statement. -/
theorem agree_tail {m : Mode} (hm : m.outside = true) {s : List Char}
    (h : keepsTail m s = true) :
    Agree m s (statementTail? s) (statementTail? (uncommentedFrom m s)) := by
  cases s with
  | nil => exact rfl
  | cons c s =>
    rw [keepsTail] at h
    cases hc : m.comments c s.head? with
    | true =>
      obtain rfl := slash_of_comments hm hc
      rw [hc, if_pos rfl, Option.isNone_iff_eq_none] at h
      exact h
    | false =>
      rw [hc, if_neg (by decide)] at h
      rw [uncommentedFrom_live hc, statementTail?, statementTail?]
      cases hblank : isBlank c with
      | true =>
        rw [hblank] at h
        exact (agree_clause (inStep_after m c s) (by simpa using h)).append (w := [c])
      | false => exact rfl

/-- So is a whole statement, if no comment stands inside of what it is made of. -/
theorem agree_statement {m : Mode} (hm : m.outside = true) {s : List Char}
    (h : keepsStatement m s = true) :
    Agree m s (statement? s) (statement? (uncommentedFrom m s)) := by
  unfold statement? keepsStatement at *
  rw [isPrefixOf?_uncommentedFrom hm (by decide) (by decide),
    isPrefixOf?_uncommentedFrom hm (by decide) (by decide)]
  cases himport : "import".toList.isPrefixOf? s with
  | some t =>
    rw [himport] at h
    obtain rfl := List.isPrefixOf?_eq_some_iff_append_eq.mp himport
    simp only [Bool.and_eq_true, Bool.or_eq_true] at h
    have hinner := outside_modeAfter hm (x := "import".toList) (by decide) t
    refine ((agree_dependency hinner h.1).or fun hnone => agree_tail hinner ?_).append
    exact h.2.resolve_left (by simp [hnone])
  | none =>
    rw [himport] at h
    cases hexport : "export".toList.isPrefixOf? s with
    | none => exact rfl
    | some t =>
      rw [hexport] at h
      obtain rfl := List.isPrefixOf?_eq_some_iff_append_eq.mp hexport
      exact (agree_tail (outside_modeAfter hm (by decide) t) h).append

end SuiteScope.Source
