import SuiteScope.Proofs.Source.Agreement

/-!
# Inert comments

The imports of a source are those of the source without its comments, if the comments are
unobtrusive (`imports_withoutComments`) : no statement starts in a comment, no comment stands in
front of a statement on its line, and none gets in the way inside a statement (`Unobtrusive`). Other
comments do change the imports (`imports_of_obtrusive`).

The proof follows the source character by character, with and without the comments at once. `Ready`
is what the two readings have in common about whether a statement may start.
-/

namespace SuiteScope.Source

open SuiteScope.Text

/-- Whether `b` starts in a comment, for a source that is `a ++ b`. -/
def inComment (a : List Char) : (b : List Char) → Bool
  | [] => false
  | c :: s => (modeAfter .code a (c :: s)).comments c s.head?

/-- Whether a statement may start behind `a` once the comments are gone. The text `a` stands in mode
`m` and before `s`. -/
def opensWithout : (ready : Bool) → (m : Mode) → (a s : List Char) → Bool
  | ready, _, [], _ => ready
  | ready, m, c :: a, s =>
    let next := if m.comments c (a ++ s).head? then ready || c == '\n' else readyAfter ready c
    opensWithout next (m.after c (a ++ s).head?) a s

/-- The comments of a source stand in the way of no statement. -/
structure Unobtrusive (s : List Char) : Prop where
  /-- No statement starts in a comment. -/
  inside : ∀ a b, s = a ++ b → inComment a b = true → opensStatement a = true →
    statement? b = none
  /-- No statement starts where only a comment keeps one from starting. -/
  before : ∀ a b, s = a ++ b → opensStatement a = false → opensWithout true .code a b = true →
    statement? (uncommentedFrom (modeAfter .code a b) b) = none
  /-- Comments leave each statement alone. -/
  within : ∀ a b, s = a ++ b → inComment a b = false → opensStatement a = true →
    keepsStatement (modeAfter .code a b) b = true

theorem forall_append_iff {s : List Char} {P : List Char → List Char → Prop} :
    (∀ a b, s = a ++ b → P a b) ↔ ∀ i ≤ s.length, P (s.take i) (s.drop i) := by
  constructor
  · intro h i _
    exact h _ _ (List.take_append_drop i s).symm
  · rintro h a b rfl
    simpa using h a.length (by simp)

instance (s : List Char) : Decidable (Unobtrusive s) :=
  decidable_of_iff
    ((∀ i ≤ s.length, inComment (s.take i) (s.drop i) = true → opensStatement (s.take i) = true →
        statement? (s.drop i) = none) ∧
      (∀ i ≤ s.length, opensStatement (s.take i) = false →
        opensWithout true .code (s.take i) (s.drop i) = true →
        statement? (uncommentedFrom (modeAfter .code (s.take i) (s.drop i)) (s.drop i)) = none) ∧
      ∀ i ≤ s.length, inComment (s.take i) (s.drop i) = false →
        opensStatement (s.take i) = true →
        keepsStatement (modeAfter .code (s.take i) (s.drop i)) (s.drop i) = true)
    ⟨fun h => ⟨forall_append_iff.mpr h.1, forall_append_iff.mpr h.2.1, forall_append_iff.mpr h.2.2⟩,
      fun h => ⟨forall_append_iff.mp h.inside, forall_append_iff.mp h.before,
        forall_append_iff.mp h.within⟩⟩

/-! ## Steps -/

/-- Whether a statement may open without the comments is found character by character. -/
theorem opensWithout_concat (ready : Bool) (m : Mode) (a s : List Char) (c : Char) :
    opensWithout ready m (a ++ [c]) s =
      if (modeAfter m a (c :: s)).comments c s.head? then
        opensWithout ready m a (c :: s) || c == '\n'
      else readyAfter (opensWithout ready m a (c :: s)) c := by
  induction a generalizing ready m with
  | nil => rfl
  | cons d a ih =>
    rw [List.cons_append, opensWithout, ih, List.append_assoc, List.singleton_append]
    rfl

theorem modeAfter_concat (m : Mode) (a s : List Char) (c : Char) :
    modeAfter m (a ++ [c]) s = (modeAfter m a (c :: s)).after c s.head? := by
  rw [modeAfter_append]
  rfl

/-- So is whether one may open with them. -/
theorem opensStatement_concat (a : List Char) (c : Char) :
    opensStatement (a ++ [c]) = readyAfter (opensStatement a) c := by
  rw [opensStatement_append]
  rfl

theorem head?_of_modeAfter {a s : List Char} (h : modeAfter .code a s = .blockClosing) :
    s.head? = some '/' := by
  rcases List.eq_nil_or_concat a with rfl | ⟨a, c, rfl⟩
  · cases h
  · rw [List.concat_eq_append, modeAfter_concat] at h
    exact head?_of_blockClosing h

theorem readyAfter_mono {ready ready' : Bool} (h : ready = true → ready' = true) (c : Char)
    (hc : readyAfter ready c = true) : readyAfter ready' c = true := by
  cases ready with
  | true => rwa [h rfl]
  | false =>
    simp only [readyAfter, Bool.and_false, Bool.or_false] at hc
    simp [readyAfter, hc]

theorem statements_spaces {ready : Bool} (n : Nat) {s : List Char} {names : List String}
    (h : Statements ready s names) : Statements ready (List.replicate n ' ' ++ s) names := by
  induction n with
  | zero => exact h
  | succ n ih =>
    have hspace : readyAfter ready ' ' = ready := by cases ready <;> rfl
    rw [List.replicate_succ, List.cons_append]
    exact .skip (fun _ => statement?_blank (by decide) _) (by rwa [hspace])

/-- How far the two readings agree on whether a statement may start. -/
structure Ready (a s : List Char) (ready ready' : Bool) : Prop where
  with_eq : ready = opensStatement a
  without_le : ready' = true → opensWithout true .code a s = true
  le : (modeAfter .code a s).outside = true → ready = true → ready' = true

/-- A character outside of comments changes both readings in the same way. -/
theorem Ready.live {a s : List Char} {c : Char} {ready ready' : Bool}
    (h : Ready a (c :: s) ready ready') (hm : (modeAfter .code a (c :: s)).outside = true)
    (hc : inComment a (c :: s) = false) :
    Ready (a ++ [c]) s (readyAfter ready c) (readyAfter ready' c) := by
  refine ⟨?_, ?_, fun _ => readyAfter_mono (h.le hm) c⟩
  · rw [opensStatement_concat, h.with_eq]
  · rw [opensWithout_concat, if_neg (by simpa [inComment] using hc)]
    exact readyAfter_mono h.without_le c

/-- A character of a comment is not seen without the comments. -/
theorem Ready.comment {a s : List Char} {c : Char} {ready ready' : Bool}
    (h : Ready a (c :: s) ready ready') (hc : inComment a (c :: s) = true) :
    Ready (a ++ [c]) s (readyAfter ready c) ready' := by
  refine ⟨?_, ?_, fun hm hready => ?_⟩
  · rw [opensStatement_concat, h.with_eq]
  · intro hready'
    rw [opensWithout_concat, if_pos (by simpa [inComment] using hc), h.without_le hready',
      Bool.true_or]
  · rw [modeAfter_concat] at hm
    obtain rfl := Option.some.inj (head?_of_modeAfter (blockClosing_of_outside hc hm))
    cases ready <;> cases hready

/-- A line end is seen in both. -/
theorem Ready.newline {a s : List Char} {ready ready' : Bool}
    (h : Ready a ('\n' :: s) ready ready') :
    Ready (a ++ ['\n']) s (readyAfter ready '\n') (readyAfter ready' '\n') := by
  refine ⟨?_, fun _ => ?_, fun _ _ => rfl⟩
  · rw [opensStatement_concat, h.with_eq]
  · rw [opensWithout_concat]
    split
    · exact Bool.or_true _
    · rfl

section

variable {source a s : List Char} {c : Char} {ready ready' : Bool}

/-- A statement of the source starts outside comments. -/
theorem outside_of_statement (h : Unobtrusive source) (hsource : source = a ++ s)
    (hready : Ready a s true ready') (hread : statement? s ≠ none) :
    inComment a s = false ∧ (modeAfter .code a s).outside = true := by
  have hc : inComment a s = false := by
    by_contra hc
    rw [Bool.not_eq_false] at hc
    exact hread (h.inside _ _ hsource hc hready.with_eq.symm)
  refine ⟨hc, ?_⟩
  cases s with
  | nil => exact absurd rfl hread
  | cons c s =>
    refine (outside_of_comments_eq_false hc).resolve_right ?_
    rintro rfl
    exact hread (statement?_blank (by decide) _)

/-- A statement of the source is read without the comments in it, up to the same place. -/
theorem statement?_uncommentedFrom (h : Unobtrusive source) (hsource : source = a ++ s)
    (hready : Ready a s true ready') {name : String} {rest : List Char}
    (hread : statement? s = some (name, rest)) :
    ready' = true ∧ ∃ x q, s = x ++ q :: rest ∧ isDependencyQuote q = true ∧
      statement? (uncommentedFrom (modeAfter .code a s) s) =
        some (name, uncommentedFrom (modeAfter .code (a ++ (x ++ [q])) rest) rest) := by
  obtain ⟨hc, hm⟩ := outside_of_statement h hsource hready (by rw [hread]; exact Option.some_ne_none _)
  have hagree := agree_statement hm (h.within _ _ hsource hc hready.with_eq.symm)
  rw [hread] at hagree
  obtain ⟨x, q, rfl, hq, hread'⟩ := hagree
  have hmode := modeAfter_append .code a (x ++ [q]) rest
  rw [List.append_assoc, List.singleton_append] at hmode
  rw [← hmode] at hread'
  exact ⟨hready.le hm rfl, x, q, rfl, hq, hread'⟩

/-- Outside comments, no statement starts without the comments where none starts with them. -/
theorem statement?_uncommentedFrom_eq_none (h : Unobtrusive source) (hsource : source = a ++ s)
    (hready : Ready a s ready ready') (hc : inComment a s = false)
    (hm : (modeAfter .code a s).outside = true) (hnone : ready = true → statement? s = none)
    (hready' : ready' = true) :
    statement? (uncommentedFrom (modeAfter .code a s) s) = none := by
  cases ready with
  | true =>
    have hagree := agree_statement hm (h.within _ _ hsource hc hready.with_eq.symm)
    rwa [hnone rfl] at hagree
  | false => exact h.before _ _ hsource hready.with_eq.symm (hready.without_le hready')

end

/-- A step of the one reading is a step of the other, and so the statements are the same. -/
theorem statements_uncommentedFrom {source : List Char} (h : Unobtrusive source) {ready : Bool}
    {s : List Char} {names : List String} (hs : Statements ready s names) {a : List Char}
    (hsource : source = a ++ s) {ready' : Bool} (hready : Ready a s ready ready') :
    Statements ready' (uncommentedFrom (modeAfter .code a s) s) names := by
  induction hs generalizing a ready' with
  | nil ready => exact .nil ready'
  | @skip ready c s names hnone hbehind ih =>
    have hnext : source = a ++ [c] ++ s := by rw [hsource, List.append_assoc]; rfl
    by_cases hnewline : c = '\n'
    · subst hnewline
      have hrest := ih hnext hready.newline
      rw [modeAfter_concat] at hrest
      rw [uncommentedFrom_newline]
      exact .skip (fun _ => statement?_blank (by decide) _) hrest
    · cases hc : inComment a (c :: s) with
      | true =>
        have hrest := ih hnext (hready.comment hc)
        rw [modeAfter_concat] at hrest
        rw [uncommentedFrom_comment hc hnewline]
        exact statements_spaces _ hrest
      | false =>
        have hm := (outside_of_comments_eq_false hc).resolve_right hnewline
        have hrest := ih hnext (hready.live hm hc)
        have hread := statement?_uncommentedFrom_eq_none h hsource hready hc hm hnone
        rw [modeAfter_concat] at hrest
        rw [uncommentedFrom_live hc] at hread ⊢
        exact .skip hread hrest
  | @found s rest name names hread hbehind ih =>
    obtain ⟨rfl, x, q, rfl, hq, hread'⟩ := statement?_uncommentedFrom h hsource hready hread
    refine .found hread' (ih (by simp [hsource]) ⟨?_, nofun, nofun⟩)
    rw [← List.append_assoc, opensStatement_concat, readyAfter_quote hq]

/-- Comments that stand in the way of no statement are inert : a source has the same imports with a
space for every byte of its comments, line ends aside. -/
theorem imports_withoutComments {s : List Char} (h : Unobtrusive s) :
    utf8Bytes (withoutComments s) =
      (utf8Bytes s).mapIdx (fun p b => if covered (commentMarked .code s) p then 0x20 else b) ∧
    imports (withoutComments s) = imports s := by
  refine ⟨utf8Bytes_withoutComments s, ?_⟩
  obtain ⟨names, hnames⟩ := exists_statements true s
  have hstart : Ready [] s true true := ⟨rfl, fun _ => rfl, fun _ h => h⟩
  have hwithout := statements_uncommentedFrom h hnames rfl hstart
  rw [imports, imports, values_findAll_import hnames]
  exact congrArg _ (values_findAll_import hwithout)

/-- Comments in a statement, behind it and behind its semicolon. -/
theorem imports_of_unobtrusive :
    let s := "import \x7b a, // one\n b \x7d from './x'; // (note)\n/* import 'y' */".toList
    Unobtrusive s ∧
      withoutComments s =
        "import \x7b a,       \n b \x7d from './x';          \n                ".toList ∧
      imports (withoutComments s) = ["./x"] := by
  intro s
  have hs : Unobtrusive s := by decide +kernel
  exact ⟨hs, by decide +kernel, (imports_withoutComments hs).2.trans (by decide +kernel)⟩

/-- A statement in a comment is reported. One with a parenthesis in a comment and one behind a
comment are missed. -/
theorem imports_of_obtrusive :
    let s := ("/*\nimport a from './a'\n*/\nimport \x7b b, // (second)\n c \x7d from './b'\n" ++
      "/* third */ import d from './d'\n").toList
    imports (withoutComments s) = ["./b", "./d"] ∧ imports s = ["./a"] := by
  decide +kernel

end SuiteScope.Source
