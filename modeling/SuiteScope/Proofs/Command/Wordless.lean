import Mathlib.Data.List.TakeWhile
import Mathlib.Tactic.SplitIfs
import SuiteScope.Invocation
import SuiteScope.Settings

/-!
# Command lines without words

A command line has no word exactly if it is made of separators, continued lines and comments
(`splitFrom_eq_nil_iff`, `split?_eq_nil_iff`). The check of settings refuses a test command only if
it is blank. A command line without words that is not blank holds a comment or a continued line
(`Wordless.all_isSeparator`), and those are the test commands that pass the check and make no
invocation for want of a program (`Invocation.build_eq_emptyCommand_iff`).
-/

namespace SuiteScope.Shell.Words

/-- A command line that is made of separators, continued lines and comments. -/
inductive Wordless : List Char → Prop
  | nil : Wordless []
  | separator {c : Char} {s : List Char} : isSeparator c = true → Wordless s → Wordless (c :: s)
  | continued {s : List Char} : Wordless s → Wordless ('\\' :: '\n' :: s)
  | comment {x s : List Char} : '\n' ∉ x → Wordless s → Wordless ('#' :: (x ++ '\n' :: s))
  | lastComment {x : List Char} : '\n' ∉ x → Wordless ('#' :: x)

namespace Wordless

variable {c : Char} {s : List Char}

/-- A separator makes no word. -/
theorem separator_iff (h : isSeparator c = true) : Wordless (c :: s) ↔ Wordless s := by
  refine ⟨fun hs => ?_, .separator h⟩
  cases hs with
  | separator _ hs => exact hs
  | continued | comment | lastComment => simp [isSeparator] at h

/-- A backslash is part of no word only in front of a line end. -/
theorem backslash_iff : Wordless ('\\' :: c :: s) ↔ c = '\n' ∧ Wordless s := by
  constructor
  · intro hs
    cases hs with
    | separator h _ => simp [isSeparator] at h
    | continued hs => exact ⟨rfl, hs⟩
  · rintro ⟨rfl, hs⟩
    exact .continued hs

/-- Any other character belongs to a word. -/
theorem not_cons (hseparator : ¬ isSeparator c = true) (hbackslash : c ≠ '\\')
    (hcomment : c ≠ '#') : ¬ Wordless (c :: s)
  | .separator h _ => hseparator h
  | .continued _ => hbackslash rfl
  | .comment _ _ | .lastComment _ => hcomment rfl

/-- A comment goes on to the end of its line, or to the end of the command line. -/
theorem comment_iff : Wordless ('#' :: s) ↔
    '\n' ∉ s ∨ ∃ x t, s = x ++ '\n' :: t ∧ '\n' ∉ x ∧ Wordless t := by
  constructor
  · intro hs
    cases hs with
    | separator h _ => simp [isSeparator] at h
    | comment hx ht => exact .inr ⟨_, _, rfl, hx, ht⟩
    | lastComment hx => exact .inl hx
  · rintro (hs | ⟨x, t, rfl, hx, ht⟩)
    · exact .lastComment hs
    · exact .comment hx ht

/-- A comment ends with its line. -/
theorem comment_newline_iff : Wordless ('#' :: '\n' :: s) ↔ Wordless s := by
  refine ⟨fun hs => ?_, fun hs => .comment (x := []) (by simp) hs⟩
  obtain hs | ⟨x, t, hs, hx, ht⟩ := comment_iff.1 hs
  · simp at hs
  · cases x with
    | nil =>
      obtain ⟨-, rfl⟩ := List.cons.inj hs
      exact ht
    | cons d x =>
      obtain ⟨rfl, -⟩ := List.cons.inj hs
      simp at hx

/-- Nothing in a comment makes a word. -/
theorem comment_cons_iff (h : c ≠ '\n') : Wordless ('#' :: c :: s) ↔ Wordless ('#' :: s) := by
  rw [comment_iff, comment_iff]
  constructor
  · rintro (hs | ⟨x, t, hs, hx, ht⟩)
    · exact .inl (List.not_mem_of_not_mem_cons hs)
    · cases x with
      | nil => exact absurd (List.cons.inj hs).1 h
      | cons d x =>
        obtain ⟨-, rfl⟩ := List.cons.inj hs
        exact .inr ⟨x, t, rfl, List.not_mem_of_not_mem_cons hx, ht⟩
  · rintro (hs | ⟨x, t, rfl, hx, ht⟩)
    · exact .inl (List.not_mem_cons_of_ne_of_not_mem h.symm hs)
    · exact .inr ⟨c :: x, t, rfl, List.not_mem_cons_of_ne_of_not_mem h.symm hx, ht⟩

/-- A command line of separators only, when nothing is commented and no line is continued. -/
theorem all_isSeparator (hs : Wordless s) (hcomment : '#' ∉ s)
    (hcontinued : ¬ ['\\', '\n'] <:+: s) : s.all isSeparator = true := by
  induction hs with
  | nil => rfl
  | @separator c s h _ ih =>
    have ih := ih (List.not_mem_of_not_mem_cons hcomment)
      fun hin => hcontinued (hin.trans (List.suffix_cons c s).isInfix)
    simp [h, ih]
  | @continued s _ _ => exact absurd ⟨[], s, rfl⟩ hcontinued
  | comment | lastComment => simp at hcomment

end Wordless

/-! ## What is read of them -/

/-- What has been read and may still belong to no word. -/
def State.undecided : State → List Char
  | .betweenBackslash => ['\\']
  | .comment => ['#']
  | _ => []

/-- Whether a word has been begun. -/
def State.inWord : State → Bool
  | .between | .betweenBackslash | .comment => false
  | _ => true

/-- A word that has been begun is read, or stays open. -/
theorem splitFrom_ne_nil : ∀ (s : List Char) (state : State), state.inWord = true →
    ∀ word, splitFrom state word s ≠ some []
  | [], state, h, word => by cases state <;> simp_all [splitFrom, State.inWord]
  | c :: s, state, h, word => by
    have ih state := splitFrom_ne_nil s state
    cases state with
    | between | betweenBackslash | comment => simp [State.inWord] at h
    | bare =>
      simp only [splitFrom]
      split_ifs <;> first | exact ih _ rfl _ | simp
    | bareBackslash | single | double | doubleBackslash =>
      simp only [splitFrom]
      split_ifs <;> exact ih _ rfl _

/-- No word is read exactly of what holds none, together with what was still undecided. -/
theorem splitFrom_eq_nil_iff : ∀ (s : List Char) (state : State), state.inWord = false →
    ∀ word, splitFrom state word s = some [] ↔ Wordless (state.undecided ++ s)
  | [], state, h, word => by
    cases state with
    | between => simp [splitFrom, State.undecided, Wordless.nil]
    | betweenBackslash =>
      simp [splitFrom, State.undecided]
      rintro ⟨⟩
      simp_all [isSeparator]
    | comment => simpa [splitFrom, State.undecided] using Wordless.lastComment List.not_mem_nil
    | bare | bareBackslash | single | double | doubleBackslash => simp [State.inWord] at h
  | c :: s, state, h, word => by
    have ih state := splitFrom_eq_nil_iff s state
    cases state with
    | between =>
      simp only [splitFrom, State.undecided, List.nil_append]
      split_ifs with hseparator hsingle hdouble hbackslash hcomment
      · rw [Wordless.separator_iff hseparator]
        exact ih .between rfl word
      · exact iff_of_false (splitFrom_ne_nil s _ rfl _)
          (Wordless.not_cons hseparator (by simp [hsingle]) (by simp [hsingle]))
      · exact iff_of_false (splitFrom_ne_nil s _ rfl _)
          (Wordless.not_cons hseparator (by simp [hdouble]) (by simp [hdouble]))
      · rw [hbackslash]
        exact ih .betweenBackslash rfl word
      · rw [hcomment]
        exact ih .comment rfl word
      · exact iff_of_false (splitFrom_ne_nil s _ rfl _)
          (Wordless.not_cons hseparator hbackslash hcomment)
    | betweenBackslash =>
      simp only [splitFrom, State.undecided, List.cons_append, List.nil_append,
        Wordless.backslash_iff]
      split_ifs with hc
      · simpa [hc, State.undecided] using ih .between rfl word
      · simpa [hc] using splitFrom_ne_nil s .bare rfl _
    | comment =>
      simp only [splitFrom, State.undecided, List.cons_append, List.nil_append]
      split_ifs with hc
      · rw [hc, Wordless.comment_newline_iff]
        exact ih .between rfl word
      · rw [Wordless.comment_cons_iff hc]
        exact ih .comment rfl word
    | bare | bareBackslash | single | double | doubleBackslash => simp [State.inWord] at h

/-- A line is split into no words exactly if it is wordless. -/
theorem split?_eq_nil_iff (line : String) : split? line = some [] ↔ Wordless line.toList := by
  have hread := splitFrom_eq_nil_iff line.toList .between rfl []
  simpa [split?, State.undecided] using hread

end SuiteScope.Shell.Words

namespace SuiteScope.Settings

open Shell.Words

/-- The separators of words are white space. -/
theorem isBlank_of_isSeparator {c : Char} (h : isSeparator c = true) : Text.isBlank c = true := by
  simp only [isSeparator, Bool.or_eq_true, beq_iff_eq] at h
  obtain (rfl | rfl) | rfl := h <;> decide

/-- A text of separators is void. -/
theorem isVoid_of_all_isSeparator {s : String} (h : s.toList.all isSeparator = true) :
    isVoid s = true := by
  have hblank : s.toList.dropWhile Text.isBlank = [] :=
    List.dropWhile_eq_nil_iff.2 fun c hc => isBlank_of_isSeparator (List.all_eq_true.1 h c hc)
  simp [isVoid, Text.trim, hblank, Text.dropRight]

/-- A test command that has been checked is not void. -/
theorem isVoid_testCommand {s : Settings} (h : s.problems = []) :
    isVoid s.runner.testCommand = false := by
  simp only [problems, List.append_eq_nil_iff] at h
  simpa using h.1.1.2

end SuiteScope.Settings

namespace SuiteScope.Invocation

open Shell.Words

/-- A command is refused as empty exactly if it has no words. -/
theorem build_eq_emptyCommand_iff_split? (testCommand : String) (options : RunOptions) :
    build testCommand options = .error .emptyCommand ↔ split? testCommand = some [] := by
  unfold build
  split <;> simp_all

/-- The test command of settings without problems makes no invocation for want of a program
exactly if it is made of separators, comments and continued lines, and a comment or a continued
line is among them. -/
theorem build_eq_emptyCommand_iff {s : Settings} (h : s.problems = []) (options : RunOptions) :
    build s.runner.testCommand options = .error .emptyCommand ↔
      Wordless s.runner.testCommand.toList ∧
        ('#' ∈ s.runner.testCommand.toList ∨ ['\\', '\n'] <:+: s.runner.testCommand.toList) := by
  rw [build_eq_emptyCommand_iff_split?, split?_eq_nil_iff]
  refine ⟨fun hs => ⟨hs, ?_⟩, And.left⟩
  refine Classical.byContradiction fun hnone => ?_
  obtain ⟨hcomment, hcontinued⟩ := not_or.1 hnone
  have hvoid := Settings.isVoid_of_all_isSeparator (hs.all_isSeparator hcomment hcontinued)
  rw [Settings.isVoid_testCommand h] at hvoid
  contradiction

/-- A command that is only a comment is not void, and it is refused when it is built, although a
line goes on in front of the comment. -/
theorem build_continued_comment :
    let s : Settings := { runner := { testCommand := " \\\n# pnpm test" } }
    s.problems = [] ∧
      s.runner.testCommand.toList = ' ' :: '\\' :: '\n' :: '#' :: " pnpm test".toList ∧
      build s.runner.testCommand {} = .error .emptyCommand := by
  intro s
  have h : s.problems = [] := by decide +kernel
  have hs : s.runner.testCommand.toList = ' ' :: '\\' :: '\n' :: '#' :: " pnpm test".toList := by
    decide
  have hwordless : Wordless (' ' :: '\\' :: '\n' :: '#' :: " pnpm test".toList) :=
    .separator rfl (.continued (.lastComment (by decide)))
  refine ⟨h, hs, (build_eq_emptyCommand_iff h {}).2 ?_⟩
  rw [hs]
  exact ⟨hwordless, .inl (by decide)⟩

/-- Settings may be without problems and their test command without a word. -/
theorem exists_emptyCommand_of_no_problems :
    let s : Settings := { runner := { testCommand := "# pnpm test" } }
    s.problems = [] ∧ build s.runner.testCommand {} = .error .emptyCommand := by
  constructor
  · decide +kernel
  · rw [build_eq_emptyCommand_iff_split?]
    decide +kernel

end SuiteScope.Invocation
