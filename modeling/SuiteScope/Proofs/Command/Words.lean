import SuiteScope.Invocation

/-!
# Command lines that are written

`quote` writes a word so that reading it gives the word, whatever stands in it and whatever follows
it (`splitFrom_quote`) : a word without special characters is read as it is, and in single quotes
only the single quote is special. So `join` writes a list of words from which `split?` reads the
same list (`split?_join`), and the command line of an invocation, read without options, is that
invocation (`build_display`).
-/

namespace SuiteScope.Shell.Words

/-! ## One word -/

/-- A character that is not special starts no quote, no comment and no escape, and ends no word. -/
theorem of_isSpecial_eq_false {c : Char} (h : isSpecial c = false) :
    isSeparator c = false ∧ c ≠ '\x27' ∧ c ≠ '\x22' ∧ c ≠ '\\' ∧ c ≠ '#' := by
  simp [isSpecial] at h
  simp [isSeparator, h]

/-- Characters that mean nothing are read into the word. -/
theorem splitFrom_bare : ∀ {x : List Char}, x.all (!isSpecial ·) = true → ∀ (word s : List Char),
    splitFrom .bare word (x ++ s) = splitFrom .bare (word ++ x) s
  | [], _, word, s => by simp
  | c :: x, hx, word, s => by
    simp only [List.all_cons, Bool.and_eq_true, Bool.not_eq_true'] at hx
    obtain ⟨hseparator, hsingle, hdouble, hbackslash, -⟩ := of_isSpecial_eq_false hx.1
    simp [splitFrom, hseparator, hsingle, hdouble, hbackslash, splitFrom_bare hx.2]

/-- In single quotes a word is read up to the quote that ends it. A single quote of the word is
written outside of them. -/
theorem splitFrom_single : ∀ x word s : List Char,
    splitFrom .single word (x.flatMap quoteChar ++ '\x27' :: s) = splitFrom .bare (word ++ x) s
  | [], word, s => by simp [splitFrom]
  | c :: x, word, s => by
    by_cases hc : c = '\x27'
    · simp [quoteChar, hc, splitFrom, isSeparator, splitFrom_single x]
    · simp [quoteChar, hc, splitFrom, splitFrom_single x]

/-- A written word is read whole. -/
theorem splitFrom_quote (x s : List Char) :
    splitFrom .between [] (quote x ++ s) = splitFrom .bare x s := by
  unfold quote
  split
  next hx =>
    obtain ⟨hne, hplain⟩ := hx
    obtain ⟨c, x, rfl⟩ := List.exists_cons_of_ne_nil hne
    simp only [List.all_cons, Bool.and_eq_true, Bool.not_eq_true'] at hplain
    obtain ⟨hseparator, hsingle, hdouble, hbackslash, hcomment⟩ := of_isSpecial_eq_false hplain.1
    simp [splitFrom, hseparator, hsingle, hdouble, hbackslash, hcomment, splitFrom_bare hplain.2]
  · simp [splitFrom, isSeparator, splitFrom_single]

/-! ## Several words -/

/-- Quoted words are read back, by induction over them. -/
theorem splitFrom_intercalate : ∀ words : List (List Char),
    splitFrom .between [] ([' '].intercalate (words.map quote)) = some words
  | [] => rfl
  | [x] => by
    have hread := splitFrom_quote x []
    simpa [splitFrom] using hread
  | x :: y :: words => by
    have ih := splitFrom_intercalate (y :: words)
    have hwritten : [' '].intercalate ((x :: y :: words).map quote) =
        quote x ++ ' ' :: [' '].intercalate ((y :: words).map quote) := by
      simp [List.intercalate]
    rw [hwritten, splitFrom_quote]
    simpa [splitFrom, isSeparator] using ih

/-- A list of words is read back from the command line that is written of it. -/
theorem split?_join (words : List String) : split? (join words) = some words := by
  have hwritten : (join words).toList =
      [' '].intercalate ((words.map String.toList).map quote) := by
    simp [join, Function.comp_def]
  rw [split?, hwritten, splitFrom_intercalate]
  simp

end SuiteScope.Shell.Words

namespace SuiteScope.Invocation

/-- The command line of an invocation makes that invocation again when the options add nothing,
whatever its words are and wherever it comes from. -/
theorem build_display (inv : Invocation) :
    build inv.display { coverage := false, watch := true, pattern := none } = .ok inv := by
  have hwords : Shell.Words.split? inv.display = some (inv.program :: inv.args) :=
    Shell.Words.split?_join _
  simp [build, hwords, optionArgs]

end SuiteScope.Invocation
