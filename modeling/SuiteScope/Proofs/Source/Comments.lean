import SuiteScope.Proofs.Source.Blanked
import SuiteScope.Proofs.Text.Search

/-!
# A source without its comments

`withoutComments s` is a source with a space for every byte of its comments, line ends aside
(`utf8Bytes_withoutComments`). The blanking is done from the middle as well : `uncommentedFrom m s` is
what becomes of the rest `s` of a source, which stands in mode `m`. A comment starts with a slash. So a
word that is read outside comments is the same in both texts (`isPrefixOf?_uncommentedFrom`).
-/

namespace SuiteScope.Source

open SuiteScope.Text

/-- Whether a character belongs to a comment. -/
def Mode.comments (m : Mode) (c : Char) (next : Option Char) : Bool :=
  match m with
  | .code => c == '/' && (next == some '/' || next == some '*')
  | .quoted _ => false
  | .escaped _ => false
  | .lineComment => c != '\n'
  | _ => true

/-- Whether a mode is that of code or of a string. -/
def Mode.outside : Mode → Bool
  | .code => true
  | .quoted _ => true
  | .escaped _ => true
  | _ => false

/-- Which characters of `s` belong to a comment and end no line. -/
def commentMarks : (m : Mode) → (s : List Char) → List Bool
  | _, [] => []
  | m, c :: s => (m.comments c s.head? && c != '\n') :: commentMarks (m.after c s.head?) s

/-- The characters of a text, each with the mark of its comments. -/
def commentMarked (m : Mode) (s : List Char) : List (Char × Bool) :=
  s.zip (commentMarks m s)

/-- A text with a space for every byte of its comments, line ends aside. -/
def uncommentedFrom (m : Mode) (s : List Char) : List Char :=
  blankOut (commentMarked m s)

/-- A source with a space for every byte of its comments, line ends aside. -/
def withoutComments (s : List Char) : List Char :=
  uncommentedFrom .code s

/-- The mode behind `x`, which stands in mode `m` and before `s`. -/
def modeAfter : (m : Mode) → (x s : List Char) → Mode
  | m, [], _ => m
  | m, c :: x, s => modeAfter (m.after c (x ++ s).head?) x s

/-! ## Comments -/

@[simp]
theorem length_commentMarks (m : Mode) (s : List Char) : (commentMarks m s).length = s.length := by
  fun_induction commentMarks m s <;> simp_all

/-- Taking comments out is a matter of bytes : those of comments become spaces, all others stay. -/
theorem utf8Bytes_withoutComments (s : List Char) :
    utf8Bytes (withoutComments s) =
      (utf8Bytes s).mapIdx fun p b => if covered (commentMarked .code s) p then 0x20 else b := by
  have hfst : (commentMarked .code s).map (·.1) = s := List.map_fst_zip (by simp)
  rw [withoutComments, uncommentedFrom, utf8Bytes_blankOut, hfst]

/-- Outside comments it takes a slash to open one. -/
theorem comments_eq_false {m : Mode} (hm : m.outside = true) {c : Char} (hc : c ≠ '/')
    (next : Option Char) : m.comments c next = false := by
  cases m with
  | code => simp [Mode.comments, hc]
  | quoted q => rfl
  | escaped q => rfl
  | lineOpening => cases hm
  | lineComment => cases hm
  | blockOpening => cases hm
  | blockComment => cases hm
  | blockClosing => cases hm

/-- What is no comment leads into none. -/
theorem outside_after {m : Mode} (hm : m.outside = true) {c : Char} {next : Option Char}
    (h : m.comments c next = false) : (m.after c next).outside = true := by
  cases m with
  | code =>
    have hopen : ¬(c = '/' ∧ next = some '/') ∧ ¬(c = '/' ∧ next = some '*') := by
      constructor <;> rintro ⟨rfl, rfl⟩ <;> cases h
    rw [Mode.after, if_neg hopen.1, if_neg hopen.2]
    cases Quote.ofChar? c <;> rfl
  | quoted q =>
    rw [Mode.after]
    split
    · rfl
    · split <;> rfl
  | escaped q => rfl
  | lineOpening => cases hm
  | lineComment => cases hm
  | blockOpening => cases hm
  | blockComment => cases hm
  | blockClosing => cases hm

/-- A character that is no part of a comment stands outside, or ends a line. -/
theorem outside_of_comments_eq_false {m : Mode} {c : Char} {next : Option Char}
    (h : m.comments c next = false) : m.outside = true ∨ c = '\n' := by
  cases m with
  | code => exact .inl rfl
  | quoted q => exact .inl rfl
  | escaped q => exact .inl rfl
  | lineComment => exact .inr (by simpa [Mode.comments] using h)
  | lineOpening => cases h
  | blockOpening => cases h
  | blockComment => cases h
  | blockClosing => cases h

/-- A comment starts with a slash. -/
theorem slash_of_comments {m : Mode} (hm : m.outside = true) {c : Char} {next : Option Char}
    (h : m.comments c next = true) : c = '/' := by
  by_contra hc
  rw [comments_eq_false hm hc] at h
  cases h

/-! ## Texts without comments -/

@[simp]
theorem uncommentedFrom_nil (m : Mode) : uncommentedFrom m [] = [] :=
  rfl

/-- A character of a comment becomes a space for each of its bytes. -/
theorem uncommentedFrom_comment {m : Mode} {c : Char} {s : List Char}
    (h : m.comments c s.head? = true) (hc : c ≠ '\n') :
    uncommentedFrom m (c :: s) =
      List.replicate c.utf8Size ' ' ++ uncommentedFrom (m.after c s.head?) s := by
  have hmarks : commentMarks m (c :: s) = true :: commentMarks (m.after c s.head?) s := by
    simp [commentMarks, h, hc]
  rw [uncommentedFrom, commentMarked, hmarks]
  rfl

theorem uncommentedFrom_newline (m : Mode) (s : List Char) :
    uncommentedFrom m ('\n' :: s) = '\n' :: uncommentedFrom (m.after '\n' s.head?) s := by
  have hmarks : commentMarks m ('\n' :: s) = false :: commentMarks (m.after '\n' s.head?) s := by
    simp [commentMarks]
  rw [uncommentedFrom, commentMarked, hmarks]
  rfl

theorem uncommentedFrom_live {m : Mode} {c : Char} {s : List Char}
    (h : m.comments c s.head? = false) :
    uncommentedFrom m (c :: s) = c :: uncommentedFrom (m.after c s.head?) s := by
  have hmarks : commentMarks m (c :: s) = false :: commentMarks (m.after c s.head?) s := by
    simp [commentMarks, h]
  rw [uncommentedFrom, commentMarked, hmarks]
  rfl

/-- The mode behind two texts is found one after the other. -/
theorem modeAfter_append (m : Mode) (x y s : List Char) :
    modeAfter m (x ++ y) s = modeAfter (modeAfter m x (y ++ s)) y s := by
  induction x generalizing m with
  | nil => rfl
  | cons c x ih => rw [List.cons_append, modeAfter, ih, modeAfter, List.append_assoc]

/-! ## Words -/

theorem outside_modeAfter {m : Mode} (hm : m.outside = true) {x : List Char} (hx : '/' ∉ x)
    (s : List Char) : (modeAfter m x s).outside = true := by
  induction x generalizing m with
  | nil => exact hm
  | cons c x ih =>
    rw [List.mem_cons, not_or] at hx
    exact ih (outside_after hm (comments_eq_false hm (Ne.symm hx.1) _)) hx.2

/-- A text that stands outside comments and has no slash is the same without comments. -/
theorem uncommentedFrom_append {m : Mode} (hm : m.outside = true) {x : List Char} (hx : '/' ∉ x)
    (s : List Char) :
    uncommentedFrom m (x ++ s) = x ++ uncommentedFrom (modeAfter m x s) s := by
  induction x generalizing m with
  | nil => rfl
  | cons c x ih =>
    rw [List.mem_cons, not_or] at hx
    have hc := comments_eq_false hm (Ne.symm hx.1) (x ++ s).head?
    rw [List.cons_append, uncommentedFrom_live hc, ih (outside_after hm hc) hx.2]
    rfl

/-- A word stands at a place outside comments if it does so without the comments. -/
theorem isPrefixOf?_uncommentedFrom {m : Mode} (hm : m.outside = true) {w : List Char}
    (hslash : '/' ∉ w) (hspace : ' ' ∉ w) (s : List Char) :
    w.isPrefixOf? (uncommentedFrom m s) =
      (w.isPrefixOf? s).map fun t => uncommentedFrom (modeAfter m w t) t := by
  induction w generalizing m s with
  | nil => rfl
  | cons d w ih =>
    rw [List.mem_cons, not_or] at hslash hspace
    cases s with
    | nil => rfl
    | cons c s =>
      cases hc : m.comments c s.head? with
      | true =>
        obtain rfl := slash_of_comments hm hc
        obtain ⟨n, hn⟩ := Nat.exists_eq_succ_of_ne_zero (Nat.ne_of_gt '/'.utf8Size_pos)
        have hd : d ≠ '/' ∧ d ≠ ' ' := ⟨Ne.symm hslash.1, Ne.symm hspace.1⟩
        rw [uncommentedFrom_comment hc (by decide), hn, List.replicate_succ]
        simp [List.isPrefixOf?, hd]
      | false =>
        rw [uncommentedFrom_live hc, List.isPrefixOf?, List.isPrefixOf?]
        by_cases hd : d = c
        · subst hd
          simp only [beq_self_eq_true, if_true]
          rw [ih (outside_after hm hc) hslash.2 hspace.2]
          cases ht : w.isPrefixOf? s with
          | none => rfl
          | some t =>
            have hs := List.isPrefixOf?_eq_some_iff_append_eq.mp ht
            rw [Option.map_some, Option.map_some, modeAfter, hs]
        · simp [hd]

end SuiteScope.Source
