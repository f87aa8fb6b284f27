import SuiteScope.Proofs.Source.Skip

/-!
# Settled text

A text is settled (`Settled`) if the marks of what follows it are those that this has on its own, so
behind it a source is read as at its start. Settled texts are closed under `++`. Plain characters,
strings in quotes and line comments are settled : `settled_of_plain`, `settled_literal`,
`settled_comment`. `codeOf` is what remains of a text without its strings and comments.
-/

namespace SuiteScope.Source

open SuiteScope.Text

/-- The characters of `s`, entered in mode `m`, each with its mark. -/
def markedFrom (m : Mode) (s : List Char) : List (Char × Bool) :=
  s.zip (marks m s)

/-- What follows the text is marked as it is on its own. -/
def Settled (a : List Char) : Prop :=
  ∀ s, marked (a ++ s) = marked a ++ marked s

/-- The characters without a mark. -/
def unskipped (s : List (Char × Bool)) : List Char :=
  (s.filter fun m => !m.2).map (·.1)

/-- A text without its strings and comments. -/
def codeOf (s : List Char) : List Char :=
  unskipped (marked s)

/-- A character that opens neither a string nor a comment, whatever follows it. -/
def isPlain (c : Char) : Bool :=
  c != '/' && (Quote.ofChar? c).isNone

/-- Whether a text can stand between two quotes `q` : each character is behind a backslash, or a
backslash with a character behind it, or neither a backslash nor the quote. -/
def Quote.fits (q : Quote) : List Char → Bool
  | [] => true
  | '\\' :: _ :: s => q.fits s
  | c :: s => c != '\\' && c != q.char && q.fits s

/-- A text in quotes. -/
def literal (q : Quote) (s : List Char) : List Char :=
  q.char :: (s ++ [q.char])

/-! ## Marks of pieces -/

/-- The first character is marked by the mode, and the mode after it marks the others. -/
theorem markedFrom_cons (m : Mode) (c : Char) (s : List Char) :
    markedFrom m (c :: s) = (c, m.skips c s.head?) :: markedFrom (m.after c s.head?) s :=
  rfl

theorem marked_eq (s : List Char) : marked s = markedFrom .code s :=
  rfl

/-- Marking changes no character. -/
@[simp]
theorem map_fst_marked (s : List Char) : (marked s).map (·.1) = s :=
  List.map_fst_zip (by simp)

/-- Only a star in front of a slash leads to the mode between the two. -/
theorem head?_of_blockClosing {m : Mode} {c : Char} {next : Option Char}
    (h : m.after c next = .blockClosing) : next = some '/' := by
  cases m with
  | blockComment =>
    rw [Mode.after] at h
    split at h
    next hclosing => exact hclosing.2
    · cases h
  | code =>
    rw [Mode.after] at h
    split at h
    · cases h
    · split at h
      · cases h
      · cases hq : Quote.ofChar? c <;> rw [hq] at h <;> cases h
  | quoted q =>
    rw [Mode.after] at h
    split at h
    · cases h
    · split at h <;> cases h
  | lineComment =>
    rw [Mode.after] at h
    split at h <;> cases h
  | _ => cases h

/-- Plain characters stay in code, whatever follows them. -/
theorem after_code_of_plain {c : Char} (h : isPlain c = true) (next : Option Char) :
    Mode.code.after c next = .code := by
  simp only [isPlain, Bool.and_eq_true, bne_iff_ne, ne_eq, Option.isNone_iff_eq_none] at h
  simp [Mode.after, h]

/-- Plain text is code, and what follows it is read as if it stood alone. -/
theorem marked_plain {x : List Char} (h : x.all isPlain = true) (s : List Char) :
    marked (x ++ s) = x.map (·, false) ++ marked s := by
  induction x with
  | nil => rfl
  | cons c x ih =>
    simp only [List.all_cons, Bool.and_eq_true] at h
    rw [List.cons_append, marked_eq, markedFrom_cons, Mode.skips, after_code_of_plain h.1,
      ← marked_eq, ih h.2]
    rfl

/-- The text of a literal is skipped up to the quote that closes it. -/
theorem markedFrom_quoted {q : Quote} {x : List Char} (h : q.fits x = true) (s : List Char) :
    markedFrom (.quoted q) (x ++ q.char :: s) = (x ++ [q.char]).map (·, true) ++ marked s := by
  fun_induction Quote.fits q x with
  | case1 =>
    have hq : q.char ≠ '\\' := by cases q <;> decide
    simp [markedFrom_cons, Mode.skips, Mode.after, hq, marked_eq]
  | case2 c x ih => simp [markedFrom_cons, Mode.skips, Mode.after, ih h]
  | case3 c x _ ih =>
    simp only [Bool.and_eq_true, bne_iff_ne, ne_eq] at h
    simp [markedFrom_cons, Mode.skips, Mode.after, h, ih]

/-- A literal is skipped with both of its quotes, and reading goes on in code. -/
theorem marked_literal {q : Quote} {x : List Char} (h : q.fits x = true) (s : List Char) :
    marked (literal q x ++ s) = (literal q x).map (·, true) ++ marked s := by
  have hq : q.char ≠ '/' := by cases q <;> decide
  have hafter (next : Option Char) : Mode.code.after q.char next = .quoted q := by
    simp [Mode.after, hq, Quote.ofChar?_char]
  rw [literal, List.cons_append, marked_eq, markedFrom_cons, Mode.skips, hafter,
    List.append_assoc, List.singleton_append, markedFrom_quoted h]
  rfl

/-- A comment is skipped up to the end of its line, which is code again. -/
theorem markedFrom_lineComment {x : List Char} (h : '\n' ∉ x) (s : List Char) :
    markedFrom .lineComment (x ++ '\n' :: s) = x.map (·, true) ++ ('\n', false) :: marked s := by
  induction x with
  | nil => rfl
  | cons c x ih =>
    have hc : c ≠ '\n' := fun hc => h (by simp [hc])
    simp [markedFrom_cons, Mode.skips, Mode.after, hc, ih fun hx => h (by simp [hx])]

/-- A line behind two slashes is skipped, except for its end. -/
theorem marked_comment {x : List Char} (h : '\n' ∉ x) (s : List Char) :
    marked ('/' :: '/' :: (x ++ '\n' :: s)) =
      ('/' :: '/' :: x).map (·, true) ++ ('\n', false) :: marked s := by
  rw [marked_eq, markedFrom_cons, markedFrom_cons]
  simp [Mode.after, Mode.skips, markedFrom_lineComment h]

/-! ## Settled pieces -/

/-- If the marks of a text do not depend on what follows, they are its marks when nothing does. -/
theorem marked_of_append {a : List Char} {l : List (Char × Bool)}
    (h : ∀ s, marked (a ++ s) = l ++ marked s) : marked a = l := by
  have ha := h []
  rwa [List.append_nil, show marked [] = [] from rfl, List.append_nil] at ha

/-- A piece with marks of its own is settled. -/
theorem settled_of_append {a : List Char} {l : List (Char × Bool)}
    (h : ∀ s, marked (a ++ s) = l ++ marked s) : Settled a := by
  intro s
  rw [h, marked_of_append h]

/-- The empty text is settled. -/
theorem settled_nil : Settled [] :=
  settled_of_append (l := []) fun _ => rfl

/-- Settled texts may be written one after another. -/
theorem Settled.append {a b : List Char} (ha : Settled a) (hb : Settled b) : Settled (a ++ b) := by
  intro s
  rw [List.append_assoc, ha, hb, ha b, List.append_assoc]

/-- Plain text is settled. -/
theorem settled_of_plain {x : List Char} (h : x.all isPlain = true) : Settled x :=
  settled_of_append (marked_plain h)

/-- A whole literal is settled. -/
theorem settled_literal {q : Quote} {x : List Char} (h : q.fits x = true) : Settled (literal q x) :=
  settled_of_append (marked_literal h)

/-- A comment with the end of its line is settled. -/
theorem settled_comment {x : List Char} (h : '\n' ∉ x) : Settled ('/' :: '/' :: (x ++ ['\n'])) :=
  settled_of_append (l := ('/' :: '/' :: x).map (·, true) ++ [('\n', false)]) fun s => by
    simpa using marked_comment h s

/-! ## Behind a settled text -/

/-- Behind marked text the marks that follow count. -/
theorem covered_append (l t : List (Char × Bool)) (p : Nat) :
    covered (l ++ t) (byteSize (l.map (·.1)) + p) = covered t p := by
  induction l with
  | nil => simp
  | cons x l ih =>
    rw [List.cons_append, List.map_cons, byteSize_cons, covered, if_neg (by omega), Nat.add_assoc,
      Nat.add_sub_cancel_left, ih]

/-- Inside of text that is marked in one way all places are. -/
theorem covered_map {x : List Char} {p : Nat} (h : p < byteSize x) (mark : Bool)
    (t : List (Char × Bool)) : covered (x.map (·, mark) ++ t) p = mark := by
  induction x generalizing p with
  | nil => simp at h
  | cons c x ih =>
    rw [byteSize_cons] at h
    rw [List.map_cons, List.cons_append, covered]
    split
    · rfl
    · exact ih (by omega)

/-- Behind text that is marked in one way the marks that follow count. -/
theorem covered_map_add (x : List Char) (mark : Bool) (t : List (Char × Bool)) (p : Nat) :
    covered (x.map (·, mark) ++ t) (byteSize x + p) = covered t p := by
  have hfst : (x.map (·, mark)).map (·.1) = x := by simp [Function.comp_def]
  simpa [hfst] using covered_append (x.map (·, mark)) t p

/-- A plain character at the start of a text is code. -/
theorem covered_plain {c : Char} (h : isPlain c = true) (s : List Char) :
    covered (marked (c :: s)) 0 = false := by
  have hmarks := marked_plain (x := [c]) (by simpa using h) s
  rw [List.singleton_append] at hmarks
  rw [hmarks]
  exact covered_map (by simp [c.utf8Size_pos]) false _

/-- Behind settled text a place is skipped exactly if it is in the rest alone. -/
theorem Settled.covered_add {a : List Char} (h : Settled a) (s : List Char) (p : Nat) :
    covered (marked (a ++ s)) (byteSize a + p) = covered (marked s) p := by
  rw [h]
  simpa using covered_append (marked a) (marked s) p

/-- Behind a settled text a place is skipped if it is skipped without that text. -/
theorem Settled.inSkipped_add {a : List Char} (h : Settled a) (s : List Char) (p : Nat) :
    inSkipped (skippedRanges (a ++ s)) (byteSize a + p) = inSkipped (skippedRanges s) p := by
  rw [inSkipped_skippedRanges, inSkipped_skippedRanges, h.covered_add]

/-! ## Code -/

/-- What is not skipped is found part by part. -/
theorem unskipped_append (l t : List (Char × Bool)) :
    unskipped (l ++ t) = unskipped l ++ unskipped t := by
  simp [unskipped]

/-- The code of a settled text does not depend on what follows. -/
theorem codeOf_append {a : List Char} (h : Settled a) (s : List Char) :
    codeOf (a ++ s) = codeOf a ++ codeOf s := by
  rw [codeOf, h, unskipped_append, codeOf, codeOf]

/-- Nothing is left of skipped text. -/
@[simp]
theorem unskipped_map_true (x : List Char) : unskipped (x.map (·, true)) = [] := by
  simp [unskipped]

/-- All is left of text that is not skipped. -/
@[simp]
theorem unskipped_map_false (x : List Char) : unskipped (x.map (·, false)) = x := by
  simp [unskipped, Function.comp_def, List.filter_map]

/-- Plain text is its own code. -/
theorem codeOf_plain {x : List Char} (h : x.all isPlain = true) : codeOf x = x := by
  rw [codeOf, marked_of_append (marked_plain h), unskipped_map_false]

/-- A literal has no code. -/
theorem codeOf_literal {q : Quote} {x : List Char} (h : q.fits x = true) :
    codeOf (literal q x) = [] := by
  rw [codeOf, marked_of_append (marked_literal h), unskipped_map_true]

/-- Only the end of its line is left of a comment. -/
theorem codeOf_comment {x : List Char} (h : '\n' ∉ x) :
    codeOf ('/' :: '/' :: (x ++ ['\n'])) = ['\n'] := by
  rw [codeOf, marked_comment h, unskipped_append, unskipped_map_true]
  rfl

end SuiteScope.Source
