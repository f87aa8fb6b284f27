import SuiteScope.Text.Line

/-!
# Values on a line

A text is bare of a class of characters (`Bare`) if it is not empty and has none of them at either
end. A text bare of white space is its own trimmed form, and a text bare of the characters that may
end a line is the value that `lineValue?` reads behind a gap.
-/

namespace SuiteScope.Text

/-- Not empty, and no character of class `p` at either end. -/
structure Bare (p : Char → Bool) (s : List Char) : Prop where
  ne_nil : s ≠ []
  head : ∀ c ∈ s.head?, p c = false
  last : ∀ c ∈ s.getLast?, p c = false

instance (p : Char → Bool) (s : List Char) : Decidable (Bare p s) :=
  decidable_of_iff (s ≠ [] ∧ s.head?.all (!p ·) = true ∧ s.getLast?.all (!p ·) = true)
    ⟨fun h => ⟨h.1, by simpa [Option.all_eq_true] using h.2.1,
        by simpa [Option.all_eq_true] using h.2.2⟩,
      fun h => ⟨h.ne_nil, by simpa [Option.all_eq_true] using h.head,
        by simpa [Option.all_eq_true] using h.last⟩⟩

/-- A text that is bare of some characters is bare of fewer. -/
theorem Bare.imp {p p' : Char → Bool} {s : List Char} (h : Bare p s)
    (himp : ∀ c, p' c = true → p c = true) : Bare p' s := by
  have hfalse (c : Char) (hc : p c = false) : p' c = false :=
    Bool.eq_false_iff.mpr fun hp => absurd (himp c hp) (by simp [hc])
  exact ⟨h.ne_nil, fun c hc => hfalse c (h.head c hc), fun c hc => hfalse c (h.last c hc)⟩

theorem Bare.head_append {p : Char → Bool} {x : List Char} (h : Bare p x) (s : List Char) :
    ∀ c ∈ (x ++ s).head?, p c = false := by
  obtain ⟨c, rest, rfl⟩ := List.exists_cons_of_ne_nil h.ne_nil
  exact h.head

theorem isBlank_of_isLineTail {c : Char} (h : isLineTail c = true) : isBlank c = true := by
  simp only [isLineTail, Bool.or_eq_true, beq_iff_eq] at h
  rcases h with (rfl | rfl) | rfl <;> decide

theorem isLineTail_of_isGap {c : Char} (h : isGap c = true) : isLineTail c = true := by
  simp only [isGap, Bool.or_eq_true, beq_iff_eq] at h
  rcases h with rfl | rfl <;> decide

theorem dropWhile_eq_self {p : Char → Bool} {s : List Char} (h : ∀ c ∈ s.head?, p c = false) :
    s.dropWhile p = s := by
  cases s with
  | nil => rfl
  | cons c s => rw [List.dropWhile_cons, h c rfl, if_neg (by decide)]

theorem dropRight_eq_self {p : Char → Bool} {s : List Char} (h : ∀ c ∈ s.getLast?, p c = false) :
    dropRight p s = s := by
  rw [dropRight, dropWhile_eq_self (by simpa using h), List.reverse_reverse]

/-- A text without blanks at its ends is not changed by trimming. -/
theorem trim_eq_self {s : List Char} (h : Bare isBlank s) : trim s = s := by
  rw [trim, dropWhile_eq_self h.head, dropRight_eq_self h.last]

/-- A run of characters ends where one follows that does not belong to it. -/
theorem takeWhile_append_of_head {p : Char → Bool} {x s : List Char} (hx : x.all p = true)
    (hs : ∀ c ∈ s.head?, p c = false) : (x ++ s).takeWhile p = x := by
  rw [List.takeWhile_append_of_pos (List.all_eq_true.mp hx)]
  cases s with
  | nil => simp
  | cons c s => simp [hs c rfl]

/-- Behind such a run stands what follows it. -/
theorem dropWhile_append_of_head {p : Char → Bool} {x s : List Char} (hx : x.all p = true)
    (hs : ∀ c ∈ s.head?, p c = false) : (x ++ s).dropWhile p = s := by
  rw [List.dropWhile_append_of_pos (List.all_eq_true.mp hx), dropWhile_eq_self hs]

/-- Nothing is dropped from a character of another class on. -/
theorem dropWhile_append_cons {p : Char → Bool} {c : Char} (hc : p c = false) (x y : List Char) :
    (x ++ c :: y).dropWhile p = x.dropWhile p ++ c :: y := by
  rw [List.dropWhile_append]
  split
  next h => rw [List.isEmpty_iff.mp h, List.dropWhile_cons, hc, if_neg (by decide), List.nil_append]
  · rfl

/-- What a line says behind a gap that is long enough. -/
theorem lineValue?_append {gap value : List Char} (hgap : gap.all isGap = true)
    (hvalue : Bare isLineTail value) {least : Nat} (hleast : least ≤ gap.length) :
    lineValue? least (gap ++ value) = some value := by
  have hhead := (hvalue.imp fun _ => isLineTail_of_isGap).head
  obtain ⟨c, rest, rfl⟩ := List.exists_cons_of_ne_nil hvalue.ne_nil
  simp only [lineValue?, takeWhile_append_of_head hgap hhead, dropWhile_append_of_head hgap hhead,
    if_pos hleast, lineBody, dropRight_eq_self hvalue.last]

/-- A name needs at least one space or tab in front of it. -/
theorem lineValue?_eq_none {line : List Char} (h : ∀ c ∈ line.head?, isGap c = false) {least : Nat}
    (hleast : 0 < least) : lineValue? least line = none := by
  have htake : line.takeWhile isGap = [] := by
    simpa using takeWhile_append_of_head (x := []) rfl h
  rw [lineValue?, dropWhile_eq_self h, htake]
  cases line with
  | nil => simp
  | cons c line => simp; omega

theorem all_ne_newline {x : List Char} (hx : '\n' ∉ x) : x.all (· != '\n') = true := by
  refine List.all_eq_true.mpr fun c hc => ?_
  rw [bne_iff_ne]
  rintro rfl
  exact hx hc

/-- The rest of a line reaches up to its end. -/
theorem restOfLine_append {x : List Char} (hx : '\n' ∉ x) (s : List Char) :
    restOfLine (x ++ '\n' :: s) = x :=
  takeWhile_append_of_head (all_ne_newline hx) (by simp)

/-- Behind the rest of a line stands its end. -/
theorem afterLine_append {x : List Char} (hx : '\n' ∉ x) (s : List Char) :
    afterLine (x ++ '\n' :: s) = '\n' :: s :=
  dropWhile_append_of_head (all_ne_newline hx) (by simp)

/-- A line goes on behind characters that do not end it. -/
theorem restOfLine_append_of_newline_not_mem {x : List Char} (hx : '\n' ∉ x) (s : List Char) :
    restOfLine (x ++ s) = x ++ restOfLine s :=
  List.takeWhile_append_of_pos (List.all_eq_true.mp (all_ne_newline hx))

/-- A text is the rest of its line and what is behind it. -/
theorem restOfLine_append_afterLine (s : List Char) : restOfLine s ++ afterLine s = s :=
  List.takeWhile_append_dropWhile

theorem eq_newline_of_mem_head?_afterLine {s : List Char} {c : Char}
    (h : c ∈ (afterLine s).head?) : c = '\n' := by
  have hnot := List.head?_dropWhile_not (· != '\n') s
  rw [afterLine, Option.mem_def] at h
  rw [h] at hnot
  simpa using hnot

end SuiteScope.Text
