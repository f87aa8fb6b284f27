import SuiteScope.Proofs.Text.Line
import SuiteScope.Transcript.Block
import SuiteScope.Transcript.Escape

/-!
# Cutting a transcript

A text without escape characters is its own stripped form (`strip_eq_self`). A text is cut behind
each line in front of a file header (`blocks_append`), and nowhere if none of its lines but the
first starts a block (`blocks_eq_singleton`). A text that begins a block has a first block that does
so too (`exists_block`).
-/

namespace SuiteScope.Transcript

open SuiteScope.Text

theorem strip_eq_self {s : List Char} (h : escape ∉ s) : strip s = s := by
  induction s with
  | nil => rw [strip]
  | cons c s ih =>
    rw [List.mem_cons, not_or] at h
    have hnone : afterEscape? (c :: s) = none := by
      unfold afterEscape?
      split <;> simp_all [Ne.symm]
    rw [strip]
    split
    · simp_all
    · rw [ih h.2]

/-- No line of the text but the first starts a block. -/
def Uncut : List Char → Prop
  | [] => True
  | c :: s => (c = '\n' → startsBlock s = false) ∧ Uncut s

theorem uncut_append {line s : List Char} (hline : '\n' ∉ line) (hs : Uncut s) :
    Uncut (line ++ s) := by
  induction line with
  | nil => exact hs
  | cons c line ih =>
    rw [List.mem_cons, not_or] at hline
    exact ⟨fun hc => absurd hc.symm hline.1, ih hline.2⟩

theorem uncut_line {line s : List Char} (hline : '\n' ∉ line) (hstart : startsBlock s = false)
    (hs : Uncut s) : Uncut (line ++ '\n' :: s) :=
  uncut_append hline ⟨fun _ => hstart, hs⟩

/-- Only a file header or the word `FAIL` starts a block. -/
theorem startsBlock_append {gap : List Char} (hgap : gap.all isGap = true) {c : Char}
    (hc : isGap c = false) (hword : c ∉ ['❯', 'F']) (s : List Char) :
    startsBlock (gap ++ c :: s) = false := by
  have hdrop : (gap ++ c :: s).dropWhile isGap = c :: s :=
    dropWhile_append_of_head hgap (by simpa using hc)
  rw [startsBlock, hdrop]
  split <;> simp_all

theorem blocks_eq_singleton {s : List Char} (hne : s ≠ []) (h : Uncut s) : blocks s = [s] := by
  induction s with
  | nil => exact absurd rfl hne
  | cons c s ih =>
    cases s with
    | nil => rfl
    | cons d s =>
      have hcut : ¬(c = '\n' ∧ startsBlock (d :: s) = true) := fun ⟨hc, hd⟩ => by
        rw [h.1 hc] at hd
        exact absurd hd (by decide)
      rw [blocks, ih (by simp) h.2]
      exact if_neg hcut

theorem blocks_ne_nil {s : List Char} (h : s ≠ []) : blocks s ≠ [] := fun hnil => by
  have hflat := flatten_blocks s
  rw [hnil] at hflat
  exact h hflat.symm

/-- A text is cut behind a line end where the next block starts. -/
theorem blocks_append {x y b : List Char} {bs : List (List Char)} (hx : x.getLast? = some '\n')
    (hy : blocks y = b :: bs) (hb : startsBlock b = true) :
    blocks (x ++ y) = blocks x ++ blocks y := by
  induction x with
  | nil => simp at hx
  | cons c x ih =>
    cases x with
    | nil =>
      obtain rfl : c = '\n' := by simpa using hx
      simp [blocks, hy, hb]
    | cons d x =>
      obtain ⟨b', bs', hx'⟩ := List.exists_cons_of_ne_nil (blocks_ne_nil (List.cons_ne_nil d x))
      have happend := ih (by simpa using hx)
      rw [List.cons_append, blocks.eq_2 c, happend, blocks.eq_2 c, hx', List.cons_append]
      simp only
      split <;> rfl

/-- A text starts, after spaces and tabs, with a file header or the word `FAIL`. -/
def BeginsBlock (s : List Char) : Prop :=
  ∃ gap rest, gap.all isGap = true ∧
    (s = gap ++ '❯' :: rest ∨ s = gap ++ ("FAIL".toList ++ rest) ∧ isWordEnd rest = true)

theorem startsBlock_of_beginsBlock {s : List Char} (h : BeginsBlock s) : startsBlock s = true := by
  obtain ⟨gap, rest, hgap, rfl | ⟨rfl, hend⟩⟩ := h
  · rw [startsBlock, dropWhile_append_of_head hgap (by simp; decide)]
    rfl
  · rw [startsBlock, dropWhile_append_of_head hgap (by simp; decide)]
    exact hend

theorem newline_not_mem_of_all_isGap {gap : List Char} (h : gap.all isGap = true) :
    '\n' ∉ gap := fun hmem => by
  have hgap := List.all_eq_true.mp h _ hmem
  exact absurd hgap (by decide)

/-! ## The line that starts a block -/

theorem isWordEnd_append_afterLine (rest s : List Char) :
    isWordEnd (rest ++ afterLine s) = isWordEnd rest := by
  cases rest with
  | cons => rfl
  | nil =>
    rw [List.nil_append, isWordEnd]
    cases hc : (afterLine s).head? with
    | none => rfl
    | some c =>
      rw [eq_newline_of_mem_head?_afterLine hc]
      decide

theorem isWordEnd_restOfLine (s : List Char) : isWordEnd (restOfLine s) = isWordEnd s := by
  rw [← isWordEnd_append_afterLine (restOfLine s) s, restOfLine_append_afterLine]

/-- Whether a text begins a block is seen on its first line. -/
theorem beginsBlock_restOfLine {s : List Char} : BeginsBlock (restOfLine s) ↔ BeginsBlock s := by
  constructor
  · rintro ⟨gap, rest, hgap, heq⟩
    have hs := restOfLine_append_afterLine s
    refine ⟨gap, rest ++ afterLine s, hgap, ?_⟩
    rcases heq with heq | ⟨heq, hend⟩
    · rw [heq, List.append_assoc, List.cons_append] at hs
      exact .inl hs.symm
    · rw [heq, List.append_assoc, List.append_assoc] at hs
      exact .inr ⟨hs.symm, by rwa [isWordEnd_append_afterLine]⟩
  · rintro ⟨gap, rest, hgap, heq⟩
    have hnewline := newline_not_mem_of_all_isGap hgap
    refine ⟨gap, restOfLine rest, hgap, ?_⟩
    rcases heq with rfl | ⟨rfl, hend⟩
    · have hmark : '\n' ∉ ['❯'] := by decide
      rw [restOfLine_append_of_newline_not_mem hnewline, ← List.singleton_append,
        restOfLine_append_of_newline_not_mem hmark]
      exact .inl rfl
    · have hword : '\n' ∉ "FAIL".toList := by decide
      rw [restOfLine_append_of_newline_not_mem hnewline,
        restOfLine_append_of_newline_not_mem hword]
      exact .inr ⟨rfl, by rwa [isWordEnd_restOfLine]⟩

theorem beginsBlock_of_startsBlock {s : List Char} (h : startsBlock s = true) : BeginsBlock s := by
  have hs : s.takeWhile isGap ++ s.dropWhile isGap = s := List.takeWhile_append_dropWhile
  rw [startsBlock] at h
  split at h
  next rest heq =>
    rw [heq] at hs
    exact ⟨_, rest, List.all_takeWhile, .inl hs.symm⟩
  next rest heq =>
    rw [heq] at hs
    exact ⟨_, rest, List.all_takeWhile, .inr ⟨hs.symm, h⟩⟩
  · cases h

/-- No line is cut in two. -/
theorem restOfLine_headD_blocks (s : List Char) :
    restOfLine ((blocks s).headD []) = restOfLine s := by
  fun_induction blocks s with
  | case1 => rfl
  | case2 c s hs ih =>
    have hnil : s = [] := by rw [← flatten_blocks s, hs]; rfl
    rw [hnil]
    rfl
  | case3 c s b bs hs hcut ih =>
    rw [hcut.1]
    rfl
  | case4 c s b bs hs hcut ih =>
    rw [hs] at ih
    by_cases hc : c = '\n'
    · rw [hc]
      rfl
    · have hline : '\n' ∉ [c] := by simpa using Ne.symm hc
      rw [List.headD_cons, ← List.singleton_append, ← List.singleton_append (l := s),
        restOfLine_append_of_newline_not_mem hline, restOfLine_append_of_newline_not_mem hline]
      exact congrArg ([c] ++ ·) ih

theorem ne_nil_of_beginsBlock {s : List Char} (h : BeginsBlock s) : s ≠ [] := by
  obtain ⟨gap, rest, -, rfl | ⟨rfl, -⟩⟩ := h
  · exact List.append_ne_nil_of_right_ne_nil _ (List.cons_ne_nil _ _)
  · exact List.append_ne_nil_of_right_ne_nil _ (List.append_ne_nil_of_left_ne_nil (by decide) _)

/-- The first block of a text that begins one begins it as well. -/
theorem exists_block {s : List Char} (h : BeginsBlock s) :
    ∃ b bs, blocks s = b :: bs ∧ startsBlock b = true := by
  obtain ⟨b, bs, hblocks⟩ := List.exists_cons_of_ne_nil (blocks_ne_nil (ne_nil_of_beginsBlock h))
  have hline := restOfLine_headD_blocks s
  rw [hblocks, List.headD_cons] at hline
  rw [← beginsBlock_restOfLine, ← hline, beginsBlock_restOfLine] at h
  exact ⟨b, bs, hblocks, startsBlock_of_beginsBlock h⟩

end SuiteScope.Transcript
