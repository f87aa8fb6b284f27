import SuiteScope.Proofs.Transcript.Block

/-!
# Where a transcript is cut

The blocks of a transcript are the pieces between its cuts. There is a cut in front of every line
that begins a block and nowhere else, and no block has a cut of its own (`blocks_cuts`).

A block is made from the end of the transcript on, and whether it is cut off in front depends on how
the text goes on. What settles it is one line (`beginsBlock_restOfLine`), and a line is in one block
(`restOfLine_headD_blocks`).
-/

namespace SuiteScope.Transcript

open SuiteScope.Text

variable {s b : List Char} {front back : List (List Char)}

/-! ## One block -/

theorem uncut_of_mem_blocks (s : List Char) : ∀ b ∈ blocks s, Uncut b := by
  fun_induction blocks s with
  | case1 => exact List.forall_mem_nil _
  | case2 c s hs ih => exact List.forall_mem_singleton.mpr ⟨fun _ => rfl, trivial⟩
  | case3 c s first rest hs hcut ih =>
    rw [hs] at ih
    exact List.forall_mem_cons.mpr ⟨⟨fun _ => rfl, trivial⟩, ih⟩
  | case4 c s first rest hs hcut ih =>
    rw [hs] at ih
    rw [not_and, Bool.not_eq_true] at hcut
    obtain ⟨hfirst, hrest⟩ := List.forall_mem_cons.mp ih
    exact List.forall_mem_cons.mpr ⟨⟨hcut, hfirst⟩, hrest⟩

/-- A block is not cut again. -/
theorem blocks_of_mem_blocks (h : b ∈ blocks s) : blocks b = [b] :=
  blocks_eq_singleton (ne_nil_of_mem_blocks h) (uncut_of_mem_blocks s b h)

/-! ## Cuts -/

/-- The blocks behind a cut are those of the text behind it. -/
theorem blocks_flatten (h : blocks s = front ++ back) : blocks back.flatten = back := by
  induction s generalizing front with
  | nil =>
    obtain ⟨-, rfl⟩ := List.append_eq_nil_iff.mp h.symm
    rfl
  | cons c s ih =>
    cases front with
    | nil =>
      rw [List.nil_append] at h
      rw [← h, flatten_blocks]
    | cons first front =>
      rw [blocks] at h
      split at h
      · obtain ⟨-, hnil⟩ := List.cons.inj h
        obtain ⟨-, rfl⟩ := List.append_eq_nil_iff.mp hnil.symm
        rfl
      next d ds hs =>
        split at h
        · exact ih (hs.trans (List.cons.inj h).2)
        · have hrest : blocks s = (d :: front) ++ back :=
            hs.trans (congrArg (d :: ·) (List.cons.inj h).2)
          exact ih hrest

/-- A block behind another one begins a line, and a block. -/
theorem starts_of_blocks (h : blocks s = front ++ b :: back) (hfront : front ≠ []) :
    front.flatten.getLast? = some '\n' ∧ startsBlock b = true := by
  induction s generalizing front with
  | nil => exact absurd (List.append_eq_nil_iff.mp h.symm).1 hfront
  | cons c s ih =>
    obtain ⟨first, front, rfl⟩ := List.exists_cons_of_ne_nil hfront
    rw [blocks] at h
    split at h
    · obtain ⟨-, hnil⟩ := List.cons.inj h
      cases (List.append_eq_nil_iff.mp hnil.symm).2
    next d ds hs =>
      split at h
      next hcut =>
        obtain ⟨rfl, htail⟩ := List.cons.inj h
        cases front with
        | nil =>
          -- the cut that was just made
          obtain ⟨rfl, -⟩ := List.cons.inj htail
          exact ⟨by rw [hcut.1]; rfl, hcut.2⟩
        | cons next front =>
          obtain ⟨hlast, hb⟩ := ih (hs.trans htail) (List.cons_ne_nil _ _)
          refine ⟨?_, hb⟩
          rw [List.flatten_cons, List.getLast?_append, hlast]
          rfl
      next =>
        obtain ⟨rfl, htail⟩ := List.cons.inj h
        have hrest : blocks s = (d :: front) ++ b :: back := hs.trans (congrArg (d :: ·) htail)
        obtain ⟨hlast, hb⟩ := ih hrest (List.cons_ne_nil _ _)
        refine ⟨?_, hb⟩
        rw [List.flatten_cons] at hlast ⊢
        rw [List.cons_append, List.getLast?_cons, hlast]
        rfl

/-- A transcript is the concatenation of its blocks, none of which is empty. Every block behind the
first starts with a line that begins a block, in front of every such line there is a cut, and a block
is not cut again. -/
theorem blocks_cuts (s : List Char) :
    (blocks s).flatten = s ∧ (∀ b ∈ blocks s, b ≠ []) ∧
      (∀ front b back, blocks s = front ++ b :: back → front ≠ [] →
        isLineStart front.flatten.getLast? = true ∧
          BeginsBlock (restOfLine (b :: back).flatten)) ∧
      (∀ x y, s = x ++ y → isLineStart x.getLast? = true → BeginsBlock (restOfLine y) →
        ∃ front back, blocks s = front ++ back ∧ front.flatten = x ∧ back.flatten = y) ∧
      ∀ b ∈ blocks s, blocks b = [b] := by
  refine ⟨flatten_blocks s, fun b hb => ne_nil_of_mem_blocks hb, ?_, ?_,
    fun b hb => blocks_of_mem_blocks hb⟩
  · intro front b back h hfront
    obtain ⟨hlast, hstart⟩ := starts_of_blocks h hfront
    have hline := restOfLine_headD_blocks (b :: back).flatten
    rw [blocks_flatten h, List.headD_cons] at hline
    rw [hlast, ← hline, beginsBlock_restOfLine]
    exact ⟨rfl, beginsBlock_of_startsBlock hstart⟩
  · rintro x y rfl hx hy
    rw [beginsBlock_restOfLine] at hy
    obtain ⟨b, bs, hblocks, hstart⟩ := exists_block hy
    cases hlast : x.getLast? with
    | none =>
      rw [List.getLast?_eq_none_iff] at hlast
      subst hlast
      exact ⟨[], blocks y, rfl, rfl, flatten_blocks y⟩
    | some c =>
      rw [hlast] at hx
      obtain rfl : c = '\n' := by simpa [isLineStart] using hx
      exact ⟨blocks x, blocks y, blocks_append hlast hblocks hstart, flatten_blocks x,
        flatten_blocks y⟩

example : (blocks "a\n\t❯ b\nFAILED\nFAIL".toList).map String.ofList =
    ["a\n", "\t❯ b\nFAILED\n", "FAIL"] := by decide +kernel

end SuiteScope.Transcript
