import SuiteScope.Text.Line
import SuiteScope.Text.Word

/-!
# Blocks of a transcript

A transcript is cut in front of every line that starts with a file header or with the word `FAIL`.
`blocks` gives the pieces, none of them empty, whose concatenation is the transcript.
-/

namespace SuiteScope.Transcript

open SuiteScope.Text

/-- Whether a text starts, after spaces and tabs, with a file header or the word `FAIL`. -/
def startsBlock (s : List Char) : Bool :=
  match s.dropWhile isGap with
  | '❯' :: _ => true
  | 'F' :: 'A' :: 'I' :: 'L' :: rest => isWordEnd rest
  | _ => false

/-- The pieces of a transcript, cut in front of every line that starts a block. -/
def blocks : List Char → List (List Char)
  | [] => []
  | c :: s =>
    match blocks s with
    | [] => [[c]]
    | b :: bs => if c = '\n' ∧ startsBlock b then [c] :: b :: bs else (c :: b) :: bs

@[simp]
theorem flatten_blocks (s : List Char) : (blocks s).flatten = s := by
  fun_induction blocks s <;> simp_all

theorem ne_nil_of_mem_blocks {s b : List Char} (h : b ∈ blocks s) : b ≠ [] := by
  fun_induction blocks s <;> grind

end SuiteScope.Transcript
