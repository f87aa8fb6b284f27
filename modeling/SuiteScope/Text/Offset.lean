/-!
# Byte offsets into a text

A text is a list of characters, and a place in it is counted in the bytes of its UTF-8 form.
`byteSize` measures, `suffix? s n` is what follows the place `n` when a character starts there, and
`dropBytes n s` is what follows the first such place at or after `n`.
-/

namespace SuiteScope.Text

/-- The number of bytes of the UTF-8 form of a text. -/
def byteSize : List Char → Nat
  | [] => 0
  | c :: s => c.utf8Size + byteSize s

/-- What follows byte offset `n`, which has to be the start of a character or the end. -/
def suffix? : List Char → Nat → Option (List Char)
  | s, 0 => some s
  | [], _ + 1 => none
  | c :: s, n + 1 => if c.utf8Size ≤ n + 1 then suffix? s (n + 1 - c.utf8Size) else none

/-- What follows the first start of a character at or after byte offset `n`. -/
def dropBytes : Nat → List Char → List Char
  | 0, s => s
  | _ + 1, [] => []
  | n + 1, c :: s => dropBytes (n + 1 - c.utf8Size) s

/-- What comes before byte offset `n`, up to the last whole character. -/
def takeBytes : Nat → List Char → List Char
  | _, [] => []
  | n, c :: s => if c.utf8Size ≤ n then c :: takeBytes (n - c.utf8Size) s else []

/-- The characters from byte offset `a` to byte offset `b`. -/
def slice (s : List Char) (a b : Nat) : List Char :=
  takeBytes (b - a) (dropBytes a s)

/-- A stretch of text, from the byte offset `start` up to `stop`. -/
structure Span where
  start : Nat
  stop : Nat
  deriving DecidableEq, Repr

@[simp]
theorem byteSize_append (s t : List Char) : byteSize (s ++ t) = byteSize s + byteSize t := by
  induction s with
  | nil => simp [byteSize]
  | cons c s ih => simp [byteSize, ih, Nat.add_assoc]

theorem suffix?_byteSize (s t : List Char) : suffix? (s ++ t) (byteSize s) = some t := by
  induction s with
  | nil => cases t <;> rfl
  | cons c s ih =>
    have hc : 0 < c.utf8Size := c.utf8Size_pos
    obtain ⟨n, hn⟩ : ∃ n, c.utf8Size + byteSize s = n + 1 := ⟨c.utf8Size + byteSize s - 1, by omega⟩
    have hle : c.utf8Size ≤ n + 1 := by omega
    have hsub : n + 1 - c.utf8Size = byteSize s := by omega
    simp only [List.cons_append, byteSize, hn, suffix?, if_pos hle, hsub, ih]

end SuiteScope.Text
