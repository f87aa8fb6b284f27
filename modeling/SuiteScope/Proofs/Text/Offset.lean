import SuiteScope.Text.Offset

/-!
# Places behind a prefix

What is read at a place of `a ++ s` behind `a` is what is read in `s` at that place less the size of
`a` : `suffix?_add`, `dropBytes_add` and `slice_add`. So a statement on `s` alone carries over to
every text that ends in `s`.

A byte offset need not be a place at all. `Place` tells the boundaries of characters from the
offsets inside a character and those beyond the end, where nothing can be read.
-/

namespace SuiteScope.Text

@[simp]
theorem byteSize_nil : byteSize [] = 0 :=
  rfl

/-- A text is as long as its first character and the rest together. -/
@[simp]
theorem byteSize_cons (c : Char) (s : List Char) : byteSize (c :: s) = c.utf8Size + byteSize s :=
  rfl

theorem suffix?_cons (c : Char) (s : List Char) (n : Nat) :
    suffix? (c :: s) (c.utf8Size + n) = suffix? s n := by
  obtain ⟨k, hk⟩ : ∃ k, c.utf8Size + n = k + 1 :=
    ⟨c.utf8Size + n - 1, by have := c.utf8Size_pos; omega⟩
  rw [hk, suffix?, if_pos (by omega)]
  congr 1
  omega

/-- Behind a text, offsets count from its end. -/
theorem suffix?_add (a s : List Char) (n : Nat) :
    suffix? (a ++ s) (byteSize a + n) = suffix? s n := by
  induction a with
  | nil => simp
  | cons c a ih => rw [List.cons_append, byteSize_cons, Nat.add_assoc, suffix?_cons, ih]

theorem dropBytes_cons (c : Char) (s : List Char) (n : Nat) :
    dropBytes (c.utf8Size + n) (c :: s) = dropBytes n s := by
  obtain ⟨k, hk⟩ : ∃ k, c.utf8Size + n = k + 1 :=
    ⟨c.utf8Size + n - 1, by have := c.utf8Size_pos; omega⟩
  rw [hk, dropBytes]
  congr 1
  omega

/-- Dropping more than a text goes on in what follows it. -/
theorem dropBytes_add (a s : List Char) (n : Nat) :
    dropBytes (byteSize a + n) (a ++ s) = dropBytes n s := by
  induction a with
  | nil => simp
  | cons c a ih => rw [List.cons_append, byteSize_cons, Nat.add_assoc, dropBytes_cons, ih]

/-- Dropping a text leaves what follows it. -/
theorem dropBytes_byteSize (a s : List Char) : dropBytes (byteSize a) (a ++ s) = s := by
  simpa [dropBytes] using dropBytes_add a s 0

theorem byteSize_dropBytes_le (n : Nat) (s : List Char) :
    byteSize (dropBytes n s) ≤ byteSize s := by
  fun_induction dropBytes n s with
  | case1 s => exact Nat.le_refl _
  | case2 n => exact Nat.le_refl _
  | case3 n c s ih => exact Nat.le_trans ih (by simp)

/-- Taking as much as a text has gives the text. -/
theorem takeBytes_byteSize (a s : List Char) : takeBytes (byteSize a) (a ++ s) = a := by
  induction a with
  | nil =>
    cases s with
    | nil => rfl
    | cons c s => simp [takeBytes, Nat.ne_of_gt c.utf8Size_pos]
  | cons c a ih => simp [takeBytes, ih]

/-- A slice behind a text is a slice of what follows it. -/
theorem slice_add (a s : List Char) (m n : Nat) :
    slice (a ++ s) (byteSize a + m) (byteSize a + n) = slice s m n := by
  rw [slice, slice, dropBytes_add, Nat.add_sub_add_left]

/-- The middle one of three pieces of a text. -/
theorem slice_byteSize (a x b : List Char) :
    slice (a ++ (x ++ b)) (byteSize a) (byteSize (a ++ x)) = x := by
  rw [slice, dropBytes_byteSize, byteSize_append, Nat.add_sub_cancel_left, takeBytes_byteSize]

/-! ## Offsets of every kind -/

/-- Where a byte offset lies in a text. -/
inductive Place : (s : List Char) → (p : Nat) → Prop
  /-- At the start of a character or at the end of the text. -/
  | boundary (a t : List Char) : Place (a ++ t) (byteSize a)
  /-- Behind the first byte of a character. -/
  | inside (a : List Char) (c : Char) (t : List Char) {k : Nat} (hpos : 0 < k)
    (hlt : k < c.utf8Size) : Place (a ++ c :: t) (byteSize a + k)
  | beyond {s : List Char} {p : Nat} (h : byteSize s < p) : Place s p

theorem Place.cons (c : Char) {s : List Char} {p : Nat} (h : Place s p) :
    Place (c :: s) (c.utf8Size + p) := by
  cases h with
  | boundary a t => exact .boundary (c :: a) t
  | inside a d t hpos hlt =>
    rw [← Nat.add_assoc]
    exact .inside (c :: a) d t hpos hlt
  | beyond h => exact .beyond (Nat.add_lt_add_left h _)

/-- Every offset is between two characters, inside of one, or beyond the end. -/
theorem place (s : List Char) (p : Nat) : Place s p := by
  induction s generalizing p with
  | nil =>
    rcases Nat.eq_zero_or_pos p with rfl | hp
    · exact .boundary [] []
    · exact .beyond hp
  | cons c s ih =>
    rcases Nat.eq_zero_or_pos p with rfl | hp
    · exact .boundary [] (c :: s)
    · rcases Nat.lt_or_ge p c.utf8Size with hlt | hge
      · simpa using Place.inside [] c s hp hlt
      · obtain ⟨q, rfl⟩ := Nat.exists_eq_add_of_le hge
        exact (ih q).cons c

section

variable {c : Char} {k : Nat}

/-- No rest starts inside of a character. -/
theorem suffix?_inside (a t : List Char) (hpos : 0 < k) (hlt : k < c.utf8Size) :
    suffix? (a ++ c :: t) (byteSize a + k) = none := by
  obtain ⟨n, rfl⟩ := Nat.exists_eq_succ_of_ne_zero (Nat.ne_of_gt hpos)
  rw [suffix?_add, suffix?, if_neg (Nat.not_le_of_lt hlt)]

/-- A character that is dropped in part is dropped as a whole. -/
theorem dropBytes_inside (a t : List Char) (hpos : 0 < k) (hlt : k < c.utf8Size) :
    dropBytes (byteSize a + k) (a ++ c :: t) = t := by
  obtain ⟨n, rfl⟩ := Nat.exists_eq_succ_of_ne_zero (Nat.ne_of_gt hpos)
  rw [dropBytes_add, dropBytes, Nat.sub_eq_zero_of_le (Nat.le_of_lt hlt), dropBytes]

end

/-- No rest starts beyond the end. -/
theorem suffix?_beyond {s : List Char} {p : Nat} (h : byteSize s < p) : suffix? s p = none := by
  obtain ⟨k, rfl⟩ := Nat.exists_eq_add_of_lt h
  simpa [Nat.add_assoc, suffix?] using suffix?_add s [] (k + 1)

/-- Nothing is left beyond the end. -/
theorem dropBytes_beyond {s : List Char} {p : Nat} (h : byteSize s < p) : dropBytes p s = [] := by
  obtain ⟨k, rfl⟩ := Nat.exists_eq_add_of_lt h
  simpa [Nat.add_assoc, dropBytes] using dropBytes_add s [] (k + 1)

/-- What is read at an offset stands behind the part of the text that is as long as that. -/
theorem exists_of_suffix? {s t : List Char} {p : Nat} (h : suffix? s p = some t) :
    ∃ a, s = a ++ t ∧ p = byteSize a := by
  cases place s p with
  | boundary a u =>
    rw [suffix?_byteSize] at h
    obtain rfl := Option.some.inj h
    exact ⟨a, rfl, rfl⟩
  | inside a c u hpos hlt =>
    rw [suffix?_inside a u hpos hlt] at h
    cases h
  | beyond hbeyond =>
    rw [suffix?_beyond hbeyond] at h
    cases h

end SuiteScope.Text
