import Mathlib.Order.Bounds.Basic
import SuiteScope.Proofs.Source.Block

/-!
# Blanked text

`blanked s` is a source with a space for every byte of its strings and comments. It has no skipped
text of its own (`skippedRanges_blanked`), and a counter that knows nothing of quotes and comments
finds in it what `matchingClose?` and `blockOpen?` find in the source : `reading_blanked`. These two
read from any place in code as if the source began there, so the theorem says as well that such a
reading agrees with one from the start of the source.

The two readings may be in different modes. But a character that is not skipped leaves behind it the
mode that it leaves when the source begins with it (`markedFrom_of_unskipped`), so from there on
they go together.
-/

namespace SuiteScope.Source

open SuiteScope.Text

/-- The bytes of the UTF-8 form of a text. -/
def utf8Bytes (s : List Char) : List UInt8 :=
  s.flatMap String.utf8EncodeChar

/-- Marked text with a space for every byte of a marked character. -/
def blankOut (l : List (Char × Bool)) : List Char :=
  l.flatMap fun (c, mark) => if mark then List.replicate c.utf8Size ' ' else [c]

/-- A source with a space for every byte of its strings and comments. -/
def blanked (s : List Char) : List Char :=
  blankOut (marked s)

/-- The byte offset where the delimiter `close` brings `depth` back to zero. The text starts at byte
offset `pos`. -/
def plainBalance (opening close : Char) : (depth pos : Nat) → List Char → Option Nat
  | _, _, [] => none
  | depth, pos, c :: s =>
    if c = opening then plainBalance opening close (depth + 1) (pos + c.utf8Size) s
    else if c = close then
      if depth = 1 then some pos else plainBalance opening close (depth - 1) (pos + c.utf8Size) s
    else plainBalance opening close depth (pos + c.utf8Size) s

/-- The byte offset of the counterpart of the delimiter at byte offset `pos`, for a counter to which
all text is code. -/
def plainClose? (s : List Char) (pos : Nat) : Option Nat :=
  match suffix? s pos with
  | some (opening :: rest) =>
    (closing? opening).bind fun close => plainBalance opening close 0 pos (opening :: rest)
  | _ => none

/-- The character at a byte offset. -/
def charAt? (s : List Char) (pos : Nat) : Option Char :=
  (suffix? s pos).bind List.head?

/-- The byte offset of the first `c` in a text that starts at byte offset `pos`. -/
def firstPlace? (c : Char) : (pos : Nat) → List Char → Option Nat
  | _, [] => none
  | pos, d :: s => if d = c then some pos else firstPlace? c (pos + d.utf8Size) s

/-! ## Blanking -/

theorem blankOut_append (l t : List (Char × Bool)) :
    blankOut (l ++ t) = blankOut l ++ blankOut t :=
  List.flatMap_append

theorem blankOut_cons_true (c : Char) (l : List (Char × Bool)) :
    blankOut ((c, true) :: l) = List.replicate c.utf8Size ' ' ++ blankOut l :=
  rfl

theorem blankOut_cons_false (c : Char) (l : List (Char × Bool)) :
    blankOut ((c, false) :: l) = c :: blankOut l :=
  rfl

theorem byteSize_replicate_space (n : Nat) : byteSize (List.replicate n ' ') = n := by
  induction n with
  | zero => rfl
  | succ n ih =>
    have hspace : ' '.utf8Size = 1 := rfl
    rw [List.replicate_succ, byteSize_cons, ih, hspace, Nat.add_comm]

/-- Blanking moves nothing. -/
theorem byteSize_blankOut (l : List (Char × Bool)) :
    byteSize (blankOut l) = byteSize (l.map (·.1)) := by
  induction l with
  | nil => rfl
  | cons x l ih =>
    obtain ⟨c, mark⟩ := x
    cases mark with
    | true => rw [blankOut_cons_true, byteSize_append, byteSize_replicate_space, ih]; rfl
    | false => rw [blankOut_cons_false, byteSize_cons, ih]; rfl

/-- Blanking keeps all offsets. -/
theorem byteSize_blanked (s : List Char) : byteSize (blanked s) = byteSize s := by
  rw [blanked, byteSize_blankOut, map_fst_marked]

theorem utf8Bytes_replicate_space (n : Nat) :
    utf8Bytes (List.replicate n ' ') = List.replicate n 0x20 := by
  induction n with
  | zero => rfl
  | succ n ih =>
    rw [List.replicate_succ, List.replicate_succ, ← ih]
    rfl

/-- The bytes of the first character, each with its place. -/
theorem mapIdx_utf8EncodeChar (c : Char) (mark : Bool) (l : List (Char × Bool)) :
    (String.utf8EncodeChar c).mapIdx (fun p b => if covered ((c, mark) :: l) p then 0x20 else b) =
      if mark then List.replicate c.utf8Size 0x20 else String.utf8EncodeChar c := by
  have hlength := String.length_utf8EncodeChar c
  refine List.ext_getElem (by cases mark <;> simp [hlength]) fun p hp _ => ?_
  rw [List.length_mapIdx, hlength] at hp
  rw [List.getElem_mapIdx, covered, if_pos hp]
  cases mark <;> simp

/-- Blanking sets a blank for each byte that is skipped. -/
theorem utf8Bytes_blankOut (l : List (Char × Bool)) :
    utf8Bytes (blankOut l) =
      (utf8Bytes (l.map (·.1))).mapIdx fun p b => if covered l p then 0x20 else b := by
  induction l with
  | nil => rfl
  | cons x l ih =>
    obtain ⟨c, mark⟩ := x
    have hbytes : utf8Bytes (((c, mark) :: l).map (·.1)) =
        String.utf8EncodeChar c ++ utf8Bytes (l.map (·.1)) := rfl
    have hbehind (p : Nat) : covered ((c, mark) :: l) (p + c.utf8Size) = covered l p := by
      rw [covered, if_neg (by omega), Nat.add_sub_cancel]
    rw [hbytes, List.mapIdx_append, mapIdx_utf8EncodeChar, String.length_utf8EncodeChar]
    simp only [hbehind]
    rw [← ih]
    cases mark with
    | true =>
      rw [blankOut_cons_true, if_pos rfl, ← utf8Bytes_replicate_space]
      exact List.flatMap_append
    | false => rfl

/-- Blanking is a matter of bytes : those in skipped text become spaces, all others stay. -/
theorem utf8Bytes_blanked (s : List Char) :
    utf8Bytes (blanked s) =
      (utf8Bytes s).mapIdx fun p b => if inSkipped (skippedRanges s) p then 0x20 else b := by
  simp only [blanked, utf8Bytes_blankOut, map_fst_marked, inSkipped_skippedRanges]

/-! ## Blanked text is code -/

theorem head?_blankOut (m : Mode) (s : List Char) :
    (blankOut (markedFrom m s)).head? = s.head? ∨
      (blankOut (markedFrom m s)).head? = some ' ' := by
  cases s with
  | nil => exact .inl rfl
  | cons c s =>
    rw [markedFrom_cons]
    cases m.skips c s.head? with
    | true =>
      obtain ⟨n, hn⟩ := Nat.exists_eq_succ_of_ne_zero (Nat.ne_of_gt c.utf8Size_pos)
      rw [blankOut_cons_true, hn]
      exact .inr rfl
    | false => exact .inl rfl

/-- What is not skipped stands in code, or ends the line of a comment. -/
theorem code_or_newline_of_unskipped {m : Mode} {c : Char} {next : Option Char}
    (h : m.skips c next = false) : m = .code ∨ m = .lineComment ∧ c = '\n' := by
  cases m with
  | code => exact .inl rfl
  | lineComment => exact .inr ⟨rfl, by simpa [Mode.skips] using h⟩
  | quoted q => cases h
  | escaped q => cases h
  | lineOpening => cases h
  | blockOpening => cases h
  | blockComment => cases h
  | blockClosing => cases h

/-- A character that is not skipped leaves code in code. -/
theorem after_code_of_unskipped {m : Mode} {c : Char} {next : Option Char}
    (h : m.skips c next = false) : Mode.code.after c next = .code := by
  rcases code_or_newline_of_unskipped h with rfl | ⟨rfl, rfl⟩
  · simpa [Mode.skips] using h
  · exact after_code_of_plain (by decide) next

/-- In front of a space no slash opens a comment. -/
theorem after_code_space {c : Char} {next : Option Char} (h : Mode.code.after c next = .code) :
    Mode.code.after c (some ' ') = .code := by
  by_cases hc : c = '/'
  · subst hc
    rfl
  · simpa [Mode.after, hc] using h

theorem marked_cons_of_after {c : Char} {s : List Char} (h : Mode.code.after c s.head? = .code) :
    marked (c :: s) = (c, false) :: marked s := by
  rw [marked_eq, markedFrom_cons, Mode.skips, h]
  rfl

/-- Whatever the mode in which a text is entered, nothing of it is skipped once it is blanked. -/
theorem marked_blankOut (m : Mode) (s : List Char) :
    marked (blankOut (markedFrom m s)) = (blankOut (markedFrom m s)).map (·, false) := by
  induction s generalizing m with
  | nil => rfl
  | cons c s ih =>
    rw [markedFrom_cons]
    cases hskip : m.skips c s.head? with
    | true =>
      have hspaces : (List.replicate c.utf8Size ' ').all isPlain = true :=
        List.all_eq_true.mpr fun d hd => by rw [List.eq_of_mem_replicate hd]; decide
      rw [blankOut_cons_true, marked_plain hspaces, ih, List.map_append]
    | false =>
      have hafter := after_code_of_unskipped hskip
      have hhead : Mode.code.after c
          (blankOut (markedFrom (m.after c s.head?) s)).head? = .code := by
        rcases head?_blankOut (m.after c s.head?) s with heq | heq
        · rw [heq, hafter]
        · rw [heq, after_code_space hafter]
      rw [blankOut_cons_false, marked_cons_of_after hhead, ih, List.map_cons]

theorem stretches_unmarked (pos : Nat) (s : List Char) :
    stretches none pos (s.map (·, false)) = [] := by
  induction s generalizing pos with
  | nil => rfl
  | cons c s ih => exact ih _

/-- Nothing is skipped in a blanked text. -/
theorem skippedRanges_blanked (s : List Char) : skippedRanges (blanked s) = #[] := by
  rw [skippedRanges, blanked, marked_eq s, marked_blankOut, stretches_unmarked]

/-! ## Reading from the middle -/

/-- Behind a character that is not skipped, all modes in which it may stand are one. -/
theorem markedFrom_of_unskipped {m : Mode} {c : Char} {s : List Char}
    (h : m.skips c s.head? = false) : markedFrom m (c :: s) = marked (c :: s) := by
  rcases code_or_newline_of_unskipped h with rfl | ⟨rfl, rfl⟩
  · rfl
  · rw [marked_cons_of_after (after_code_of_plain (by decide) s.head?)]
    rfl

theorem markedFrom_append (m : Mode) (a s : List Char) :
    ∃ l m', l.map (·.1) = a ∧ markedFrom m (a ++ s) = l ++ markedFrom m' s := by
  induction a generalizing m with
  | nil => exact ⟨[], m, rfl, rfl⟩
  | cons c a ih =>
    obtain ⟨l, m', hl, heq⟩ := ih (m.after c (a ++ s).head?)
    refine ⟨(c, m.skips c (a ++ s).head?) :: l, m', by rw [List.map_cons, hl], ?_⟩
    rw [List.cons_append, markedFrom_cons, heq, List.cons_append]

/-- A character that is not skipped is read, with all that follows, as if the source began there. -/
theorem marked_append_cons {a s : List Char} {c : Char} {k : Nat} (hk : k < c.utf8Size)
    (h : covered (marked (a ++ c :: s)) (byteSize a + k) = false) :
    marked (c :: s) = (c, false) :: marked s ∧
      ∃ l, l.map (·.1) = a ∧ marked (a ++ c :: s) = l ++ marked (c :: s) := by
  obtain ⟨l, m, rfl, heq⟩ := markedFrom_append .code a (c :: s)
  rw [marked_eq, heq, covered_append, markedFrom_cons, covered, if_pos hk] at h
  refine ⟨marked_cons_of_after (after_code_of_unskipped h), l, rfl, ?_⟩
  rw [marked_eq, heq, markedFrom_of_unskipped h]

/-- Behind a place of the code, marks are those of what follows alone. -/
theorem marked_append {a s : List Char} (h : covered (marked (a ++ s)) (byteSize a) = false) :
    ∃ l, l.map (·.1) = a ∧ marked (a ++ s) = l ++ marked s := by
  cases s with
  | nil =>
    refine ⟨marked a, map_fst_marked a, ?_⟩
    rw [List.append_nil]
    exact (List.append_nil _).symm
  | cons c s => exact (marked_append_cons c.utf8Size_pos h).2

/-! ## Plain counting -/

section

variable {opening close : Char}

/-- Blanks do not count. -/
theorem plainBalance_spaces (ho : ' ' ≠ opening) (hc : ' ' ≠ close) (depth pos n : Nat)
    (s : List Char) : plainBalance opening close depth pos (List.replicate n ' ' ++ s) =
      plainBalance opening close depth (pos + n) s := by
  induction n generalizing pos with
  | zero => rfl
  | succ n ih =>
    have hspace : ' '.utf8Size = 1 := rfl
    rw [List.replicate_succ, List.cons_append, plainBalance, if_neg ho, if_neg hc, ih, hspace,
      Nat.add_assoc, Nat.add_comm 1]

/-- Counting what is not skipped is counting all of the blanked text. -/
theorem closeIn_eq_plainBalance (ho : ' ' ≠ opening) (hc : ' ' ≠ close) (depth pos : Nat)
    (l : List (Char × Bool)) :
    closeIn opening close depth pos l = plainBalance opening close depth pos (blankOut l) := by
  induction l generalizing depth pos with
  | nil => rfl
  | cons x l ih =>
    obtain ⟨c, mark⟩ := x
    cases mark with
    | true => rw [closeIn, if_pos rfl, blankOut_cons_true, plainBalance_spaces ho hc, ih]
    | false => simp only [closeIn, blankOut_cons_false, plainBalance, ih, Bool.false_eq_true,
        if_false]

end

theorem space_ne_delimiter {opening close : Char} (h : closing? opening = some close) :
    ' ' ≠ opening ∧ ' ' ≠ close := by
  unfold closing? at h
  split at h <;> cases h <;> decide

theorem firstPlace?_spaces {c : Char} (hc : ' ' ≠ c) (pos n : Nat) (s : List Char) :
    firstPlace? c pos (List.replicate n ' ' ++ s) = firstPlace? c (pos + n) s := by
  induction n generalizing pos with
  | zero => rfl
  | succ n ih =>
    have hspace : ' '.utf8Size = 1 := rfl
    rw [List.replicate_succ, List.cons_append, firstPlace?, if_neg hc, ih, hspace, Nat.add_assoc,
      Nat.add_comm 1]

/-- The first brace of the code is the first brace of the blanked text. -/
theorem firstBrace?_eq_firstPlace? (m : Mode) (pos : Nat) (s : List Char) :
    firstBrace? m pos s = firstPlace? '{' pos (blankOut (markedFrom m s)) := by
  induction s generalizing m pos with
  | nil => rfl
  | cons c s ih =>
    rw [firstBrace?, markedFrom_cons]
    cases m.skips c s.head? with
    | true =>
      rw [if_neg (by simp), ih, blankOut_cons_true, firstPlace?_spaces (by decide)]
    | false => simp only [and_true, blankOut_cons_false, firstPlace?, ih]

theorem charAt?_byteSize (a : List Char) (c : Char) (s : List Char) :
    charAt? (a ++ c :: s) (byteSize a) = some c := by
  rw [charAt?, suffix?_byteSize]
  rfl

/-- There is no character inside of another one. -/
theorem charAt?_inside {c : Char} {k : Nat} (a s : List Char) (hpos : 0 < k)
    (hlt : k < c.utf8Size) : charAt? (a ++ c :: s) (byteSize a + k) = none := by
  rw [charAt?, suffix?_inside a s hpos hlt, Option.bind_none]

theorem charAt?_of_le {s : List Char} {p : Nat} (h : byteSize s ≤ p) : charAt? s p = none := by
  rcases Nat.lt_or_eq_of_le h with hlt | rfl
  · rw [charAt?, suffix?_beyond hlt, Option.bind_none]
  · have hend := suffix?_byteSize s []
    rw [List.append_nil] at hend
    rw [charAt?, hend]
    rfl

/-- Where no `c` starts, a search for `c` may as well go on behind the character. -/
theorem searched_behind {c d : Char} {a s : List Char} {k : Nat} (hlt : k < d.utf8Size)
    (h : k = 0 → d ≠ c) :
    {q | byteSize a + k ≤ q ∧ charAt? (a ++ d :: s) q = some c} =
      {q | byteSize (a ++ [d]) ≤ q ∧ charAt? ((a ++ [d]) ++ s) q = some c} := by
  have hsize : byteSize (a ++ [d]) = byteSize a + d.utf8Size := by simp
  ext q
  rw [List.append_assoc, List.singleton_append, hsize]
  refine ⟨fun ⟨hle, hq⟩ => ⟨Nat.le_of_not_lt fun hin => ?_, hq⟩, fun ⟨hle, hq⟩ => ⟨by omega, hq⟩⟩
  obtain ⟨j, rfl⟩ := Nat.exists_eq_add_of_le (Nat.le_of_add_right_le hle)
  rcases Nat.eq_zero_or_pos j with rfl | hj
  · rw [Nat.add_zero, charAt?_byteSize, Option.some_inj] at hq
    exact h (by omega) hq
  · rw [charAt?_inside a s hj (by omega)] at hq
    cases hq

theorem firstPlace?_eq_some_iff {c : Char} {a s : List Char} {q : Nat} :
    firstPlace? c (byteSize a) s = some q ↔
      IsLeast {q | byteSize a ≤ q ∧ charAt? (a ++ s) q = some c} q := by
  induction s generalizing a with
  | nil =>
    refine ⟨nofun, fun ⟨⟨hle, hq⟩, _⟩ => ?_⟩
    rw [List.append_nil, charAt?_of_le hle] at hq
    cases hq
  | cons d s ih =>
    rw [firstPlace?]
    split
    next hd =>
      subst hd
      have hleast : IsLeast {q | byteSize a ≤ q ∧ charAt? (a ++ d :: s) q = some d}
          (byteSize a) := ⟨⟨Nat.le_refl _, charAt?_byteSize a d s⟩, fun q hq => hq.1⟩
      rw [Option.some_inj]
      exact ⟨fun h => h ▸ hleast, fun h => hleast.unique h⟩
    next hd =>
      have hnext : byteSize a + d.utf8Size = byteSize (a ++ [d]) := by simp
      have hset := searched_behind (a := a) (s := s) d.utf8Size_pos fun _ => hd
      rw [Nat.add_zero] at hset
      rw [hnext, ih, hset]

/-! ## The two readings -/

/-- Behind what comes before a place in code, the blanked source is what is blanked of the rest. -/
theorem blanked_append {a s : List Char} (h : covered (marked (a ++ s)) (byteSize a) = false) :
    ∃ b, byteSize b = byteSize a ∧ blanked (a ++ s) = b ++ blanked s := by
  obtain ⟨l, rfl, heq⟩ := marked_append h
  exact ⟨blankOut l, byteSize_blankOut l, by rw [blanked, heq, blankOut_append, blanked]⟩

theorem blanked_append_cons {a s : List Char} {c : Char} {k : Nat} (hk : k < c.utf8Size)
    (h : covered (marked (a ++ c :: s)) (byteSize a + k) = false) :
    ∃ b, byteSize b = byteSize a ∧ blanked (a ++ c :: s) = b ++ c :: blanked s := by
  obtain ⟨hcons, l, rfl, heq⟩ := marked_append_cons hk h
  refine ⟨blankOut l, byteSize_blankOut l, ?_⟩
  rw [blanked, heq, hcons, blankOut_append, blankOut_cons_false, blanked]

/-- A counterpart is found without looking at comments and literals once they are blanked. -/
theorem matchingClose?_eq_plainClose? {s : List Char} {p : Nat}
    (h : covered (marked s) p = false) : matchingClose? s p = plainClose? (blanked s) p := by
  rw [matchingClose?, plainClose?]
  cases place s p with
  | boundary a t =>
    cases t with
    | nil =>
      obtain ⟨b, hb, heq⟩ := blanked_append h
      rw [heq, suffix?_byteSize, ← hb, suffix?_byteSize]
      rfl
    | cons c t =>
      obtain ⟨hcons, -⟩ := marked_append_cons c.utf8Size_pos h
      obtain ⟨b, hb, heq⟩ := blanked_append_cons c.utf8Size_pos h
      rw [heq, suffix?_byteSize, ← hb, suffix?_byteSize]
      cases hclose : closing? c with
      | none => simp [hclose]
      | some close =>
        obtain ⟨ho, hc⟩ := space_ne_delimiter hclose
        simp only [hclose, Option.bind_some]
        rw [balance_eq_closeIn, closeIn_eq_plainBalance ho hc, ← marked_eq, hcons,
          blankOut_cons_false, blanked]
  | inside a c t hpos hlt =>
    obtain ⟨b, hb, heq⟩ := blanked_append_cons hlt h
    rw [heq, suffix?_inside a t hpos hlt, ← hb, suffix?_inside b _ hpos hlt]
  | beyond h => rw [suffix?_beyond h, suffix?_beyond (byteSize_blanked s ▸ h)]

/-- The search for a brace in the rest of a source, which starts behind `b` in the blanked one. -/
theorem firstBrace?_eq_some_iff {b s : List Char} {q : Nat} :
    firstBrace? .code (byteSize b) s = some q ↔
      IsLeast {q | byteSize b ≤ q ∧ charAt? (b ++ blanked s) q = some '{'} q := by
  rw [firstBrace?_eq_firstPlace?, ← marked_eq]
  exact firstPlace?_eq_some_iff

/-- So is the brace that opens a block. -/
theorem blockOpen?_eq_some_iff {s : List Char} {p : Nat} (h : covered (marked s) p = false)
    (q : Nat) : blockOpen? s p = some q ↔
      IsLeast {q | p ≤ q ∧ charAt? (blanked s) q = some '{'} q := by
  rw [blockOpen?]
  cases place s p with
  | boundary a t =>
    obtain ⟨b, hb, heq⟩ := blanked_append h
    rw [heq, dropBytes_byteSize, byteSize_append, Nat.add_sub_cancel, ← hb]
    exact firstBrace?_eq_some_iff
  | inside a c t hpos hlt =>
    obtain ⟨b, hb, heq⟩ := blanked_append_cons hlt h
    have hsize : byteSize (a ++ c :: t) - byteSize t = byteSize (b ++ [c]) := by
      simp [hb, ← Nat.add_assoc]
    have hset := searched_behind (c := '{') (a := b) (s := blanked t) hlt (by omega)
    rw [heq, dropBytes_inside a t hpos hlt, hsize, ← hb, hset]
    exact firstBrace?_eq_some_iff
  | beyond hbeyond =>
    rw [dropBytes_beyond hbeyond]
    constructor
    · intro h
      cases h
    · rintro ⟨⟨hle, hq⟩, -⟩
      rw [charAt?_of_le (by rw [byteSize_blanked]; omega)] at hq
      cases hq

/-- From a place of the code on, a text may be scanned alone. -/
theorem inSkipped_suffix {s t : List Char} {p : Nat} (h : covered (marked s) p = false)
    (ht : suffix? s p = some t) (q : Nat) :
    inSkipped (skippedRanges t) q = inSkipped (skippedRanges s) (p + q) := by
  rw [inSkipped_skippedRanges, inSkipped_skippedRanges]
  obtain ⟨a, rfl, rfl⟩ := exists_of_suffix? ht
  obtain ⟨l, rfl, heq⟩ := marked_append h
  rw [heq, covered_append]

/-- What is read from a place in code is what a reader of the blanked source sees, to whom all text
is code. So a reading from the middle of a source agrees with one from its start. -/
theorem reading_blanked (s : List Char) :
    (utf8Bytes (blanked s) =
      (utf8Bytes s).mapIdx fun p b => if inSkipped (skippedRanges s) p then 0x20 else b) ∧
    skippedRanges (blanked s) = #[] ∧
    ∀ p, inSkipped (skippedRanges s) p = false →
      matchingClose? s p = plainClose? (blanked s) p ∧
      (∀ q, blockOpen? s p = some q ↔
        IsLeast {q | p ≤ q ∧ charAt? (blanked s) q = some '{'} q) ∧
      ∀ t, suffix? s p = some t → ∀ q,
        inSkipped (skippedRanges t) q = inSkipped (skippedRanges s) (p + q) := by
  refine ⟨utf8Bytes_blanked s, skippedRanges_blanked s, fun p h => ?_⟩
  rw [inSkipped_skippedRanges] at h
  exact ⟨matchingClose?_eq_plainClose? h, blockOpen?_eq_some_iff h, fun t => inSkipped_suffix h⟩

/-- A parenthesis whose block holds a brace in quotes and another one in a comment. -/
theorem reading_blanked_of_quoted_brace :
    let s := "a('\x7d', \x7b /* \x7d */ \x7d)".toList
    inSkipped (skippedRanges s) 1 = false ∧ blanked s = "a(   , \x7b         \x7d)".toList ∧
      matchingClose? s 1 = some 18 ∧
      IsLeast {q | 1 ≤ q ∧ charAt? (blanked s) q = some '{'} 7 := by
  intro s
  have hcode : inSkipped (skippedRanges s) 1 = false := by
    rw [inSkipped_skippedRanges]
    decide +kernel
  obtain ⟨hclose, hopen, -⟩ := (reading_blanked s).2.2 1 hcode
  refine ⟨hcode, by decide +kernel, ?_, (hopen 7).mp (by decide +kernel)⟩
  rw [hclose]
  decide +kernel

end SuiteScope.Source
