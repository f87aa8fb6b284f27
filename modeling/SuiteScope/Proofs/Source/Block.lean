import SuiteScope.Proofs.Source.Settled
import SuiteScope.Source.Block

/-!
# Blocks of settled text

`depthAfter` counts the delimiters of a text without strings and comments. A text is whole (`Whole`)
if it is settled and its code comes back to depth zero for each kind of delimiter. Whole texts are
closed under `++` and under enclosing in delimiters (`Whole.enclosed`). Between two delimiters a
whole text makes the one the counterpart of the other (`matchingClose?_enclosed`).

Where `matchingClose?` and `blockOpen?` answer, the delimiters stand in the text (`exists_block`,
`exists_brace`). Behind a prefix the blocks of a text are where they are without it
(`matchingClose?_add`, `blockOpen?_add`).
-/

namespace SuiteScope.Source

open SuiteScope.Text

/-- `balance` on marked text. -/
def closeIn (opening close : Char) : (depth pos : Nat) → List (Char × Bool) → Option Nat
  | _, _, [] => none
  | depth, pos, (c, mark) :: s =>
    if mark then closeIn opening close depth (pos + c.utf8Size) s
    else if c = opening then closeIn opening close (depth + 1) (pos + c.utf8Size) s
    else if c = close then
      if depth = 1 then some pos else closeIn opening close (depth - 1) (pos + c.utf8Size) s
    else closeIn opening close depth (pos + c.utf8Size) s

/-- How many blocks are open behind a text of code, unless it closes one more than are open. -/
def depthAfter (opening close : Char) : (depth : Nat) → List Char → Option Nat
  | depth, [] => some depth
  | depth, c :: s =>
    if c = opening then depthAfter opening close (depth + 1) s
    else if c = close then if depth = 0 then none else depthAfter opening close (depth - 1) s
    else depthAfter opening close depth s

/-- The delimiters with their counterparts. -/
def delimiters : List (Char × Char) :=
  [('(', ')'), ('[', ']'), ('\x7b', '\x7d')]

/-- A settled text that closes every block it opens, and none before it. -/
structure Whole (x : List Char) : Prop where
  settled : Settled x
  closed : ∀ d ∈ delimiters, depthAfter d.1 d.2 0 (codeOf x) = some 0

@[simp]
theorem utf8Size_parenthesis : '('.utf8Size = 1 :=
  rfl

@[simp]
theorem utf8Size_brace : '{'.utf8Size = 1 :=
  rfl

section

variable {opening close : Char}

/-- Balancing is counting in marked text. -/
theorem balance_eq_closeIn (m : Mode) (depth pos : Nat) (s : List Char) :
    balance opening close m depth pos s = closeIn opening close depth pos (markedFrom m s) := by
  induction s generalizing m depth pos with
  | nil => rfl
  | cons c s ih => simp only [balance, markedFrom_cons, closeIn, ih]

/-- The depth is found part by part. -/
theorem depthAfter_append (depth : Nat) (x y : List Char) :
    depthAfter opening close depth (x ++ y) =
      (depthAfter opening close depth x).bind (depthAfter opening close · y) := by
  fun_induction depthAfter opening close depth x <;> simp_all [depthAfter]

theorem depthAfter_add {depth left : Nat} {x : List Char}
    (h : depthAfter opening close depth x = some left) (k : Nat) :
    depthAfter opening close (depth + k) x = some (left + k) := by
  induction x generalizing depth with
  | nil => simpa [depthAfter] using h
  | cons c x ih =>
    rw [depthAfter] at h ⊢
    split at h
    next ho => rw [if_pos ho, Nat.add_right_comm, ih h]
    next ho =>
      rw [if_neg ho]
      split at h
      next hc =>
        split at h
        next h0 => simp at h
        next h0 => rw [if_pos hc, if_neg (by omega), Nat.sub_add_comm (by omega), ih h]
      next hc => rw [if_neg hc, ih h]

/-- Marked text that opens no block for good and closes none before it. -/
theorem closeIn_append {depth left : Nat} {l : List (Char × Bool)}
    (h : depthAfter opening close depth (unskipped l) = some left) (pos : Nat)
    (t : List (Char × Bool)) :
    closeIn opening close (depth + 1) pos (l ++ t) =
      closeIn opening close (left + 1) (pos + byteSize (l.map (·.1))) t := by
  induction l generalizing depth pos with
  | nil =>
    obtain rfl : depth = left := by simpa [unskipped, depthAfter] using h
    rfl
  | cons x l ih =>
    obtain ⟨c, mark⟩ := x
    rw [List.cons_append, closeIn, List.map_cons, byteSize_cons, ← Nat.add_assoc]
    cases mark with
    | true => exact ih h _
    | false =>
      have hl : unskipped ((c, false) :: l) = c :: unskipped l := rfl
      rw [hl, depthAfter] at h
      rw [if_neg (by decide)]
      split at h
      next ho => rw [if_pos ho, ih h]
      next ho =>
        rw [if_neg ho]
        split at h
        next hc =>
          split at h
          next h0 => simp at h
          next h0 =>
            obtain ⟨depth, rfl⟩ := Nat.exists_eq_succ_of_ne_zero h0
            rw [if_pos hc, if_neg (by omega), Nat.add_sub_cancel, ← ih h]
            rfl
        next hc => rw [if_neg hc, ih h]

/-- A text without the two delimiters leaves all blocks as they are. -/
theorem depthAfter_eq_self {x : List Char} (ho : opening ∉ x) (hc : close ∉ x) (depth : Nat) :
    depthAfter opening close depth x = some depth := by
  induction x with
  | nil => rfl
  | cons c x ih =>
    rw [List.mem_cons, not_or] at ho hc
    rw [depthAfter, if_neg (Ne.symm ho.1), if_neg (Ne.symm hc.1), ih ho.2 hc.2]

end

/-! ## Whole texts -/

theorem whole_nil : Whole [] :=
  ⟨settled_nil, fun _ _ => rfl⟩

/-- Texts that may be passed over may be passed over one after another. -/
theorem Whole.append {x y : List Char} (hx : Whole x) (hy : Whole y) : Whole (x ++ y) := by
  refine ⟨hx.settled.append hy.settled, fun d hd => ?_⟩
  rw [codeOf_append hx.settled, depthAfter_append, hx.closed d hd]
  exact hy.closed d hd

theorem whole_plain {x : List Char} (hx : x.all isPlain = true)
    (h : ∀ d ∈ delimiters, depthAfter d.1 d.2 0 x = some 0) : Whole x :=
  ⟨settled_of_plain hx, by rwa [codeOf_plain hx]⟩

/-- A literal may be passed over, whatever delimiters are in it. -/
theorem whole_literal {q : Quote} {x : List Char} (h : q.fits x = true) : Whole (literal q x) :=
  ⟨settled_literal h, fun d _ => by rw [codeOf_literal h]; rfl⟩

/-- So may a comment. -/
theorem whole_comment {x : List Char} (h : '\n' ∉ x) : Whole ('/' :: '/' :: (x ++ ['\n'])) :=
  ⟨settled_comment h, by rw [codeOf_comment h]; decide⟩

theorem plain_delimiters :
    ∀ d ∈ delimiters, [d.1].all isPlain = true ∧ [d.2].all isPlain = true := by
  decide

/-- A whole text stays whole between a delimiter and its counterpart. -/
theorem Whole.enclosed {d : Char × Char} (hd : d ∈ delimiters) {x : List Char} (hx : Whole x) :
    Whole (d.1 :: (x ++ [d.2])) := by
  obtain ⟨ho, hc⟩ := plain_delimiters d hd
  have hopen := settled_of_plain ho
  refine ⟨hopen.append (hx.settled.append (settled_of_plain hc)), fun e he => ?_⟩
  have hpair : ∀ d ∈ delimiters, ∀ e ∈ delimiters, ∃ depth ∈ [0, 1],
      depthAfter e.1 e.2 0 [d.1] = some depth ∧ depthAfter e.1 e.2 depth [d.2] = some 0 := by
    decide
  obtain ⟨depth, -, hbefore, hafter⟩ := hpair d hd e he
  have hinner := depthAfter_add (hx.closed e he) depth
  rw [Nat.zero_add] at hinner
  rw [← List.singleton_append, codeOf_append hopen, codeOf_append hx.settled, codeOf_plain ho,
    codeOf_plain hc, depthAfter_append, hbefore, Option.bind_some, depthAfter_append, hinner]
  exact hafter

/-- A delimiter opens something if it is the first of a pair. -/
theorem closing?_eq_some_iff {opening close : Char} :
    closing? opening = some close ↔ (opening, close) ∈ delimiters := by
  have hall : ∀ d ∈ delimiters, closing? d.1 = some d.2 := by decide
  constructor
  · intro h
    unfold closing? at h
    split at h <;> cases h <;> decide
  · exact hall (opening, close)

/-- The delimiter itself takes the counter to one. -/
theorem matchingClose?_eq_closeIn {opening close : Char} (hd : (opening, close) ∈ delimiters)
    (a s : List Char) :
    matchingClose? (a ++ opening :: s) (byteSize a) =
      closeIn opening close 1 (byteSize a + opening.utf8Size) (marked s) := by
  have hopen := marked_plain (plain_delimiters _ hd).1 s
  simp only [List.singleton_append, List.map_cons, List.map_nil] at hopen
  rw [matchingClose?, suffix?_byteSize]
  simp only [closing?_eq_some_iff.mpr hd, Option.bind_some]
  rw [balance_eq_closeIn, ← marked_eq, hopen, closeIn, if_neg (by decide), if_pos rfl]

/-- Behind a delimiter a whole text is passed over. -/
theorem matchingClose?_whole {opening close : Char} (hd : (opening, close) ∈ delimiters)
    {x : List Char} (hx : Whole x) (a s : List Char) :
    matchingClose? (a ++ opening :: (x ++ s)) (byteSize a) =
      closeIn opening close 1 (byteSize (a ++ opening :: x)) (marked s) := by
  rw [matchingClose?_eq_closeIn hd, hx.settled, closeIn_append (hx.closed _ hd)]
  simp [Nat.add_assoc]

/-- A delimiter in front of a whole text has its counterpart behind it. -/
theorem matchingClose?_enclosed {d : Char × Char} (hd : d ∈ delimiters) {x : List Char}
    (hx : Whole x) (a s : List Char) :
    matchingClose? (a ++ d.1 :: (x ++ d.2 :: s)) (byteSize a) =
      some (byteSize (a ++ d.1 :: x)) := by
  have hne : d.2 ≠ d.1 := by
    have hall : ∀ d ∈ delimiters, d.2 ≠ d.1 := by decide
    exact hall d hd
  have hend := marked_plain (plain_delimiters d hd).2 s
  simp only [List.singleton_append, List.map_cons, List.map_nil] at hend
  rw [matchingClose?_whole hd hx, hend, closeIn, if_neg (by decide), if_neg hne, if_pos rfl,
    if_pos rfl]

/-- The first opening brace of code stands behind plain characters of another kind. -/
theorem firstBrace?_plain {x : List Char} (h : x.all isPlain = true) (hx : '{' ∉ x) (pos : Nat)
    (s : List Char) : firstBrace? .code pos (x ++ '{' :: s) = some (pos + byteSize x) := by
  induction x generalizing pos with
  | nil =>
    have hskip := after_code_of_plain (c := '{') (by decide) s.head?
    simp [firstBrace?, Mode.skips, hskip]
  | cons c x ih =>
    simp only [List.all_cons, Bool.and_eq_true] at h
    have hc : c ≠ '{' := fun hc => hx (by simp [hc])
    rw [List.cons_append, firstBrace?, if_neg (by simp [hc]), after_code_of_plain h.1,
      ih h.2 (fun h => hx (by simp [h])), byteSize_cons, Nat.add_assoc]

theorem blockOpen?_plain {x : List Char} (h : x.all isPlain = true) (hx : '{' ∉ x)
    (a s : List Char) :
    blockOpen? (a ++ (x ++ '{' :: s)) (byteSize a) = some (byteSize (a ++ x)) := by
  simp only [blockOpen?, dropBytes_byteSize, firstBrace?_plain h hx]
  simp

/-! ## Blocks that are found -/

/-- What closes a block is a character of the code. -/
theorem exists_of_closeIn {opening close : Char} {depth pos q : Nat} {l : List (Char × Bool)}
    (h : closeIn opening close depth pos l = some q) :
    ∃ u v, l = u ++ (close, false) :: v ∧ q = pos + byteSize (u.map (·.1)) := by
  induction l generalizing depth pos with
  | nil => cases h
  | cons x l ih =>
    obtain ⟨c, mark⟩ := x
    have hbehind {depth : Nat}
        (h : closeIn opening close depth (pos + c.utf8Size) l = some q) :
        ∃ u v, (c, mark) :: l = u ++ (close, false) :: v ∧
          q = pos + byteSize (u.map (·.1)) := by
      obtain ⟨u, v, rfl, rfl⟩ := ih h
      exact ⟨(c, mark) :: u, v, rfl, by simp [Nat.add_assoc]⟩
    rw [closeIn] at h
    split at h
    · exact hbehind h
    next hmark =>
      split at h
      · exact hbehind h
      · split at h
        next hc =>
          split at h
          · obtain rfl := Option.some.inj h
            exact ⟨[], l, by simp [hc, hmark], rfl⟩
          · exact hbehind h
        · exact hbehind h

/-- A counterpart is a closing delimiter behind the opening one. -/
theorem exists_counterpart {opening close : Char} (hd : (opening, close) ∈ delimiters)
    {a s : List Char} {c : Nat} (h : matchingClose? (a ++ opening :: s) (byteSize a) = some c) :
    ∃ x t, s = x ++ close :: t ∧ c = byteSize (a ++ opening :: x) := by
  rw [matchingClose?_eq_closeIn hd] at h
  obtain ⟨u, v, huv, rfl⟩ := exists_of_closeIn h
  refine ⟨u.map (·.1), v.map (·.1), ?_, by simp [Nat.add_assoc]⟩
  rw [← map_fst_marked s, huv, List.map_append, List.map_cons]

/-- A block is an opening delimiter, what it holds, and the counterpart. -/
theorem exists_block {s : List Char} {i c : Nat} (h : matchingClose? s i = some c) :
    ∃ opening close a x t, (opening, close) ∈ delimiters ∧
      s = a ++ opening :: (x ++ close :: t) ∧ i = byteSize a ∧
      c = byteSize (a ++ opening :: x) := by
  have hopen := h
  unfold matchingClose? at hopen
  split at hopen
  next opening t hsuffix =>
    obtain ⟨close, hclose, -⟩ := Option.bind_eq_some_iff.mp hopen
    have hd := closing?_eq_some_iff.mp hclose
    obtain ⟨a, rfl, rfl⟩ := exists_of_suffix? hsuffix
    obtain ⟨x, t, rfl, rfl⟩ := exists_counterpart hd h
    exact ⟨opening, close, a, x, t, hd, rfl, rfl, rfl⟩
  · cases hopen

theorem exists_of_firstBrace? {m : Mode} {pos q : Nat} {s : List Char}
    (h : firstBrace? m pos s = some q) :
    ∃ x t, s = x ++ '{' :: t ∧ q = pos + byteSize x ∧
      covered (markedFrom m s) (byteSize x) = false := by
  fun_induction firstBrace? m pos s with
  | case1 => cases h
  | case2 m pos c s hc =>
    obtain rfl := Option.some.inj h
    obtain ⟨rfl, hmark⟩ := hc
    exact ⟨[], s, rfl, rfl, by rw [markedFrom_cons, covered, if_pos (by decide), hmark]⟩
  | case3 m pos c s hc ih =>
    obtain ⟨x, t, rfl, rfl, hcode⟩ := ih h
    refine ⟨c :: x, t, rfl, by rw [byteSize_cons, Nat.add_assoc], ?_⟩
    rw [markedFrom_cons, byteSize_cons, covered, if_neg (by omega),
      Nat.add_sub_cancel_left]
    exact hcode

/-- The brace that `blockOpen?` finds is code for a reading that starts where the search does. -/
theorem exists_brace {a s : List Char} {q : Nat} (h : blockOpen? (a ++ s) (byteSize a) = some q) :
    ∃ x t, s = x ++ '{' :: t ∧ q = byteSize (a ++ x) ∧ covered (marked s) (byteSize x) = false := by
  simp only [blockOpen?, dropBytes_byteSize, byteSize_append, Nat.add_sub_cancel] at h
  obtain ⟨x, t, hs, rfl, hcode⟩ := exists_of_firstBrace? h
  exact ⟨x, t, hs, by rw [byteSize_append], by rwa [marked_eq]⟩

/-! ## Behind a prefix -/

/-- Where the count starts does not matter. -/
theorem balance_shift (opening close : Char) (k : Nat) (m : Mode) (depth pos : Nat)
    (s : List Char) :
    balance opening close m depth (k + pos) s =
      (balance opening close m depth pos s).map (k + ·) := by
  induction s generalizing m depth pos with
  | nil => rfl
  | cons c s ih =>
    simp only [balance, Nat.add_assoc, ih]
    split
    · rfl
    · split
      · rfl
      · split
        · split <;> rfl
        · rfl

theorem matchingClose?_add (a s : List Char) (p : Nat) :
    matchingClose? (a ++ s) (byteSize a + p) = (matchingClose? s p).map (byteSize a + ·) := by
  unfold matchingClose?
  rw [suffix?_add]
  split
  · simp only [balance_shift]
    cases closing? _ <;> rfl
  · rfl

theorem firstBrace?_shift (k : Nat) (m : Mode) (pos : Nat) (s : List Char) :
    firstBrace? m (k + pos) s = (firstBrace? m pos s).map (k + ·) := by
  induction s generalizing m pos with
  | nil => rfl
  | cons c s ih =>
    simp only [firstBrace?, Nat.add_assoc, ih]
    split <;> rfl

/-- A block behind some text is a block of what follows it. -/
theorem blockOpen?_add (a s : List Char) (p : Nat) :
    blockOpen? (a ++ s) (byteSize a + p) = (blockOpen? s p).map (byteSize a + ·) := by
  have hle := byteSize_dropBytes_le p s
  simp only [blockOpen?, dropBytes_add, byteSize_append]
  rw [Nat.add_sub_assoc hle, firstBrace?_shift]

end SuiteScope.Source
