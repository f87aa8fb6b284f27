import SuiteScope.Proofs.Source.Cursor

/-!
# The skipped ranges of a source

The skipped ranges of a source are canonical (`Canonical`) : none is empty, each ends before the
next one starts, and they start and end between characters. They are what a cursor over the bytes
finds when it joins the skipped tokens that touch (`joined_tokens`), although a token of its own may
end inside a character.

`inSkipped` searches such ranges by bisection, and answers what looking at each of them would
answer. So a byte of a source is in skipped text if it is no token of code
(`canonical_skippedRanges`).
-/

namespace SuiteScope.Source

open SuiteScope.Text

/-- Ranges from left to right, none of them empty and no two of them touching. -/
structure Separated (spans : List Span) : Prop where
  nonempty : ∀ r ∈ spans, r.start < r.stop
  apart : spans.Pairwise fun a b => a.stop < b.start

/-- A byte offset between two characters, at the start of the text or at its end. -/
def Boundary (s : List Char) (p : Nat) : Prop :=
  ∃ a b, s = a ++ b ∧ p = byteSize a

/-- Separated ranges of a text that cut no character in two. -/
structure Canonical (s : List Char) (spans : List Span) : Prop extends Separated spans where
  within : ∀ r ∈ spans, r.stop ≤ byteSize s
  boundary : ∀ r ∈ spans, Boundary s r.start ∧ Boundary s r.stop

/-- Whether one of the ranges contains a place. -/
def contained (spans : List Span) (p : Nat) : Bool :=
  spans.any fun r => r.start ≤ p && p < r.stop

/-- The ranges of skipped tokens, in order. A token that starts where the last range ends is added
to it. -/
def joined : (last : Option Span) → List Token → List Span
  | last, [] => last.toList
  | last, t :: ts =>
    if t.code then joined last ts
    else
      match last with
      | none => joined (some t.span) ts
      | some r =>
        if r.stop = t.span.start then joined (some ⟨r.start, t.span.stop⟩) ts
        else r :: joined (some t.span) ts

/-- The places of code. -/
def codePlaces (ts : List Token) : List Nat :=
  (ts.filter (·.code)).map (·.span.start)

/-- Tokens that follow each other without gaps from place `pos` on. One of code is one byte. -/
def Tiled : (pos : Nat) → List Token → Prop
  | _, [] => True
  | pos, t :: ts =>
    t.span.start = pos ∧ pos < t.span.stop ∧ (t.code = true → t.span.stop = pos + 1) ∧
      Tiled t.span.stop ts

/-- The maximal runs of marked bytes, where the first byte is at place `pos` and `since` is the
start of the run that reaches up to there. -/
def runs : (since : Option Nat) → (pos : Nat) → List Bool → List Span
  | none, _, [] => []
  | some start, pos, [] => [⟨start, pos⟩]
  | since, pos, true :: ms => runs (some (since.getD pos)) (pos + 1) ms
  | none, pos, false :: ms => runs none (pos + 1) ms
  | some start, pos, false :: ms => ⟨start, pos⟩ :: runs none (pos + 1) ms

/-! ## Canonical stretches -/

/-- Between two stretches there is something that is not skipped. -/
theorem separated_stretches {since : Option Nat} {pos : Nat} {s : List (Char × Bool)}
    (h : ∀ start, since = some start → start < pos) : Separated (stretches since pos s) := by
  fun_induction stretches since pos s with
  | case1 pos => exact ⟨by simp, List.Pairwise.nil⟩
  | case2 start pos => exact ⟨by simpa using h, List.pairwise_singleton _ _⟩
  | case3 since pos c s ih =>
    have hsize := c.utf8Size_pos
    refine ih ?_
    rintro start ⟨⟩
    cases since with
    | none => simpa using hsize
    | some start => exact Nat.lt_add_right _ (h start rfl)
  | case4 pos c s ih => exact ih (by simp)
  | case5 start pos c s ih =>
    obtain ⟨nonempty, apart⟩ := ih (by simp)
    refine ⟨List.forall_mem_cons.mpr ⟨h start rfl, nonempty⟩, apart.cons fun span hspan => ?_⟩
    have hlater := start_of_mem_stretches (by simp) hspan
    have hsize := c.utf8Size_pos
    simp only [Option.getD_none] at hlater ⊢
    omega

theorem boundary_byteSize (a b : List Char) : Boundary (a ++ b) (byteSize a) :=
  ⟨a, b, rfl, rfl⟩

theorem Boundary.le {s : List Char} {p : Nat} (h : Boundary s p) : p ≤ byteSize s := by
  obtain ⟨a, b, rfl, rfl⟩ := h
  rw [byteSize_append]
  exact Nat.le_add_right _ _

/-- Stretches start and end between characters. -/
theorem boundary_stretches {since : Option Nat} {a : List Char} {l : List (Char × Bool)}
    (h : ∀ start, since = some start → Boundary (a ++ l.map (·.1)) start) :
    ∀ r ∈ stretches since (byteSize a) l,
      Boundary (a ++ l.map (·.1)) r.start ∧ Boundary (a ++ l.map (·.1)) r.stop := by
  induction l generalizing since a with
  | nil =>
    intro r hr
    cases since with
    | none => cases hr
    | some start =>
      obtain rfl := List.mem_singleton.mp hr
      exact ⟨h start rfl, boundary_byteSize a _⟩
  | cons x l ih =>
    obtain ⟨c, mark⟩ := x
    have hpos : byteSize a + c.utf8Size = byteSize (a ++ [c]) := by simp
    have htext : a ++ ((c, mark) :: l).map (·.1) = (a ++ [c]) ++ l.map (·.1) := by simp
    have hhere := boundary_byteSize a (((c, mark) :: l).map (·.1))
    rw [htext] at h hhere ⊢
    intro r hr
    cases mark with
    | true =>
      rw [stretches, hpos] at hr
      refine ih ?_ r hr
      rintro start ⟨⟩
      cases since with
      | none => exact hhere
      | some start => exact h start rfl
    | false =>
      cases since with
      | none =>
        rw [stretches, hpos] at hr
        exact ih (by simp) r hr
      | some start =>
        rw [stretches, hpos] at hr
        rcases List.mem_cons.mp hr with rfl | hr
        · exact ⟨h start rfl, hhere⟩
        · exact ih (by simp) r hr

/-- The stretches of a text are canonical. -/
theorem canonical_stretches (s : List Char) : Canonical s (stretches none 0 (marked s)) := by
  have hboundary : ∀ r ∈ stretches none (byteSize []) (marked s),
      Boundary ([] ++ (marked s).map (·.1)) r.start ∧
        Boundary ([] ++ (marked s).map (·.1)) r.stop := boundary_stretches (by simp)
  rw [List.nil_append, map_fst_marked] at hboundary
  exact ⟨separated_stretches (by simp), fun r hr => (hboundary r hr).2.le, hboundary⟩

theorem Separated.inOrder {spans : List Span} (h : Separated spans) : InOrder spans :=
  ⟨fun r hr => Nat.le_of_lt (h.nonempty r hr), h.apart.imp Nat.le_of_lt⟩

/-- Among separated ranges bisection answers what looking at each of them answers. -/
theorem Separated.inSkipped_eq {spans : List Span} (h : Separated spans) (p : Nat) :
    inSkipped spans.toArray p = contained spans p := by
  rw [Bool.eq_iff_iff, inSkipped_toArray h.inOrder, contained, List.any_eq_true]
  simp

/-! ## Tokens in a row -/

theorem more_of_code {quote : Option Quote} {b : Char} {rest : List Char}
    (h : (step quote b rest).code = true) : (step quote b rest).more = 0 := by
  unfold step at h ⊢
  cases quote with
  | some q =>
    dsimp only at h
    split at h <;> cases h
  | none =>
    dsimp only at h ⊢
    cases hquote : Quote.ofChar? b with
    | some q => rfl
    | none =>
      rw [hquote] at h
      dsimp only at h ⊢
      split
      next hb =>
        rw [if_pos hb] at h
        split at h
        · cases h
        · cases h
        · rfl
      · rfl

/-- Tokens cover the bytes without gaps, by induction over them. -/
theorem tiled_tokens (quote : Option Quote) (pos : Nat) (bytes : List Char) :
    Tiled pos (tokens quote pos bytes) := by
  fun_induction tokens quote pos bytes with
  | case1 quote pos => trivial
  | case2 quote pos b rest taken stop ih =>
    refine ⟨rfl, by dsimp only; omega, fun hcode => ?_, ih⟩
    have hmore : taken.more = 0 := more_of_code hcode
    simp [stop, hmore]

theorem tiled_tokensOf (s : List Char) : Tiled 0 (tokensOf s) :=
  tiled_tokens none 0 (bytesOf s)

theorem tokenMarks_cons (t : Token) (ts : List Token) :
    tokenMarks (t :: ts) =
      List.replicate (t.span.stop - t.span.start) (!t.code) ++ tokenMarks ts :=
  rfl

/-- The places of code are those of the bytes without a mark. -/
theorem mem_codePlaces {pos : Nat} {ts : List Token} (h : Tiled pos ts) {p : Nat} :
    p ∈ codePlaces ts ↔ ∃ k, p = pos + k ∧ (tokenMarks ts)[k]? = some false := by
  induction ts generalizing pos with
  | nil => simp [codePlaces, tokenMarks]
  | cons t ts ih =>
    obtain ⟨rfl, hlt, hone, htiled⟩ := h
    rw [tokenMarks_cons]
    cases hcode : t.code with
    | true =>
      have hplaces : codePlaces (t :: ts) = t.span.start :: codePlaces ts := by
        simp [codePlaces, hcode]
      have hstop := hone hcode
      rw [hplaces, List.mem_cons, ih htiled, hstop, Nat.add_sub_cancel_left]
      constructor
      · rintro (rfl | ⟨k, rfl, hk⟩)
        · exact ⟨0, rfl, rfl⟩
        · exact ⟨k + 1, by omega, hk⟩
      · rintro ⟨k, rfl, hk⟩
        cases k with
        | zero => exact .inl rfl
        | succ k => exact .inr ⟨k, by omega, hk⟩
    | false =>
      have hplaces : codePlaces (t :: ts) = codePlaces ts := by simp [codePlaces, hcode]
      rw [hplaces, ih htiled]
      constructor
      · rintro ⟨k, rfl, hk⟩
        refine ⟨t.span.stop - t.span.start + k, by omega, ?_⟩
        rw [List.getElem?_append_right (by simp), List.length_replicate, Nat.add_sub_cancel_left]
        exact hk
      · rintro ⟨k, rfl, hk⟩
        rcases Nat.lt_or_ge k (t.span.stop - t.span.start) with hin | hout
        · rw [List.getElem?_append_left (by simpa using hin)] at hk
          simp [hin] at hk
        · rw [List.getElem?_append_right (by simpa using hout), List.length_replicate] at hk
          exact ⟨k - (t.span.stop - t.span.start), by omega, hk⟩

/-! ## Runs of bytes -/

theorem runs_true {n : Nat} (hn : 0 < n) (since : Option Nat) (pos : Nat) (ms : List Bool) :
    runs since pos (List.replicate n true ++ ms) = runs (some (since.getD pos)) (pos + n) ms := by
  induction n generalizing since pos with
  | zero => omega
  | succ n ih =>
    rw [List.replicate_succ, List.cons_append, runs]
    rcases Nat.eq_zero_or_pos n with rfl | hpos
    · rfl
    · rw [ih hpos, Option.getD_some, Nat.add_assoc, Nat.add_comm 1]

theorem runs_none_false (n pos : Nat) (ms : List Bool) :
    runs none pos (List.replicate n false ++ ms) = runs none (pos + n) ms := by
  induction n generalizing pos with
  | zero => rfl
  | succ n ih =>
    rw [List.replicate_succ, List.cons_append, runs, ih, Nat.add_assoc, Nat.add_comm 1]

theorem runs_some_false {n : Nat} (hn : 0 < n) (start pos : Nat) (ms : List Bool) :
    runs (some start) pos (List.replicate n false ++ ms) =
      ⟨start, pos⟩ :: runs none (pos + n) ms := by
  obtain ⟨n, rfl⟩ := Nat.exists_eq_succ_of_ne_zero (Nat.ne_of_gt hn)
  rw [List.replicate_succ, List.cons_append, runs, runs_none_false, Nat.add_assoc, Nat.add_comm 1]

theorem byteMarks_cons (c : Char) (mark : Bool) (l : List (Char × Bool)) :
    byteMarks ((c, mark) :: l) = List.replicate c.utf8Size mark ++ byteMarks l :=
  rfl

/-- Stretches of characters are runs of their bytes. -/
theorem runs_byteMarks (since : Option Nat) (pos : Nat) (l : List (Char × Bool)) :
    runs since pos (byteMarks l) = stretches since pos l := by
  fun_induction stretches since pos l with
  | case1 pos => rfl
  | case2 start pos => rfl
  | case3 since pos c l ih => rw [byteMarks_cons, runs_true c.utf8Size_pos, ih]
  | case4 pos c l ih => rw [byteMarks_cons, runs_none_false, ih]
  | case5 start pos c l ih => rw [byteMarks_cons, runs_some_false c.utf8Size_pos, ih]

/-- Skipped tokens are joined to runs. A range that ends before the next token is a run of its own,
one that ends at it may grow. -/
theorem joined_eq_runs {pos : Nat} {ts : List Token} (h : Tiled pos ts) :
    joined none ts = runs none pos (tokenMarks ts) ∧
      (∀ start, joined (some ⟨start, pos⟩) ts = runs (some start) pos (tokenMarks ts)) ∧
      ∀ r, r.stop < pos → joined (some r) ts = r :: runs none pos (tokenMarks ts) := by
  induction ts generalizing pos with
  | nil => exact ⟨rfl, fun start => rfl, fun r hr => rfl⟩
  | cons t ts ih =>
    obtain ⟨⟨start, stop⟩, code⟩ := t
    obtain ⟨rfl, hlt, -, htiled⟩ := h
    dsimp only at hlt htiled
    obtain ⟨hnone, htouch, hapart⟩ := ih htiled
    have hpos : 0 < stop - start := by omega
    have hstop : start + (stop - start) = stop := by omega
    rw [tokenMarks_cons]
    cases code with
    | true =>
      refine ⟨?_, fun since => ?_, fun r hr => ?_⟩
      · rw [joined, if_pos rfl, hnone, Bool.not_true, runs_none_false, hstop]
      · rw [joined, if_pos rfl, hapart _ hlt, Bool.not_true, runs_some_false hpos, hstop]
      · rw [joined, if_pos rfl, hapart r (Nat.lt_trans hr hlt), Bool.not_true, runs_none_false,
          hstop]
    | false =>
      refine ⟨?_, fun since => ?_, fun r hr => ?_⟩
      · rw [Bool.not_false, runs_true hpos, hstop]
        exact htouch start
      · rw [Bool.not_false, runs_true hpos, hstop]
        exact (if_pos rfl).trans (htouch since)
      · rw [Bool.not_false, runs_true hpos, hstop]
        exact (if_neg (Nat.ne_of_lt hr)).trans (congrArg (r :: ·) (htouch start))

/-- The skipped ranges of a source are its skipped tokens, joined. -/
theorem joined_tokens (s : List Char) :
    joined none (tokensOf s) = stretches none 0 (marked s) := by
  rw [(joined_eq_runs (tiled_tokensOf s)).1, tokenMarks_bytes, runs_byteMarks]

/-! ## Skipped bytes -/

/-- The marks of bytes tell which places are skipped. -/
theorem getElem?_byteMarks {l : List (Char × Bool)} {p : Nat}
    (h : p < byteSize (l.map (·.1))) : (byteMarks l)[p]? = some (covered l p) := by
  induction l generalizing p with
  | nil => simp at h
  | cons x l ih =>
    obtain ⟨c, mark⟩ := x
    rw [byteMarks_cons, covered]
    have hsize : byteSize (((c, mark) :: l).map (·.1)) =
        c.utf8Size + byteSize (l.map (·.1)) := rfl
    split
    next hin => rw [List.getElem?_append_left (by simpa using hin)]; simp [hin]
    next hout =>
      rw [List.getElem?_append_right (by simpa using Nat.le_of_not_lt hout),
        List.length_replicate, ih (by omega)]

/-- Nothing is skipped beyond the end. -/
theorem covered_of_le {l : List (Char × Bool)} {p : Nat} (h : byteSize (l.map (·.1)) ≤ p) :
    covered l p = false := by
  obtain ⟨k, rfl⟩ := Nat.exists_eq_add_of_le h
  have hend := covered_append l [] k
  rw [List.append_nil] at hend
  exact hend

/-- The skipped ranges of a source are canonical, and they are its skipped tokens, joined. A byte
lies in them if the source has it and no token of code is there. Among any separated ranges the
search for a place answers whether one of them contains it. -/
theorem canonical_skippedRanges (s : List Char) :
    Canonical s (skippedRanges s).toList ∧
      joined none (tokensOf s) = (skippedRanges s).toList ∧
      (∀ p, inSkipped (skippedRanges s) p = true ↔
        p < byteSize s ∧ p ∉ codePlaces (tokensOf s)) ∧
      ∀ spans, Separated spans → ∀ p, inSkipped spans.toArray p = contained spans p := by
  refine ⟨canonical_stretches s, joined_tokens s, fun p => ?_, fun spans h => h.inSkipped_eq⟩
  rw [inSkipped_skippedRanges, mem_codePlaces (tiled_tokensOf s), tokenMarks_bytes]
  simp only [Nat.zero_add]
  have hsize : byteSize ((marked s).map (·.1)) = byteSize s := by rw [map_fst_marked]
  rcases Nat.lt_or_ge p (byteSize s) with hlt | hge
  · have hmark := getElem?_byteMarks (hsize ▸ hlt)
    simp [hlt, hmark]
  · simp [covered_of_le (hsize ▸ hge), Nat.not_lt_of_le hge]

/-- A line comment, a string and a block comment, with places between, inside and behind them. -/
theorem inSkipped_of_three_ranges :
    let s := "a // b\nc 'd' /* e */ f".toList
    let spans : List Span := [⟨2, 6⟩, ⟨9, 12⟩, ⟨13, 20⟩]
    skippedRanges s = spans.toArray ∧ Separated spans ∧ inSkipped spans.toArray 12 = false ∧
      inSkipped spans.toArray 19 = true ∧ inSkipped spans.toArray 21 = false := by
  intro s spans
  have hranges : skippedRanges s = spans.toArray := by decide +kernel
  have hspans : Separated spans := ⟨by decide, by decide⟩
  have hsearch := (canonical_skippedRanges s).2.2.2 spans hspans
  refine ⟨hranges, hspans, ?_, ?_, ?_⟩
  all_goals
    rw [hsearch]
    decide

end SuiteScope.Source
