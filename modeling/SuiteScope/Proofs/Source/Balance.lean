import Mathlib.Data.Nat.Count
import SuiteScope.Proofs.Source.Ranges

/-!
# Matching delimiters by counting

`matchingClose?` goes through a source with a counter. `occurrences` only counts how often a
delimiter stands in code between two places. A block ends at the least place up to which its two
delimiters occur equally often. Before that place the opening one is ahead, so the counter has
something to count down from, and blocks of one kind are nested or apart (`matchingClose?_counts`).

The counts are taken over the bytes that a cursor finds to be code when it starts at the opening
delimiter. They are those of the characters without a mark (`codeByte_iff`). The counter is followed
character by character : `Closes` tells where it comes back to zero, `StaysOpen` that it never does.
-/

namespace SuiteScope.Source

open SuiteScope.Text

/-- The tokens of a source for a cursor that starts at place `i`. -/
def tokensFrom (s : List Char) (i : Nat) : List Token :=
  tokens none i ((bytesOf s).drop i)

/-- The byte `b` stands at place `p`, which is code for a cursor that starts at place `i`. -/
def CodeByte (s : List Char) (i : Nat) (b : Char) (p : Nat) : Prop :=
  p ∈ codePlaces (tokensFrom s i) ∧ (bytesOf s)[p]? = some b

instance (s : List Char) (i : Nat) (b : Char) : DecidablePred (CodeByte s i b) :=
  fun _ => inferInstanceAs (Decidable (_ ∧ _))

/-- How often the byte `b` stands in code from place `i` up to place `p`, both included, for a
cursor that starts at place `i`. -/
def occurrences (s : List Char) (i : Nat) (b : Char) (p : Nat) : Nat :=
  Nat.count (CodeByte s i b) (p + 1)

/-- The character without a mark that starts at byte offset `k`. -/
def codeAt? : List (Char × Bool) → (k : Nat) → Option Char
  | [], _ => none
  | (c, mark) :: l, k =>
    if k = 0 then if mark then none else some c
    else if k < c.utf8Size then none else codeAt? l (k - c.utf8Size)

/-- How many characters `b` without a mark start before byte offset `n`. -/
def tally (b : Char) (l : List (Char × Bool)) (n : Nat) : Nat :=
  Nat.count (fun k => codeAt? l k = some b) n

/-- A counter that starts at `depth` comes to zero at byte offset `n`, and not before. -/
structure Closes (opening close : Char) (depth : Nat) (l : List (Char × Bool)) (n : Nat) : Prop where
  here : codeAt? l n = some close
  even : depth + tally opening l (n + 1) = tally close l (n + 1)
  ahead : ∀ k, 0 < k → k ≤ n → tally close l k < depth + tally opening l k

/-- A counter that starts at `depth` never comes to zero. -/
def StaysOpen (opening close : Char) (depth : Nat) (l : List (Char × Bool)) : Prop :=
  ∀ k, 0 < k → tally close l k < depth + tally opening l k

/-! ## Code by bytes and by characters -/

/-- Behind marked text the code is that of what follows. -/
theorem codeAt?_append (l t : List (Char × Bool)) (k : Nat) :
    codeAt? (l ++ t) (byteSize (l.map (·.1)) + k) = codeAt? t k := by
  induction l with
  | nil => simp
  | cons x l ih =>
    have hsize := x.1.utf8Size_pos
    rw [List.cons_append, List.map_cons, byteSize_cons, codeAt?, if_neg (by omega),
      if_neg (by omega), Nat.add_assoc, Nat.add_sub_cancel_left, ih]

/-- A byte of the code is a character that is not skipped. -/
theorem exists_of_codeAt? {l : List (Char × Bool)} {k : Nat} {b : Char}
    (h : codeAt? l k = some b) :
    ∃ u v, l = u ++ (b, false) :: v ∧ byteSize (u.map (·.1)) = k := by
  induction l generalizing k with
  | nil => cases h
  | cons x l ih =>
    obtain ⟨c, mark⟩ := x
    rw [codeAt?] at h
    split at h
    next hk =>
      cases mark with
      | true => cases h
      | false =>
        obtain rfl := Option.some.inj h
        exact ⟨[], l, rfl, hk.symm⟩
    · split at h
      · cases h
      · obtain ⟨u, v, rfl, hu⟩ := ih h
        refine ⟨(c, mark) :: u, v, rfl, ?_⟩
        rw [List.map_cons, byteSize_cons, hu]
        exact Nat.add_sub_cancel' (Nat.le_of_not_lt ‹_›)

/-- An ASCII byte stands at a place of code if the character does. -/
theorem codeAt?_eq_some_iff {b : Char} (hb : b.toNat ≤ 127) {l : List (Char × Bool)} {k : Nat} :
    codeAt? l k = some b ↔
      (bytesOf (l.map (·.1)))[k]? = some b ∧ (byteMarks l)[k]? = some false := by
  induction l generalizing k with
  | nil => exact ⟨nofun, fun h => nomatch h.2⟩
  | cons x l ih =>
    obtain ⟨c, mark⟩ := x
    have hlength := length_spread c
    rw [List.map_cons, bytesOf_cons, byteMarks_cons, codeAt?]
    dsimp only
    rcases Nat.lt_or_ge k c.utf8Size with hlt | hge
    · rw [List.getElem?_append_left (by omega), List.getElem?_append_left (by simpa using hlt),
        List.getElem?_replicate_of_lt hlt]
      rcases Nat.lt_or_ge 127 c.toNat with hc | hc
      · -- no byte of a longer character is one of ASCII
        have hne : c ≠ b := by rintro rfl; omega
        have hbyte : (spread (String.utf8EncodeChar c))[k]? ≠ some b := fun h => by
          have := lt_of_mem_spread hc (List.mem_of_getElem? h)
          omega
        cases mark <;> simp [hbyte, hlt, hne]
      · have hsize : c.utf8Size = 1 := by rw [← hlength, spread_of_ascii hc]; rfl
        obtain rfl : k = 0 := by omega
        rw [spread_of_ascii hc]
        cases mark <;> simp
    · have hpos := c.utf8Size_pos
      rw [if_neg (by omega), if_neg (by omega), ih, List.getElem?_append_right (by omega),
        List.getElem?_append_right (by simpa using hge), hlength, List.length_replicate]

theorem bytesOf_append (a s : List Char) : bytesOf (a ++ s) = bytesOf a ++ bytesOf s := by
  simp [bytesOf, utf8Bytes, spread]

theorem length_bytesOf (s : List Char) : (bytesOf s).length = byteSize s := by
  induction s with
  | nil => rfl
  | cons c s ih => rw [bytesOf_cons, List.length_append, length_spread, ih, byteSize_cons]

theorem drop_bytesOf (a s : List Char) : (bytesOf (a ++ s)).drop (byteSize a) = bytesOf s := by
  rw [bytesOf_append, ← length_bytesOf, List.drop_left]

theorem le_of_codeByte {s : List Char} {i p : Nat} {b : Char} (h : CodeByte s i b p) : i ≤ p := by
  obtain ⟨k, rfl, -⟩ := (mem_codePlaces (tiled_tokens none i _)).mp h.1
  exact Nat.le_add_right i k

/-- A cursor that starts between two characters finds what it finds in the rest of the source. -/
theorem codeByte_iff {b : Char} (hb : b.toNat ≤ 127) (a s : List Char) (k : Nat) :
    CodeByte (a ++ s) (byteSize a) b (byteSize a + k) ↔ codeAt? (marked s) k = some b := by
  have hbyte : (bytesOf (a ++ s))[byteSize a + k]? = (bytesOf s)[k]? := by
    rw [bytesOf_append, ← length_bytesOf, List.getElem?_append_right (Nat.le_add_right _ _),
      Nat.add_sub_cancel_left]
  have hmarks : tokenMarks (tokensFrom (a ++ s) (byteSize a)) = byteMarks (marked s) := by
    rw [tokensFrom, drop_bytesOf, tokenMarks_tokens, marked_eq]
    exact marks_bytes nofun
  rw [codeAt?_eq_some_iff hb, map_fst_marked, CodeByte, hbyte, tokensFrom,
    mem_codePlaces (tiled_tokens none _ _), ← tokensFrom, hmarks, and_comm]
  simp

/-- Occurrences in the code are counted by the marks of its characters. -/
theorem occurrences_eq_tally {b : Char} (hb : b.toNat ≤ 127) (a s : List Char) (n : Nat) :
    occurrences (a ++ s) (byteSize a) b (byteSize a + n) = tally b (marked s) (n + 1) := by
  have hbefore : Nat.count (CodeByte (a ++ s) (byteSize a) b) (byteSize a) = 0 :=
    Nat.count_iff_forall_not.mpr fun p hlt h => Nat.not_lt_of_le (le_of_codeByte h) hlt
  rw [occurrences, Nat.add_assoc, Nat.count_add, hbefore, Nat.zero_add, tally]
  simp only [codeByte_iff hb]

/-! ## Following the counter -/

section

variable {opening close c : Char} {mark : Bool} {l : List (Char × Bool)} {depth depth' : Nat}

theorem tally_zero (b : Char) (l : List (Char × Bool)) : tally b l 0 = 0 :=
  Nat.count_zero _

/-- The first character counts if it has no mark. The others count as they do without it. -/
theorem tally_cons (b : Char) {n : Nat} (hn : 0 < n) :
    tally b ((c, mark) :: l) n =
      (if mark = false ∧ c = b then 1 else 0) + tally b l (n - c.utf8Size) := by
  obtain ⟨n, rfl⟩ := Nat.exists_eq_succ_of_ne_zero (Nat.ne_of_gt hn)
  have hfirst : codeAt? ((c, mark) :: l) 0 = some b ↔ mark = false ∧ c = b := by
    cases mark <;> simp [codeAt?]
  have hinside : ∀ k < c.utf8Size - 1, ¬codeAt? ((c, mark) :: l) (k + 1) = some b := by
    intro k hk h
    rw [codeAt?, if_neg (by omega), if_pos (by omega)] at h
    cases h
  have hbehind : Nat.count (fun k => codeAt? ((c, mark) :: l) (k + 1) = some b) n =
      tally b l (n + 1 - c.utf8Size) := by
    have hpos := c.utf8Size_pos
    rcases Nat.le_total n (c.utf8Size - 1) with hle | hge
    · have hzero : n + 1 - c.utf8Size = 0 := by omega
      rw [hzero, tally_zero]
      exact Nat.count_iff_forall_not.mpr fun k hk => hinside k (Nat.lt_of_lt_of_le hk hle)
    · obtain ⟨m, rfl⟩ := Nat.exists_eq_add_of_le hge
      have hplace (k : Nat) : codeAt? ((c, mark) :: l) (c.utf8Size - 1 + k + 1) = codeAt? l k := by
        have hk : c.utf8Size - 1 + k + 1 - c.utf8Size = k := by omega
        rw [codeAt?, if_neg (by omega), if_neg (by omega), hk]
      have hrest : c.utf8Size - 1 + m + 1 - c.utf8Size = m := by omega
      rw [Nat.count_add, Nat.count_iff_forall_not.mpr hinside, Nat.zero_add, hrest, tally]
      simp only [hplace]
  rw [tally, Nat.count_succ', hbehind, Nat.add_comm]
  simp only [hfirst]

/-- What the counter does behind a character, it does from there on. -/
theorem Closes.cons {n : Nat} (hpos : 0 < depth')
    (hdepth : depth + (if mark = false ∧ c = opening then 1 else 0) =
      depth' + if mark = false ∧ c = close then 1 else 0)
    (h : Closes opening close depth' l n) :
    Closes opening close depth ((c, mark) :: l) (c.utf8Size + n) := by
  have hsize := c.utf8Size_pos
  refine ⟨?_, ?_, fun k hk hle => ?_⟩
  · rw [codeAt?, if_neg (by omega), if_neg (by omega), Nat.add_sub_cancel_left, h.here]
  · have heven := h.even
    have hrest : c.utf8Size + n + 1 - c.utf8Size = n + 1 := by omega
    rw [tally_cons opening (by omega), tally_cons close (by omega), hrest]
    omega
  · rw [tally_cons opening hk, tally_cons close hk]
    rcases Nat.eq_zero_or_pos (k - c.utf8Size) with hzero | hrest
    · rw [hzero, tally_zero, tally_zero]
      omega
    · have hahead := h.ahead (k - c.utf8Size) hrest (by omega)
      omega

/-- A block stays open if it does behind its first character. -/
theorem StaysOpen.cons (hpos : 0 < depth')
    (hdepth : depth + (if mark = false ∧ c = opening then 1 else 0) =
      depth' + if mark = false ∧ c = close then 1 else 0)
    (h : StaysOpen opening close depth' l) : StaysOpen opening close depth ((c, mark) :: l) := by
  intro k hk
  rw [tally_cons opening hk, tally_cons close hk]
  rcases Nat.eq_zero_or_pos (k - c.utf8Size) with hzero | hrest
  · rw [hzero, tally_zero, tally_zero]
    omega
  · have hahead := h (k - c.utf8Size) hrest
    omega

/-- The closing delimiter brings a counter at one to zero. -/
theorem closes_here (hne : opening ≠ close) : Closes opening close 1 ((close, false) :: l) 0 := by
  have hpos := close.utf8Size_pos
  have hrest : 0 + 1 - close.utf8Size = 0 := by omega
  refine ⟨rfl, ?_, fun k hk hle => by omega⟩
  rw [tally_cons opening (by omega), tally_cons close (by omega), hrest, tally_zero, tally_zero]
  simp [hne.symm]

/-- The counter comes to zero where `closeIn` says, or never. -/
theorem closeIn_spec (hne : opening ≠ close) (hpos : 0 < depth) (pos : Nat) :
    match closeIn opening close depth pos l with
    | some q => ∃ n, q = pos + n ∧ Closes opening close depth l n
    | none => StaysOpen opening close depth l := by
  induction l generalizing depth pos with
  | nil => exact fun k _ => Nat.lt_add_right _ (by simpa [tally, codeAt?] using hpos)
  | cons x l ih =>
    obtain ⟨c, mark⟩ := x
    -- the counter goes on at `depth'`
    have hgo {depth' : Nat} (hpos' : 0 < depth')
        (hdepth : depth + (if mark = false ∧ c = opening then 1 else 0) =
          depth' + if mark = false ∧ c = close then 1 else 0) :
        match closeIn opening close depth' (pos + c.utf8Size) l with
        | some q => ∃ n, q = pos + n ∧ Closes opening close depth ((c, mark) :: l) n
        | none => StaysOpen opening close depth ((c, mark) :: l) := by
      have hrest := ih hpos' (pos + c.utf8Size)
      cases hclose : closeIn opening close depth' (pos + c.utf8Size) l with
      | none =>
        rw [hclose] at hrest
        exact hrest.cons hpos' hdepth
      | some q =>
        rw [hclose] at hrest
        obtain ⟨n, rfl, hn⟩ := hrest
        exact ⟨c.utf8Size + n, Nat.add_assoc .., hn.cons hpos' hdepth⟩
    rw [closeIn]
    cases mark with
    | true => exact hgo hpos (by simp)
    | false =>
      rw [if_neg (by decide)]
      by_cases ho : c = opening
      · rw [if_pos ho]
        exact hgo (Nat.succ_pos depth) (by simp [ho, hne])
      · rw [if_neg ho]
        by_cases hc : c = close
        · rw [if_pos hc]
          by_cases hone : depth = 1
          · subst hc hone
            rw [if_pos rfl]
            exact ⟨0, rfl, closes_here hne⟩
          · rw [if_neg hone]
            exact hgo (by omega) (by simp [hc, hne.symm]; omega)
        · rw [if_neg hc]
          exact hgo hpos (by simp [ho, hc])

end

/-! ## Delimiters in a source -/

/-- Delimiters are ASCII, and the two of a pair differ. -/
theorem ascii_of_delimiter {opening close : Char} (hd : (opening, close) ∈ delimiters) :
    opening ≠ close ∧ opening.toNat ≤ 127 ∧ close.toNat ≤ 127 ∧ isPlain opening = true := by
  have hall : ∀ d ∈ delimiters,
      d.1 ≠ d.2 ∧ d.1.toNat ≤ 127 ∧ d.2.toNat ≤ 127 ∧ isPlain d.1 = true := by decide
  exact hall _ hd

/-- Where an ASCII byte stands, a character starts. -/
theorem exists_of_byte {b : Char} (hb : b.toNat ≤ 127) {s : List Char} {i : Nat}
    (h : (bytesOf s)[i]? = some b) : ∃ a t, s = a ++ b :: t ∧ byteSize a = i := by
  have hfst : (s.map (·, false)).map (·.1) = s := by simp [Function.comp_def]
  have hlt : i < byteSize s := length_bytesOf s ▸ (List.getElem?_eq_some_iff.mp h).1
  have hmark : (byteMarks (s.map (·, false)))[i]? = some false := by
    have hcovered := covered_map hlt false []
    rw [List.append_nil] at hcovered
    rw [getElem?_byteMarks (by rwa [hfst]), hcovered]
  obtain ⟨u, v, huv, hu⟩ := exists_of_codeAt? ((codeAt?_eq_some_iff hb).mpr ⟨hfst.symm ▸ h, hmark⟩)
  refine ⟨u.map (·.1), v.map (·.1), ?_, hu⟩
  rw [← hfst, huv, List.map_append, List.map_cons]

theorem getElem?_bytesOf {c : Char} (hc : c.toNat ≤ 127) (a s : List Char) :
    (bytesOf (a ++ c :: s))[byteSize a]? = some c := by
  rw [bytesOf_append, ← length_bytesOf, List.getElem?_append_right (Nat.le_refl _), Nat.sub_self,
    bytesOf_cons, spread_of_ascii hc]
  rfl

/-- Only an opening delimiter has a counterpart. -/
theorem exists_delimiter {s : List Char} {i c : Nat} (h : matchingClose? s i = some c) :
    ∃ opening close, (opening, close) ∈ delimiters ∧ (bytesOf s)[i]? = some opening := by
  obtain ⟨opening, close, a, x, t, hd, rfl, rfl, -⟩ := exists_block h
  exact ⟨opening, close, hd, getElem?_bytesOf (ascii_of_delimiter hd).2.1 a _⟩

section

variable {opening close : Char} (hd : (opening, close) ∈ delimiters)

include hd

/-- The counterpart is where the depth comes back, or the block stays open to the end. -/
theorem matchingClose?_spec (a s : List Char) :
    match matchingClose? (a ++ opening :: s) (byteSize a) with
    | some q => ∃ n, q = byteSize a + n ∧ Closes opening close 0 (marked (opening :: s)) n
    | none => StaysOpen opening close 0 (marked (opening :: s)) := by
  obtain ⟨hne, -, -, hplain⟩ := ascii_of_delimiter hd
  have hmarked : marked (opening :: s) = (opening, false) :: marked s :=
    marked_plain (x := [opening]) (by simpa using hplain) s
  have hdepth : 0 + (if false = false ∧ opening = opening then 1 else 0) =
      1 + if false = false ∧ opening = close then 1 else 0 := by simp [hne]
  have hrest := closeIn_spec (l := marked s) hne Nat.one_pos (byteSize a + opening.utf8Size)
  rw [matchingClose?_eq_closeIn hd, hmarked]
  split at hrest
  next q hq =>
    obtain ⟨n, rfl, hn⟩ := hrest
    exact ⟨opening.utf8Size + n, Nat.add_assoc .., hn.cons Nat.one_pos hdepth⟩
  · exact hrest.cons Nat.one_pos hdepth

/-- Up to a place before the end of the block more is opened than closed. -/
theorem occurrences_lt {s : List Char} {i p : Nat} (hbyte : (bytesOf s)[i]? = some opening)
    (hip : i ≤ p) (hp : ∀ c, matchingClose? s i = some c → p < c) :
    occurrences s i close p < occurrences s i opening p := by
  obtain ⟨-, ho, hc, -⟩ := ascii_of_delimiter hd
  obtain ⟨a, t, rfl, rfl⟩ := exists_of_byte ho hbyte
  obtain ⟨k, rfl⟩ := Nat.exists_eq_add_of_le hip
  have hspec := matchingClose?_spec hd a t
  rw [occurrences_eq_tally ho, occurrences_eq_tally hc, ← Nat.zero_add (tally opening _ _)]
  cases hclose : matchingClose? (a ++ opening :: t) (byteSize a) with
  | none =>
    rw [hclose] at hspec
    exact hspec (k + 1) (Nat.succ_pos k)
  | some q =>
    rw [hclose] at hspec
    obtain ⟨n, rfl, hn⟩ := hspec
    have hlt := hp _ hclose
    exact hn.ahead (k + 1) (Nat.succ_pos k) (by omega)

/-- At the end of the block stands the closing delimiter, and as much is closed as opened. -/
theorem occurrences_eq {s : List Char} {i c : Nat} (hbyte : (bytesOf s)[i]? = some opening)
    (h : matchingClose? s i = some c) :
    CodeByte s i close c ∧ occurrences s i opening c = occurrences s i close c := by
  obtain ⟨-, ho, hc, -⟩ := ascii_of_delimiter hd
  obtain ⟨a, t, rfl, rfl⟩ := exists_of_byte ho hbyte
  have hspec := matchingClose?_spec hd a t
  rw [h] at hspec
  obtain ⟨n, rfl, hn⟩ := hspec
  rw [codeByte_iff hc, occurrences_eq_tally ho, occurrences_eq_tally hc,
    ← Nat.zero_add (tally opening _ _)]
  exact ⟨hn.here, hn.even⟩

theorem lt_of_matchingClose? {s : List Char} {i c : Nat} (hbyte : (bytesOf s)[i]? = some opening)
    (h : matchingClose? s i = some c) : i < c := by
  obtain ⟨hne, -⟩ := ascii_of_delimiter hd
  obtain ⟨⟨hplace, hclose⟩, -⟩ := occurrences_eq hd hbyte h
  refine Nat.lt_of_le_of_ne (le_of_codeByte ⟨hplace, hclose⟩) ?_
  rintro rfl
  rw [hbyte] at hclose
  exact hne (Option.some.inj hclose)

/-- The counterpart is the least place behind which as many delimiters have been closed as opened.
-/
theorem matchingClose?_eq_some_iff {s : List Char} {i : Nat}
    (hbyte : (bytesOf s)[i]? = some opening) (c : Nat) :
    matchingClose? s i = some c ↔
      IsLeast {c | i < c ∧ occurrences s i opening c = occurrences s i close c} c := by
  have hleast {c : Nat} (h : matchingClose? s i = some c) :
      IsLeast {c | i < c ∧ occurrences s i opening c = occurrences s i close c} c := by
    refine ⟨⟨lt_of_matchingClose? hd hbyte h, (occurrences_eq hd hbyte h).2⟩, ?_⟩
    rintro p ⟨hip, heven⟩
    refine Nat.le_of_not_lt fun hlt => ?_
    have hahead := occurrences_lt hd hbyte (Nat.le_of_lt hip) (p := p) (by simpa [h] using hlt)
    omega
  refine ⟨hleast, fun hc => ?_⟩
  cases h : matchingClose? s i with
  | none =>
    have hahead := occurrences_lt hd hbyte (Nat.le_of_lt hc.1.1) (by simp [h])
    have heven := hc.1.2
    omega
  | some q => rw [(hleast h).unique hc]

end

/-! ## Blocks in blocks -/

/-- A cursor that starts at a place of code finds what the cursor before it finds from there on. -/
theorem codeByte_behind {a t : List Char} {d b : Char} {j : Nat} (hdelim : d.toNat ≤ 127)
    (hj : CodeByte (a ++ t) (byteSize a) d j) (hb : b.toNat ≤ 127) (k : Nat) :
    CodeByte (a ++ t) j b (j + k) ↔ CodeByte (a ++ t) (byteSize a) b (j + k) := by
  obtain ⟨m, rfl⟩ := Nat.exists_eq_add_of_le (le_of_codeByte hj)
  rw [codeByte_iff hdelim] at hj
  obtain ⟨u, v, huv, rfl⟩ := exists_of_codeAt? hj
  have ht : t = u.map (·.1) ++ d :: v.map (·.1) := by
    rw [← map_fst_marked t, huv, List.map_append, List.map_cons]
  have hcode : covered (marked (u.map (·.1) ++ d :: v.map (·.1))) (byteSize (u.map (·.1))) =
      false := by
    have hplace := covered_append u ((d, false) :: v) 0
    rw [Nat.add_zero, covered, if_pos d.utf8Size_pos] at hplace
    rw [← ht, huv, hplace]
  obtain ⟨l, hl, hmarks⟩ := marked_append hcode
  have hsplit : a ++ t = (a ++ u.map (·.1)) ++ d :: v.map (·.1) := by rw [ht, List.append_assoc]
  rw [Nat.add_assoc, codeByte_iff hb, ← Nat.add_assoc, ← byteSize_append, hsplit, codeByte_iff hb,
    ht, hmarks, ← hl, codeAt?_append]

/-- What is counted from `i` on has been counted before `j`, or is counted from there on. -/
theorem occurrences_behind {a t : List Char} {d b : Char} {j p : Nat} (hdelim : d.toNat ≤ 127)
    (hj : CodeByte (a ++ t) (byteSize a) d (j + 1)) (hb : b.toNat ≤ 127) (hp : j < p) :
    occurrences (a ++ t) (byteSize a) b p =
      occurrences (a ++ t) (byteSize a) b j + occurrences (a ++ t) (j + 1) b p := by
  obtain ⟨n, rfl⟩ := Nat.exists_eq_add_of_lt hp
  have hbefore : Nat.count (CodeByte (a ++ t) (j + 1) b) (j + 1) = 0 :=
    Nat.count_iff_forall_not.mpr fun p hlt h => Nat.not_lt_of_le (le_of_codeByte h) hlt
  have hplace : j + n + 1 + 1 = (j + 1) + (n + 1) := by omega
  rw [occurrences, occurrences, occurrences, hplace, Nat.count_add _ (j + 1) (n + 1),
    Nat.count_add _ (j + 1) (n + 1), hbefore, Nat.zero_add]
  simp only [codeByte_behind hdelim hj hb]

/-- A block that starts in a block of its kind ends in it. -/
theorem matchingClose?_inside {opening close : Char} (hd : (opening, close) ∈ delimiters)
    {s : List Char} {i j c : Nat} (hbyte : (bytesOf s)[i]? = some opening)
    (h : matchingClose? s i = some c) (hij : i < j) (hjc : j < c)
    (hj : CodeByte s i opening j) : ∃ c', matchingClose? s j = some c' ∧ j < c' ∧ c' < c := by
  obtain ⟨-, ho, hc, -⟩ := ascii_of_delimiter hd
  obtain ⟨-, heven⟩ := occurrences_eq hd hbyte h
  have hahead (p : Nat) (hip : i ≤ p) (hpc : p < c) :=
    occurrences_lt hd hbyte hip (by simpa [h] using hpc)
  obtain ⟨a, t, rfl, rfl⟩ := exists_of_byte ho hbyte
  obtain ⟨j, rfl⟩ : ∃ k, j = k + 1 := ⟨j - 1, by omega⟩
  -- in front of `j` more is opened than closed, so behind it more is closed than opened
  have hbefore := hahead j (by omega) (by omega)
  have hopened := occurrences_behind ho hj ho (p := c) (by omega)
  have hclosed := occurrences_behind ho hj hc (p := c) (by omega)
  cases hinner : matchingClose? (a ++ opening :: t) (j + 1) with
  | none =>
    have hlt := occurrences_lt hd hj.2 (Nat.le_of_lt hjc) (by simp [hinner])
    omega
  | some c' =>
    refine ⟨c', rfl, lt_of_matchingClose? hd hj.2 hinner, ?_⟩
    rcases Nat.lt_trichotomy c' c with hlt | rfl | hgt
    · exact hlt
    · have hinnerEven := (occurrences_eq hd hj.2 hinner).2
      omega
    · have hlt := occurrences_lt hd hj.2 (p := c) (Nat.le_of_lt hjc) (by simpa [hinner] using hgt)
      omega

/-- The block at a place ends where its two delimiters occur equally often for the first time, and
what stands there is the closing one. Before that the opening one is ahead, and where nothing ends
the block it stays ahead. A block that starts in a block of its kind ends in it. -/
theorem matchingClose?_counts (s : List Char) (i : Nat) :
    (∀ c, matchingClose? s i = some c ↔
      ∃ opening close, (opening, close) ∈ delimiters ∧ (bytesOf s)[i]? = some opening ∧
        IsLeast {c | i < c ∧ occurrences s i opening c = occurrences s i close c} c) ∧
    ∀ opening close, (opening, close) ∈ delimiters → (bytesOf s)[i]? = some opening →
      (∀ p, i ≤ p → (∀ c, matchingClose? s i = some c → p < c) →
        occurrences s i close p < occurrences s i opening p) ∧
      ∀ c, matchingClose? s i = some c → CodeByte s i close c ∧
        ∀ j, i < j → j < c → CodeByte s i opening j →
          ∃ c', matchingClose? s j = some c' ∧ j < c' ∧ c' < c := by
  refine ⟨fun c => ⟨fun h => ?_, ?_⟩, fun opening close hd hbyte => ⟨?_, fun c h => ⟨?_, ?_⟩⟩⟩
  · obtain ⟨opening, close, hd, hbyte⟩ := exists_delimiter h
    exact ⟨opening, close, hd, hbyte, (matchingClose?_eq_some_iff hd hbyte c).mp h⟩
  · rintro ⟨opening, close, hd, hbyte, hleast⟩
    exact (matchingClose?_eq_some_iff hd hbyte c).mpr hleast
  · exact fun p hip hp => occurrences_lt hd hbyte hip hp
  · exact (occurrences_eq hd hbyte h).1
  · exact fun j hij hjc hj => matchingClose?_inside hd hbyte h hij hjc hj

/-- A block with a brace in quotes and a block inside. -/
theorem matchingClose?_of_quoted_brace :
    let s := "\x7b '\x7d' \x7b b \x7d \x7d".toList
    ('{', '}') ∈ delimiters ∧ (bytesOf s)[0]? = some '{' ∧
      matchingClose? s 0 = some 12 ∧ CodeByte s 0 '{' 6 ∧ CodeByte s 0 '}' 12 ∧
      occurrences s 0 '}' 11 < occurrences s 0 '{' 11 ∧
      ∃ c, matchingClose? s 6 = some c ∧ 6 < c ∧ c < 12 := by
  intro s
  have hd : ('{', '}') ∈ delimiters := by decide
  have hbyte : (bytesOf s)[0]? = some '{' := by decide +kernel
  have hclose : matchingClose? s 0 = some 12 := by decide +kernel
  have hinner : CodeByte s 0 '{' 6 :=
    (codeByte_iff (by decide) [] s 6).mpr (by decide +kernel)
  obtain ⟨hahead, hblock⟩ := (matchingClose?_counts s 0).2 _ _ hd hbyte
  obtain ⟨hend, hnested⟩ := hblock 12 hclose
  exact ⟨hd, hbyte, hclose, hinner, hend, hahead 11 (by decide) (by simp [hclose]),
    hnested 6 (by decide) (by decide) hinner⟩

end SuiteScope.Source
