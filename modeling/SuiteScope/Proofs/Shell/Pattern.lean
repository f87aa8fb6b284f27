import Mathlib.Data.List.Infix
import Mathlib.Data.List.TakeWhile
import SuiteScope.Shell.Expand

/-!
# What patterns stand for

A pattern matches the texts that can be cut into parts, one for each part of the pattern
(`Matches`). `rests` follows all cuts of a text at once, and a star has to be followed from the
longest rest only, since all other rests are ends of it (`Nested`). So `isMatch` decides `Matches`
(`isMatch_iff`), and what is trimmed is the shortest or the longest match at an end
(`trimStart_spec`, `trimEnd_spec`).

Text that stands in quotes matches itself and nothing else (`matches_quoted_iff`).
-/

namespace SuiteScope.Shell.Pattern

variable {pattern : List Element} {e : Element} {s rest matched : Bytes} {found : List Bytes}

/-! ## Matches -/

/-- Whether a part of a text is one that a part of a pattern stands for. -/
def Element.StandsFor (e : Element) (part : Bytes) : Prop :=
  match e with
  | .star => True
  | e => ∃ c, e.accepts c = true ∧ part = [c]

/-- The text can be cut into parts, one for each part of the pattern. -/
inductive Matches : List Element → Bytes → Prop
  | nil : Matches [] []
  | cons {e : Element} {pattern : List Element} {part s : Bytes} :
    e.StandsFor part → Matches pattern s → Matches (e :: pattern) (part ++ s)

@[simp] theorem matches_nil_iff : Matches [] s ↔ s = [] :=
  ⟨fun h => by cases h; rfl, fun h => h ▸ .nil⟩

theorem matches_cons_iff : Matches (e :: pattern) s ↔
    ∃ part after, e.StandsFor part ∧ Matches pattern after ∧ s = part ++ after := by
  constructor
  · intro h
    cases h with
    | cons hpart hafter => exact ⟨_, _, hpart, hafter, rfl⟩
  · rintro ⟨part, after, hpart, hafter, rfl⟩
    exact .cons hpart hafter

/-- A plain character in a pattern stands for itself. -/
theorem standsFor_char_iff {c : Char} {part : Bytes} :
    (Element.char c).StandsFor part ↔ part = [c] := by
  simp [Element.StandsFor, Element.accepts]

/-- A pattern of plain characters is the text that it matches. -/
theorem matches_chars_iff {text : Bytes} : Matches (text.map .char) s ↔ s = text := by
  induction text generalizing s with
  | nil => exact matches_nil_iff
  | cons c text ih =>
    rw [List.map_cons, matches_cons_iff]
    constructor
    · rintro ⟨part, after, hpart, hafter, rfl⟩
      rw [standsFor_char_iff.mp hpart, ih.mp hafter]
      rfl
    · rintro rfl
      exact ⟨[c], text, standsFor_char_iff.mpr rfl, ih.mpr rfl, rfl⟩

/-! ## Rests -/

/-- Every text is an end of those before it, and a shorter one. -/
def Nested (found : List Bytes) : Prop :=
  found.Pairwise fun a b => b <:+ a ∧ b.length < a.length

/-- The tails of a text are its ends. -/
theorem mem_tails_iff : rest ∈ tails s ↔ rest <:+ s := by
  induction s with
  | nil => simp [tails]
  | cons c s ih => rw [tails, List.mem_cons, ih, List.suffix_cons_iff]

/-- They stand in the order of their lengths. -/
theorem nested_tails (s : Bytes) : Nested (tails s) := by
  induction s with
  | nil => exact List.pairwise_singleton _ _
  | cons c s ih =>
    refine List.Pairwise.cons (fun b hb => ?_) ih
    have hsuffix := mem_tails_iff.mp hb
    exact ⟨hsuffix.trans (List.suffix_cons c s), Nat.lt_succ_of_le hsuffix.length_le⟩

/-- The first of nested texts has all others for its ends. -/
theorem Nested.suffix_head? {start longest : Bytes} (h : Nested found)
    (hhead : found.head? = some longest) (hstart : start ∈ found) : start <:+ longest := by
  obtain ⟨shorter, rfl⟩ := List.head?_eq_some_iff.mp hhead
  rcases List.mem_cons.mp hstart with rfl | hmem
  · exact List.suffix_refl start
  · exact ((List.pairwise_cons.mp h).1 start hmem).1

/-- A part of a pattern that is no star takes one byte off every text that it accepts. -/
theorem advance_of_ne_star (he : e ≠ .star) (found : List Bytes) :
    advance found e = found.filterMap fun
      | c :: s => if e.accepts c then some s else none
      | [] => none := by
  cases e with
  | star => exact absurd rfl he
  | any | char | oneOf => rfl

theorem standsFor_of_ne_star (he : e ≠ .star) {part : Bytes} :
    e.StandsFor part ↔ ∃ c, e.accepts c = true ∧ part = [c] := by
  cases e with
  | star => exact absurd rfl he
  | any | char | oneOf => rfl

/-- What a part of a pattern leaves is nested again. -/
theorem nested_advance (h : Nested found) (e : Element) : Nested (advance found e) := by
  by_cases he : e = .star
  · subst he
    cases hhead : found.head? with
    | none => simp [advance, hhead, Nested]
    | some longest => simpa [advance, hhead] using nested_tails longest
  · rw [advance_of_ne_star he]
    refine List.Pairwise.filterMap _ (fun a b hab s hs t ht => ?_) h
    obtain ⟨hsuffix, hlength⟩ := hab
    match a, b with
    | c :: a, d :: b =>
      obtain ⟨-, rfl⟩ := by simpa using hs
      obtain ⟨-, rfl⟩ := by simpa using ht
      have hshort : b.length < a.length := by simpa using hlength
      refine ⟨?_, hshort⟩
      rcases List.suffix_cons_iff.mp hsuffix with heq | hsuffix
      · rw [(List.cons.inj heq).2] at hshort
        exact absurd hshort (Nat.lt_irrefl _)
      · exact (List.suffix_cons d b).trans hsuffix

/-- What one more part of a pattern leaves of nested texts. -/
theorem mem_advance_iff (h : Nested found) : rest ∈ advance found e ↔
    ∃ start ∈ found, ∃ part, e.StandsFor part ∧ start = part ++ rest := by
  by_cases he : e = .star
  · subst he
    cases hhead : found.head? with
    | none => simp [advance, List.head?_eq_none_iff.mp hhead]
    | some longest =>
      have hmem : longest ∈ found := List.mem_of_head? hhead
      simp only [advance, hhead, Option.map_some, Option.getD_some, mem_tails_iff]
      constructor
      · rintro ⟨part, hpart⟩
        exact ⟨longest, hmem, part, trivial, hpart.symm⟩
      · rintro ⟨start, hstart, part, -, rfl⟩
        exact (List.suffix_append part rest).trans (h.suffix_head? hhead hstart)
  · rw [advance_of_ne_star he, List.mem_filterMap]
    simp only [standsFor_of_ne_star he]
    constructor
    · rintro ⟨start, hstart, hrest⟩
      cases start with
      | nil => cases hrest
      | cons c s =>
        obtain ⟨hc, rfl⟩ := by simpa using hrest
        exact ⟨_, hstart, [c], ⟨c, hc, rfl⟩, rfl⟩
    · rintro ⟨_, hstart, _, ⟨c, hc, rfl⟩, rfl⟩
      exact ⟨_, hstart, by simp [hc]⟩

/-- What a whole pattern leaves of nested texts, by induction over its parts. -/
theorem mem_foldl_advance_iff (h : Nested found) : rest ∈ pattern.foldl advance found ↔
    ∃ start ∈ found, ∃ matched, Matches pattern matched ∧ start = matched ++ rest := by
  induction pattern generalizing found with
  | nil => simp
  | cons e pattern ih =>
    rw [List.foldl_cons, ih (nested_advance h e)]
    constructor
    · rintro ⟨after, hafter, matched, hmatched, rfl⟩
      obtain ⟨start, hstart, part, hpart, rfl⟩ := (mem_advance_iff h).mp hafter
      exact ⟨_, hstart, part ++ matched, .cons hpart hmatched, (List.append_assoc ..).symm⟩
    · rintro ⟨start, hstart, _, hmatched, rfl⟩
      obtain ⟨part, after, hpart, hafter, rfl⟩ := matches_cons_iff.mp hmatched
      exact ⟨after ++ rest, (mem_advance_iff h).mpr ⟨_, hstart, part, hpart, List.append_assoc ..⟩,
        after, hafter, rfl⟩

theorem nested_singleton (s : Bytes) : Nested [s] :=
  List.pairwise_singleton _ _

/-- `rests` lists what every match at the start of a text leaves of it. -/
theorem mem_rests_iff : rest ∈ rests pattern s ↔
    ∃ matched, Matches pattern matched ∧ s = matched ++ rest := by
  simp only [rests, mem_foldl_advance_iff (nested_singleton s), List.mem_singleton, exists_eq_left]

/-- The longest rest comes first. -/
theorem nested_rests (pattern : List Element) (s : Bytes) : Nested (rests pattern s) := by
  suffices h : ∀ found, Nested found → Nested (pattern.foldl advance found) from
    h _ (nested_singleton s)
  induction pattern with
  | nil => exact fun _ h => h
  | cons e pattern ih => exact fun found h => ih _ (nested_advance h e)

/-- Whether a pattern matches a text is found without going through its cuts. -/
theorem isMatch_iff : isMatch pattern s = true ↔ Matches pattern s := by
  have hnil : ([] : Bytes) ∈ rests pattern s ↔ Matches pattern s := by
    rw [mem_rests_iff]
    simp
  rw [isMatch, List.any_eq_true, ← hnil]
  simp [List.isEmpty_iff]

instance : DecidablePred (Matches pattern) :=
  fun _ => decidable_of_iff _ isMatch_iff

/-! ## Trimming -/

/-- A match is the longest of some matches, or the shortest. -/
def IsBest (longest : Bool) (all : Bytes → Prop) (matched : Bytes) : Prop :=
  all matched ∧ ∀ other, all other →
    if longest then other.length ≤ matched.length else matched.length ≤ other.length

/-- A value without zero bytes is its own first value. -/
theorem firstValue_eq_self (h : '\x00' ∉ s) : firstValue s = s := by
  rw [firstValue, List.takeWhile_eq_self_iff]
  intro c hc
  simpa using fun hzero : c = '\x00' => h (hzero ▸ hc)

/-- The first of nested texts is the longest one. -/
theorem Nested.length_le_head? {start longest : Bytes} (h : Nested found)
    (hhead : found.head? = some longest) (hstart : start ∈ found) : start.length ≤ longest.length :=
  (h.suffix_head? hhead hstart).length_le

/-- The last of nested texts is the shortest one. -/
theorem Nested.getLast?_length_le {start shortest : Bytes} (h : Nested found)
    (hlast : found.getLast? = some shortest) (hstart : start ∈ found) :
    shortest.length ≤ start.length := by
  obtain ⟨longer, rfl⟩ := List.getLast?_eq_some_iff.mp hlast
  rcases List.mem_append.mp hstart with hmem | hmem
  · exact ((List.pairwise_append.mp h).2.2 start hmem shortest (List.mem_singleton_self _)).2.le
  · exact (List.mem_singleton.mp hmem).symm ▸ Nat.le_refl _

/-- What is trimmed off the start of a value is its shortest or its longest match there. A value
without such a match is left alone. -/
theorem trimStart_spec (pattern : List Element) (longest : Bool) (h : '\x00' ∉ s) :
    (∃ matched, IsBest longest (fun part => part <+: s ∧ Matches pattern part) matched ∧
      s = matched ++ trimStart longest pattern s) ∨
    (∀ part, part <+: s → ¬Matches pattern part) ∧ trimStart longest pattern s = s := by
  have htrim : trimStart longest pattern s =
      (if longest then (rests pattern s).getLast? else (rests pattern s).head?).getD s := by
    simp [trimStart, firstValue_eq_self h]
  rw [htrim]
  cases hbest : if longest then (rests pattern s).getLast? else (rests pattern s).head? with
  | none =>
    have hnil : rests pattern s = [] := by
      cases longest <;> simpa using hbest
    refine .inr ⟨?_, rfl⟩
    rintro part ⟨rest, rfl⟩ hmatch
    exact List.ne_nil_of_mem (mem_rests_iff.mpr ⟨part, hmatch, rfl⟩) hnil
  | some rest =>
    have hmem : rest ∈ rests pattern s := by
      cases longest with
      | true => exact List.mem_of_getLast? hbest
      | false => exact List.mem_of_head? hbest
    obtain ⟨matched, hmatch, hs⟩ := mem_rests_iff.mp hmem
    refine .inl ⟨matched, ⟨⟨⟨rest, hs.symm⟩, hmatch⟩, ?_⟩, hs⟩
    rintro other ⟨⟨rest', hother⟩, hmatch'⟩
    have hmem' : rest' ∈ rests pattern s := mem_rests_iff.mpr ⟨other, hmatch', hother.symm⟩
    -- The longer the match, the shorter what it leaves.
    have hlength : other.length + rest'.length = matched.length + rest.length := by
      rw [← List.length_append, ← List.length_append, hother, hs]
    cases longest with
    | true =>
      have := (nested_rests pattern s).getLast?_length_le hbest hmem'
      simp only [if_true]
      omega
    | false =>
      have := (nested_rests pattern s).length_le_head? hbest hmem'
      simp only [Bool.false_eq_true, if_false]
      omega

theorem length_tails (s : Bytes) : (tails s).length = s.length + 1 := by
  induction s with
  | nil => rfl
  | cons c s ih => rw [tails, List.length_cons, ih, List.length_cons]

/-- The matches at the end of a value without zero bytes. -/
theorem trimEnd_eq (pattern : List Element) (longest : Bool) (h : '\x00' ∉ s) :
    let ends := (tails s).filter (isMatch pattern)
    trimEnd longest pattern s = (if longest then ends.head? else ends.getLast?).elim s
      fun tail => s.take (s.length - tail.length) := by
  have hends : (tails s).filter (fun tail => isMatch pattern (firstValue tail)) =
      (tails s).filter (isMatch pattern) := by
    refine List.filter_congr fun tail htail => ?_
    rw [firstValue_eq_self fun hzero => h ((mem_tails_iff.mp htail).subset hzero)]
  have hall : (tails s).take ((firstValue s).length + 1) = tails s := by
    rw [firstValue_eq_self h, ← length_tails, List.take_length]
  intro ends
  rw [trimEnd, hall, ite_self, hends]
  cases if longest then ends.head? else ends.getLast? <;> rfl

/-- What is trimmed off the end of a value is its shortest or its longest match there. A value
without such a match is left alone. -/
theorem trimEnd_spec (pattern : List Element) (longest : Bool) (h : '\x00' ∉ s) :
    (∃ matched, IsBest longest (fun part => part <:+ s ∧ Matches pattern part) matched ∧
      s = trimEnd longest pattern s ++ matched) ∨
    (∀ part, part <:+ s → ¬Matches pattern part) ∧ trimEnd longest pattern s = s := by
  have hnested : Nested ((tails s).filter (isMatch pattern)) := (nested_tails s).filter _
  have hends {part : Bytes} : part ∈ (tails s).filter (isMatch pattern) ↔
      part <:+ s ∧ Matches pattern part := by
    rw [List.mem_filter, mem_tails_iff, isMatch_iff]
  rw [trimEnd_eq pattern longest h]
  generalize (tails s).filter (isMatch pattern) = ends at hnested hends
  cases hbest : if longest then ends.head? else ends.getLast? with
  | none =>
    have hnil : ends = [] := by
      cases longest <;> simpa using hbest
    exact .inr ⟨fun part hpart hmatch => List.ne_nil_of_mem (hends.mpr ⟨hpart, hmatch⟩) hnil, rfl⟩
  | some matched =>
    cases longest with
    | true =>
      have hmatch := hends.mp (List.mem_of_head? hbest)
      refine .inl ⟨matched, ⟨hmatch, fun other hother => ?_⟩,
        (List.suffix_iff_eq_append.mp hmatch.1).symm⟩
      exact hnested.length_le_head? hbest (hends.mpr hother)
    | false =>
      have hmatch := hends.mp (List.mem_of_getLast? hbest)
      refine .inl ⟨matched, ⟨hmatch, fun other hother => ?_⟩,
        (List.suffix_iff_eq_append.mp hmatch.1).symm⟩
      exact hnested.getLast?_length_le hbest (hends.mpr hother)

/-! ## Quotes -/

/-- A character that means nothing in patterns is read as itself. -/
theorem compileFrom_of_not_isKept {c : Char} (hc : Step.isKept c = false) (fuel : Nat) (s : Bytes) :
    compileFrom (fuel + 1) (c :: s) = .char c :: compileFrom fuel s := by
  have hne (d : Char) (hd : Step.isKept d = true) : c ≠ d := by
    rintro rfl
    exact Bool.false_ne_true (hc.symm.trans hd)
  rw [compileFrom]
  · exact hne '*' rfl
  · exact hne '?' rfl
  · exact hne '[' rfl
  · exact fun _ _ hescape _ => hne '\\' rfl hescape

/-- In a pattern, a backslash stands in front of a quoted character that would mean something. -/
theorem patternOf_glyphsOf_cons (c : Char) (text : Bytes) :
    patternOf (Step.glyphsOf true (c :: text)) =
      (if Step.isKept c then ['\\', c] else [c]) ++ patternOf (Step.glyphsOf true text) := by
  simp [Step.glyphsOf, patternOf]

/-- In a pattern, text in quotes is a list of plain characters. -/
theorem compileFrom_quoted (text : Bytes) {fuel : Nat} (hfuel : text.length < fuel) :
    compileFrom fuel (patternOf (Step.glyphsOf true text)) = text.map .char := by
  induction text generalizing fuel with
  | nil => cases fuel <;> rfl
  | cons c text ih =>
    obtain ⟨fuel, rfl⟩ := Nat.exists_eq_succ_of_ne_zero (Nat.ne_of_gt (Nat.zero_lt_of_lt hfuel))
    have hrest := ih (Nat.lt_of_succ_lt_succ hfuel)
    rw [patternOf_glyphsOf_cons, List.map_cons, ← hrest]
    cases hc : Step.isKept c with
    | true => rfl
    | false => exact compileFrom_of_not_isKept hc fuel _

theorem length_le_length_patternOf (text : Bytes) :
    text.length ≤ (patternOf (Step.glyphsOf true text)).length := by
  induction text with
  | nil => exact Nat.le_refl _
  | cons c text ih =>
    rw [patternOf_glyphsOf_cons, List.length_append, List.length_cons]
    split <;> simp only [List.length_cons, List.length_nil] <;> omega

/-- A value in quotes matches itself and nothing else, whatever characters are in it. -/
theorem matches_quoted_iff {text : Bytes} :
    Matches (compile (patternOf (Step.glyphsOf true text))) s ↔ s = text := by
  rw [compile, compileFrom_quoted text (Nat.lt_succ_of_le (length_le_length_patternOf text)),
    matches_chars_iff]

end SuiteScope.Shell.Pattern
