import SuiteScope.Proofs.Text.Offset
import SuiteScope.Source.Skip

/-!
# Looking up skipped text

`covered` is the mark of the character that a byte belongs to. The stretches of marked characters
are in order (`inOrder_stretches`), so bisection among them comes to the one stretch that may hold a
place (`inSkipped_toArray`), and the answer for every place is the mark of its character
(`inSkipped_skippedRanges`).
-/

namespace SuiteScope.Source

open SuiteScope.Text

/-- The mark of the character that byte `p` belongs to. -/
def covered : List (Char × Bool) → (p : Nat) → Bool
  | [], _ => false
  | (c, mark) :: s, p => if p < c.utf8Size then mark else covered s (p - c.utf8Size)

/-! ## Stretches in order -/

/-- Stretches that do not overlap, from left to right. -/
structure InOrder (spans : List Span) : Prop where
  forward : ∀ span ∈ spans, span.start ≤ span.stop
  apart : spans.Pairwise fun a b => a.stop ≤ b.start

theorem start_of_mem_stretches {since : Option Nat} {pos : Nat} {s : List (Char × Bool)}
    (h : ∀ start, since = some start → start ≤ pos) {span : Span}
    (hspan : span ∈ stretches since pos s) : since.getD pos ≤ span.start := by
  fun_induction stretches since pos s with
  | case1 pos => simp at hspan
  | case2 start pos =>
    obtain rfl := List.mem_singleton.mp hspan
    exact Nat.le_refl _
  | case3 since pos c s ih =>
    have hsince : since.getD pos ≤ pos := by cases since <;> simp_all
    exact ih (by rintro start ⟨⟩; omega) hspan
  | case4 pos c s ih => exact Nat.le_trans (Nat.le_add_right _ _) (ih (by simp) hspan)
  | case5 start pos c s ih =>
    rcases List.mem_cons.mp hspan with rfl | hspan
    · exact Nat.le_refl _
    · have hlater := ih (by simp) hspan
      have hstart := h start rfl
      simp only [Option.getD_none, Option.getD_some] at hlater ⊢
      omega

theorem inOrder_stretches {since : Option Nat} {pos : Nat} {s : List (Char × Bool)}
    (h : ∀ start, since = some start → start ≤ pos) : InOrder (stretches since pos s) := by
  fun_induction stretches since pos s with
  | case1 pos => exact ⟨by simp, List.Pairwise.nil⟩
  | case2 start pos => exact ⟨by simpa using h, List.pairwise_singleton _ _⟩
  | case3 since pos c s ih =>
    have hsince : since.getD pos ≤ pos := by cases since <;> simp_all
    exact ih (by rintro start ⟨⟩; omega)
  | case4 pos c s ih => exact ih (by simp)
  | case5 start pos c s ih =>
    obtain ⟨forward, apart⟩ := ih (by simp)
    refine ⟨List.forall_mem_cons.mpr ⟨h start rfl, forward⟩, apart.cons fun span hspan => ?_⟩
    have hlater := start_of_mem_stretches (by simp) hspan
    simp only [Option.getD_none] at hlater
    exact Nat.le_trans (Nat.le_add_right _ _) hlater

/-- A place lies in some stretch if it belongs to the open one or to a marked character. -/
theorem exists_mem_stretches {since : Option Nat} {pos : Nat} {s : List (Char × Bool)} {p : Nat}
    (h : ∀ start, since = some start → start ≤ pos) :
    (∃ span ∈ stretches since pos s, span.start ≤ p ∧ p < span.stop) ↔
      (since.getD pos ≤ p ∧ p < pos) ∨ (pos ≤ p ∧ covered s (p - pos) = true) := by
  fun_induction stretches since pos s with
  | case1 pos => simp [covered]
  | case2 start pos => simp [covered]
  | case3 since pos c s ih =>
    have hsince : since.getD pos ≤ pos := by cases since <;> simp_all
    rw [ih (by rintro start ⟨⟩; omega), covered, Option.getD_some, Nat.sub_add_eq]
    split <;> grind
  | case4 pos c s ih =>
    rw [ih (by simp), covered, Nat.sub_add_eq]
    split <;> grind
  | case5 start pos c s ih =>
    have hstart := h start rfl
    simp only [List.mem_cons, or_and_right, exists_or, exists_eq_left]
    rw [ih (by simp), covered, Nat.sub_add_eq]
    split <;> grind

/-! ## Bisection -/

/-- The stretches before the one that is found end at or before the place, the others behind it. -/
theorem firstEndingAfter_spec (spans : Array Span) (pos : Nat)
    (mono : ∀ i j (hj : j < spans.size) (hi : i ≤ j), spans[i].stop ≤ spans[j].stop) {lo hi : Nat}
    (hle : lo ≤ hi) (hhi : hi ≤ spans.size) :
    (∀ i (h : i < spans.size), lo ≤ i → i < firstEndingAfter spans pos lo hi →
      spans[i].stop ≤ pos) ∧
    (∀ i (h : i < spans.size), firstEndingAfter spans pos lo hi ≤ i → i < hi →
      pos < spans[i].stop) := by
  fun_induction firstEndingAfter spans pos lo hi with
  | case1 lo hi hlt mid hnone =>
    have hmid : mid < spans.size := by omega
    simp [hmid] at hnone
  | case2 lo hi hlt mid span hsome hstop ih =>
    have hmid : mid < spans.size := by omega
    obtain rfl : spans[mid] = span := by simpa [hmid] using hsome
    obtain ⟨below, above⟩ := ih (by omega) hhi
    refine ⟨fun i h hlo hi => ?_, above⟩
    rcases Nat.lt_or_ge mid i with hi' | hi'
    · exact below i h hi' hi
    · exact Nat.le_trans (mono i mid hmid hi') hstop
  | case3 lo hi hlt mid span hsome hstop ih =>
    have hmid : mid < spans.size := by omega
    obtain rfl : spans[mid] = span := by simpa [hmid] using hsome
    obtain ⟨below, above⟩ := ih (by omega) (by omega)
    refine ⟨below, fun i h hlo hi => ?_⟩
    rcases Nat.lt_or_ge i mid with hi' | hi'
    · exact above i h hlo hi'
    · exact Nat.lt_of_lt_of_le (Nat.lt_of_not_le hstop) (mono mid i h hi')
  | case4 lo hi hlt => exact ⟨by omega, by omega⟩

theorem inSkipped_toArray {spans : List Span} (h : InOrder spans) (p : Nat) :
    inSkipped spans.toArray p = true ↔ ∃ span ∈ spans, span.start ≤ p ∧ p < span.stop := by
  have apart : ∀ i j (hj : j < spans.length) (hij : i < j), spans[i].stop ≤ spans[j].start :=
    fun i j hj hij => List.pairwise_iff_getElem.mp h.apart i j (by omega) hj hij
  have forward : ∀ i (hi : i < spans.length), spans[i].start ≤ spans[i].stop :=
    fun i hi => h.forward _ (List.getElem_mem hi)
  obtain ⟨below, above⟩ := firstEndingAfter_spec spans.toArray p
    (fun i j hj hij => by
      rcases Nat.lt_or_eq_of_le hij with hlt | rfl
      · exact Nat.le_trans (apart i j hj hlt) (forward j hj)
      · exact Nat.le_refl _)
    (Nat.zero_le _) (Nat.le_refl _)
  unfold inSkipped
  generalize firstEndingAfter spans.toArray p 0 spans.toArray.size = found at below above
  simp only [List.getElem?_toArray, List.size_toArray, List.getElem_toArray] at below above ⊢
  constructor
  · intro hskip
    split at hskip
    next span hspan =>
      obtain ⟨hlt, rfl⟩ := List.getElem?_eq_some_iff.mp hspan
      exact ⟨_, List.getElem_mem hlt, by simpa using hskip, above found hlt (Nat.le_refl _) hlt⟩
    · simp at hskip
  · rintro ⟨span, hspan, hstart, hstop⟩
    obtain ⟨i, hi, rfl⟩ := List.mem_iff_getElem.mp hspan
    have hle : found ≤ i := Nat.le_of_not_lt fun hlt => by
      have := below i hi (Nat.zero_le _) hlt
      omega
    rw [List.getElem?_eq_getElem (by omega)]
    rcases Nat.lt_or_eq_of_le hle with hlt | rfl
    · have := apart found i hi hlt
      have := above found (by omega) (Nat.le_refl _) (by omega)
      omega
    · simpa using hstart

/-- The stretches of a source answer, for every place, the mark of its character. -/
theorem inSkipped_skippedRanges (s : List Char) (p : Nat) :
    inSkipped (skippedRanges s) p = covered (marked s) p := by
  rw [Bool.eq_iff_iff, skippedRanges, inSkipped_toArray (inOrder_stretches (by simp)),
    exists_mem_stretches (by simp)]
  simp

end SuiteScope.Source
