import SuiteScope.Proofs.Source.Head
import SuiteScope.Proofs.Source.Ranges

/-!
# What belongs to a head

A head of a source is a piece of it, with a parenthesis inside (`Stands`). What belongs to the head
comes behind that piece : the parenthesis where the call ends (`stop_le_callEnd`) and the body
(`IsBody`). The label is passed over by both scans, the one that starts at the parenthesis and the
one that starts behind the label. All places are boundaries of characters.
-/

namespace SuiteScope.Source

open SuiteScope.Text

/-- The text of a body, from behind its brace to the counterpart, or else to the end of the
source. -/
def bodyText (s : List Char) (opening : Nat) (closing : Option Nat) : List Char :=
  slice s (opening + 1) (closing.getD (byteSize s))

/-- A head is a nonempty piece of the source, and the parenthesis of the call is part of it. -/
structure Stands (s : List Char) (m : Match CallHead) : Prop where
  start : Boundary s m.span.start
  stop : Boundary s m.span.stop
  parenthesis : charAt? s (m.span.start + m.value.lead) = some '('
  inside : m.span.start + m.value.lead < m.span.stop

/-- The body of a head in code runs from a brace behind the head to the counterpart, or else to the
end of the source. -/
structure IsBody (s : List Char) (m : Match CallHead) (opening : Nat) (closing : Option Nat) :
    Prop where
  live : inSkipped (skippedRanges s) m.span.start = false
  behind : m.span.stop ≤ opening
  code : inSkipped (skippedRanges s) opening = false
  counterpart : matchingClose? s opening = closing
  place : ∃ a b, s = a ++ '{' :: (bodyText s opening closing ++ b) ∧ opening = byteSize a ∧
    closing.getD (byteSize s) = byteSize (a ++ '{' :: bodyText s opening closing)

section

variable {s : List Char} {m : Match CallHead}

/-! ## The head -/

theorem stands (h : Occurs sectionHead? s m) : Stands s m := by
  obtain ⟨a, call, gap, gap', b, -, -, rfl, rfl⟩ := exists_written h
  let x := call.lead gap gap' ++ call.label.written
  refine ⟨boundary_byteSize a _, ⟨a ++ x, b, by simp [x], rfl⟩, ?_, ?_⟩
  · have hplace : a ++ (call.lead gap gap' ++ (call.label.written ++ b)) =
        (a ++ (call.name ++ gap)) ++ '(' :: (gap' ++ (call.label.written ++ b)) := by
      simp [Call.lead]
    rw [hplace, ← byteSize_append, charAt?_byteSize]
  · simp only [byteSize_append, byteSize_cons, Call.lead, utf8Size_parenthesis]
    omega

/-- The call of a head ends behind the head, if at all. -/
theorem stop_le_callEnd (h : Occurs sectionHead? s m) {callEnd : Nat}
    (hend : matchingClose? s (m.span.start + m.value.lead) = some callEnd) :
    m.span.stop ≤ callEnd := by
  obtain ⟨a, call, gap, gap', b, -, hgap', rfl, rfl⟩ := exists_written h
  have hblank {d : Char} (hd : isBlank d = false) : d ∉ gap' := fun hmem => by
    simp [List.all_eq_true.mp hgap' d hmem] at hd
  have hgapWhole : Whole gap' := whole_plain
    (List.all_eq_true.mpr fun c hc => isPlain_of_isBlank (List.all_eq_true.mp hgap' c hc))
    fun d hd => by
      have hall : ∀ d ∈ delimiters, isBlank d.1 = false ∧ isBlank d.2 = false := by decide
      obtain ⟨hopen, hclose⟩ := hall d hd
      exact depthAfter_eq_self (hblank hopen) (hblank hclose) 0
  -- behind the parenthesis stands a whole text, which ends with the head
  have hplace : a ++ (call.lead gap gap' ++ (call.label.written ++ b)) =
      (a ++ (call.name ++ gap)) ++ '(' :: (gap' ++ call.label.written ++ b) := by
    simp [Call.lead]
  have hparen : ('(', ')') ∈ delimiters := by decide
  rw [hplace, ← byteSize_append,
    matchingClose?_whole hparen (hgapWhole.append call.label.whole_written)] at hend
  obtain ⟨u, v, -, rfl⟩ := exists_of_closeIn hend
  simp only [byteSize_append, byteSize_cons, Call.lead]
  omega

/-! ## The body -/

/-- A brace that follows a head in code is code. -/
theorem brace_of_live (h : Occurs sectionHead? s m)
    (hlive : inSkipped (skippedRanges s) m.span.start = false) {opening : Nat}
    (hopen : blockOpen? s m.span.stop = some opening) :
    m.span.stop ≤ opening ∧ inSkipped (skippedRanges s) opening = false ∧
      ∃ a t, s = a ++ '{' :: t ∧ opening = byteSize a := by
  obtain ⟨a, call, gap, gap', b, hgap, hgap', rfl, rfl⟩ := exists_written h
  have hsettled : Settled (call.lead gap gap' ++ call.label.written) :=
    (settled_of_plain (vocabulary_section.all_lead call hgap hgap')).append
      (settled_literal call.label.fits)
  rw [← List.append_assoc (call.lead gap gap')] at hlive hopen ⊢
  generalize call.lead gap gap' ++ call.label.written = x at hsettled hlive hopen ⊢
  rw [← List.append_assoc a] at hopen
  obtain ⟨y, t, rfl, rfl, hcode⟩ := exists_brace hopen
  rw [inSkipped_skippedRanges] at hlive ⊢
  obtain ⟨l, rfl, hmarks⟩ := marked_append hlive
  refine ⟨by simp, ?_, l.map (·.1) ++ x ++ y, t, by simp, rfl⟩
  rw [hmarks, byteSize_append, byteSize_append, Nat.add_assoc, covered_append, hsettled.covered_add,
    hcode]

theorem isBody_of_brace {opening : Nat} {closing : Option Nat}
    (hlive : inSkipped (skippedRanges s) m.span.start = false) (hbehind : m.span.stop ≤ opening)
    (hcode : inSkipped (skippedRanges s) opening = false)
    (hclose : matchingClose? s opening = closing)
    (hbrace : ∃ a t, s = a ++ '{' :: t ∧ opening = byteSize a) : IsBody s m opening closing := by
  refine ⟨hlive, hbehind, hcode, hclose, ?_⟩
  obtain ⟨a, t, rfl, rfl⟩ := hbrace
  obtain ⟨x, b, rfl, hstop⟩ : ∃ x b, t = x ++ b ∧
      closing.getD (byteSize (a ++ '{' :: t)) = byteSize (a ++ '{' :: x) := by
    cases closing with
    | none => exact ⟨t, [], (List.append_nil t).symm, rfl⟩
    | some close =>
      have hd : ('{', '}') ∈ delimiters := by decide
      obtain ⟨x, b, rfl, hx⟩ := exists_counterpart hd hclose
      exact ⟨x, '}' :: b, rfl, hx⟩
  have hbody : bodyText (a ++ '{' :: (x ++ b)) (byteSize a) closing = x := by
    have hslice := slice_byteSize (a ++ ['{']) x b
    rw [bodyText, hstop]
    simpa using hslice
  exact ⟨a, b, by rw [hbody], rfl, by rw [hbody, hstop]⟩

/-- What is read of a body is a part of the source that starts behind the brace. -/
theorem IsBody.part {opening : Nat} {closing : Option Nat} (h : IsBody s m opening closing) :
    ∃ a b, s = a ++ (bodyText s opening closing ++ b) ∧ byteSize a = opening + 1 ∧
      a.getLast? = some '{' := by
  obtain ⟨a, b, hs, rfl, -⟩ := h.place
  exact ⟨a ++ ['{'], b, by simpa using hs, by simp, List.getLast?_concat⟩

/-! ## Extents -/

/-- A body has a live head in front of it, and its own counterpart. -/
theorem extentOf_eq_body {opening : Nat} {closing : Option Nat}
    (h : extentOf s (skippedRanges s) m = .body opening closing) :
    inSkipped (skippedRanges s) m.span.start = false ∧
      blockOpen? s m.span.stop = some opening ∧ matchingClose? s opening = closing := by
  unfold extentOf at h
  split at h
  · cases h
  next hlive =>
    dsimp only at h
    split at h
    · cases h
    next brace hbrace =>
      obtain ⟨rfl, rfl⟩ := Extent.body.inj h
      exact ⟨by simpa using hlive, (Option.filter_eq_some_iff.mp hbrace).1, rfl⟩

theorem extentOf_eq_bodiless {callEnd : Option Nat}
    (h : extentOf s (skippedRanges s) m = .bodiless callEnd) :
    inSkipped (skippedRanges s) m.span.start = false ∧
      matchingClose? s (m.span.start + m.value.lead) = callEnd := by
  unfold extentOf at h
  split at h
  · cases h
  next hlive =>
    dsimp only at h
    split at h
    · exact ⟨by simpa using hlive, Extent.bodiless.inj h⟩
    · cases h

/-- What is taken for the body of a match is one. -/
theorem isBody_of_extentOf (h : Occurs sectionHead? s m) {opening : Nat} {closing : Option Nat}
    (hbody : extentOf s (skippedRanges s) m = .body opening closing) :
    IsBody s m opening closing := by
  obtain ⟨hlive, hopen, hclose⟩ := extentOf_eq_body hbody
  obtain ⟨hbehind, hcode, hbrace⟩ := brace_of_live h hlive hopen
  exact isBody_of_brace hlive hbehind hcode hclose hbrace

/-- Every visit is one of a match that occurs. -/
theorem of_mem_visits {v : Visit} (h : v ∈ visits s) :
    v = visitOf s v.head ∧ Occurs sectionHead? s v.head := by
  rw [visits, visitsFrom_eq_map] at h
  obtain ⟨m, hm, rfl⟩ := List.mem_map.mp h
  exact ⟨rfl, (mem_walkFrom (a := []) hm).1⟩

/-- So the body of a visit is the body of its match. -/
theorem isBody_of_mem_visits {v : Visit} (h : v ∈ visits s) {opening : Nat}
    {closing : Option Nat} (hbody : v.extent = .body opening closing) :
    IsBody s v.head opening closing := by
  obtain ⟨hvisit, hoccurs⟩ := of_mem_visits h
  rw [hvisit] at hbody
  exact isBody_of_extentOf hoccurs hbody

end

end SuiteScope.Source
