import SuiteScope.Proofs.Source.Label
import SuiteScope.Source.Sections

/-!
# Sections behind a settled text

`sectionsAfter a s` is what the source `a ++ s` reports from the end of `a` on. Behind a settled
text that ends no word this is what `s` reports on its own (`sectionsAfter_eq_sections`) : the walk
does the same, all places and their extents move by the size of `a`, and bodies hold the same cases.
-/

namespace SuiteScope.Source

open SuiteScope.Text

/-- The visit of a head of the source. -/
def visitOf (s : List Char) (m : Match CallHead) : Visit :=
  ⟨m, extentOf s (skippedRanges s) m⟩

/-- The section of a head of the source. -/
def sectionOf (s : List Char) (m : Match CallHead) : Option Section :=
  (visitOf s m).section? s (skippedRanges s)

/-- The sections of `a ++ s` that are met from the end of `a` on. -/
def sectionsAfter (a s : List Char) : List Section :=
  (walkAfter sectionHead? (fun m => (visitOf (a ++ s) m).resume) a s).filterMap
    (sectionOf (a ++ s))

/-- The extent at another place. -/
def Extent.shift (k : Nat) : Extent → Extent
  | .inert => .inert
  | .bodiless callEnd => .bodiless (callEnd.map (k + ·))
  | .body opening closing => .body (k + opening) (closing.map (k + ·))

/-! ## Visits as a walk -/

/-- The visits of a text are the matches that are met on the way through it. -/
theorem visitsFrom_eq_map (s : List Char) (before : Option Char) (pos resume : Nat)
    (rest : List Char) :
    visitsFrom s (skippedRanges s) before pos resume rest =
      (walkFrom sectionHead? (fun m => (visitOf s m).resume) before pos resume rest).map
        (visitOf s) := by
  induction rest generalizing before pos resume with
  | nil => rfl
  | cons c rest ih =>
    simp only [visitsFrom, walkFrom, ih]
    split
    · rfl
    · split
      · simp_all
      next m hm =>
        have hvisit : (⟨m, extentOf s (skippedRanges s) m⟩ : Visit) = visitOf s m := rfl
        simp only [hm, hvisit]
        cases (visitOf s m).resume <;> rfl

/-- All sections of a text are those behind nothing. -/
theorem sections_eq (s : List Char) : sections s = sectionsAfter [] s := by
  rw [sections, visits, visitsFrom_eq_map, List.filterMap_map]
  rfl

/-! ## Moving a visit -/

/-- Whether an opening stands before the end of a call does not depend on what is in front of both.
-/
theorem filter_beforeEnd_shift (k : Nat) (opening callEnd : Option Nat) :
    (opening.map (k + ·)).filter (beforeEnd (callEnd.map (k + ·))) =
      (opening.filter (beforeEnd callEnd)).map (k + ·) := by
  cases opening with
  | none => rfl
  | some opening =>
    cases callEnd with
    | none => rfl
    | some callEnd =>
      simp only [Option.map_some, Option.filter_some, beforeEnd, Option.all_some,
        Nat.add_lt_add_iff_left]
      split <;> simp_all

/-- What a call extends over moves with settled text in front of it. -/
theorem extentOf_shift {a : List Char} (ha : Settled a) (s : List Char) (m : Match CallHead) :
    extentOf (a ++ s) (skippedRanges (a ++ s)) (m.shift (byteSize a)) =
      (extentOf s (skippedRanges s) m).shift (byteSize a) := by
  simp only [extentOf, Match.shift, ha.inSkipped_add, Nat.add_assoc, matchingClose?_add,
    blockOpen?_add]
  split
  · rfl
  · rw [filter_beforeEnd_shift]
    cases (blockOpen? s m.span.stop).filter _ with
    | none => rfl
    | some opening => simp [Extent.shift, matchingClose?_add]

/-- So does the place at which the search goes on. -/
theorem resume_shift {a : List Char} (ha : Settled a) (s : List Char) (m : Match CallHead) :
    (visitOf (a ++ s) (m.shift (byteSize a))).resume =
      (visitOf s m).resume.map (byteSize a + ·) := by
  rw [visitOf, extentOf_shift ha, visitOf]
  rcases extentOf s (skippedRanges s) m with _ | ⟨_ | callEnd⟩ | ⟨opening, _ | closing⟩ <;> rfl

/-- The cases of a body are the same behind settled text. -/
theorem caseLabels_shift {a : List Char} (ha : Settled a) (s : List Char) (opening : Nat)
    (closing : Option Nat) :
    caseLabels (a ++ s) (skippedRanges (a ++ s)) (byteSize a + opening)
        (closing.map (byteSize a + ·)) =
      caseLabels s (skippedRanges s) opening closing := by
  have hend : (closing.map (byteSize a + ·)).getD (byteSize (a ++ s)) =
      byteSize a + closing.getD (byteSize s) := by
    cases closing <;> simp
  simp only [caseLabels, hend, Nat.add_assoc, slice_add, ha.inSkipped_add]

/-- So is the section of a match. -/
theorem sectionOf_shift {a : List Char} (ha : Settled a) (s : List Char) (m : Match CallHead) :
    sectionOf (a ++ s) (m.shift (byteSize a)) = sectionOf s m := by
  rw [sectionOf, visitOf, extentOf_shift ha, sectionOf, visitOf]
  cases extentOf s (skippedRanges s) m with
  | inert => rfl
  | bodiless callEnd => rfl
  | body opening closing =>
    simp [Visit.section?, Extent.shift, caseLabels_shift ha, Match.shift]

/-- A settled text that ends no word does not change what the text behind it reports. -/
theorem sectionsAfter_eq_sections {a : List Char} (ha : Settled a)
    (hb : isWordStart a.getLast? = true) (s : List Char) : sectionsAfter a s = sections s := by
  have hbefore (t : List Char) : sectionHead? a.getLast? t = sectionHead? none t :=
    callHead?_before hb rfl t
  have hwalk : walkAfter sectionHead? (fun m => (visitOf (a ++ s) m).resume) a s =
      (walkAfter sectionHead? (fun m => (visitOf s m).resume) [] s).map
        (Match.shift (byteSize a)) := by
    rw [walkAfter, ← walkFrom_of_le (Nat.le_refl _), walkFrom_before hbefore]
    exact walkFrom_shift (resume_shift ha s) none 0 0 s
  rw [sections_eq, sectionsAfter, sectionsAfter, hwalk, List.filterMap_map]
  exact congrArg (List.filterMap · _) (funext (sectionOf_shift ha s))

end SuiteScope.Source
