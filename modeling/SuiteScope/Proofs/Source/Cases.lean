import SuiteScope.Proofs.Mining.Merge
import SuiteScope.Proofs.Source.Extent

/-!
# Live cases of a section

The body of a section is searched for case heads, those in skipped text included, and the latter are
dropped afterwards. So a head in skipped text that is found can take with it a live case that starts
before the quote where the label of that head ends : the live case is swallowed (`Swallowed`). This
is the only way to lose one. The scenarios of a section are the labels of its live cases that are
not swallowed (`scenarios_of_visit`).
-/

namespace SuiteScope.Source

open SuiteScope.Text

/-- Whether a match in the body behind the brace at `opening` starts in skipped text. -/
def isSkippedCase (s : List Char) (opening : Nat) (m : Match CallHead) : Bool :=
  inSkipped (skippedRanges s) (opening + 1 + m.span.start)

/-- A case head in a body that is code. -/
def LiveCase (s : List Char) (opening : Nat) (closing : Option Nat) (m : Match CallHead) : Prop :=
  Occurs caseHead? (bodyText s opening closing) m ∧ isSkippedCase s opening m = false

/-- The case starts inside a head that is found in skipped text. -/
def Swallowed (s : List Char) (opening : Nat) (closing : Option Nat) (m : Match CallHead) : Prop :=
  ∃ m' ∈ findAll caseHead? (bodyText s opening closing),
    isSkippedCase s opening m' = true ∧ m'.Inside m.span.start

/-! ## Cases that are found -/

theorem mem_caseLabels {s : List Char} {opening : Nat} {closing : Option Nat} {label : String} :
    label ∈ caseLabels s (skippedRanges s) opening closing ↔
      ∃ m ∈ findAll caseHead? (bodyText s opening closing),
        isSkippedCase s opening m = false ∧ m.value.label = label := by
  simp [caseLabels, bodyText, isSkippedCase, and_assoc]

/-- A live case that is not swallowed is found : no other live case reaches over its place. -/
theorem mem_findAll_of_live {s : List Char} {v : Visit} (hv : v ∈ visits s) {opening : Nat}
    {closing : Option Nat} (hbody : v.extent = .body opening closing) {m : Match CallHead}
    (hlive : LiveCase s opening closing m) (hswallowed : ¬Swallowed s opening closing m) :
    m ∈ findAll caseHead? (bodyText s opening closing) := by
  obtain ⟨hoccurs, hcode⟩ := hlive
  refine (mem_findAll_or_inside caseHead?_nil hoccurs).resolve_right ?_
  rintro ⟨m', hfound, hinside⟩
  cases hskip : isSkippedCase s opening m' with
  | true => exact hswallowed ⟨m', hfound, hskip, hinside⟩
  | false =>
    obtain ⟨a, b, hs, ha, -⟩ := (isBody_of_mem_visits hv hbody).part
    rw [isSkippedCase, inSkipped_skippedRanges, ← ha] at hskip hcode
    generalize bodyText s opening closing = body at hs hfound hoccurs
    subst hs
    rw [covered_of_inside (occurs_of_mem_findAll hfound) hoccurs hinside hskip] at hcode
    cases hcode

/-- The scenarios of a section with a body are the labels of the live cases in the body that are not
swallowed. In particular a live case is among them if every head in skipped text that starts before
it ends before it. -/
theorem scenarios_of_visit {s : List Char} {v : Visit} (hv : v ∈ visits s) {opening : Nat}
    {closing : Option Nat} (hbody : v.extent = .body opening closing) :
    ∃ sec ∈ sections s, v.section? s (skippedRanges s) = some sec ∧
      (∀ label, label ∈ sec.scenarios ↔ ∃ m, LiveCase s opening closing m ∧
        ¬Swallowed s opening closing m ∧ m.value.label = label) ∧
      ∀ m, LiveCase s opening closing m →
        (∀ m', Occurs caseHead? (bodyText s opening closing) m' →
          isSkippedCase s opening m' = true → m'.span.start < m.span.start →
            m'.span.stop ≤ m.span.start) →
        m.value.label ∈ sec.scenarios := by
  have hsection : v.section? s (skippedRanges s) = some (Section.ofList v.head.value.label
      (caseLabels s (skippedRanges s) opening closing)) := by
    rw [Visit.section?, hbody]
  have hlabels (label : String) : label ∈ (Section.ofList v.head.value.label
      (caseLabels s (skippedRanges s) opening closing)).scenarios ↔
        ∃ m, LiveCase s opening closing m ∧ ¬Swallowed s opening closing m ∧
          m.value.label = label := by
    rw [Section.mem_scenarios_ofList, mem_caseLabels]
    constructor
    · rintro ⟨m, hfound, hcode, hlabel⟩
      refine ⟨m, ⟨occurs_of_mem_findAll hfound, hcode⟩, ?_, hlabel⟩
      rintro ⟨m', hfound', -, hinside⟩
      exact not_inside_of_mem_findAll hfound' hfound hinside
    · rintro ⟨m, hlive, hswallowed, hlabel⟩
      exact ⟨m, mem_findAll_of_live hv hbody hlive hswallowed, hlive.2, hlabel⟩
  refine ⟨_, List.mem_filterMap.mpr ⟨v, hv, hsection⟩, hsection, hlabels, fun m hlive hapart => ?_⟩
  refine (hlabels _).mpr ⟨m, hlive, ?_, rfl⟩
  rintro ⟨m', hfound, hskip, hstart, hstop⟩
  have := hapart m' (occurs_of_mem_findAll hfound) hskip hstart
  omega

/-- A case that is commented out in full, and the live case on the next line. -/
theorem scenarios_of_commented_case :
    let s := "describe('s', () => \x7b\n  // it('old')\n  it('a', () => \x7b\x7d)\n\x7d)".toList
    let v : Visit := ⟨⟨⟨0, 12⟩, ⟨8, "s"⟩⟩, .body 20 (some 57)⟩
    v ∈ visits s ∧ ∃ sec ∈ sections s, v.section? s (skippedRanges s) = some sec ∧
      "a" ∈ sec.scenarios := by
  intro s v
  have hv : v ∈ visits s := by decide +kernel
  obtain ⟨sec, hsec, hsection, hlabels, -⟩ := scenarios_of_visit hv rfl
  refine ⟨hv, sec, hsec, hsection, (hlabels "a").mpr ⟨⟨⟨18, 24⟩, ⟨2, "a"⟩⟩, ⟨?_, ?_⟩, ?_, rfl⟩⟩
  · exact ⟨(bodyText s 20 (some 57)).take 18, (bodyText s 20 (some 57)).drop 18,
      (List.take_append_drop _ _).symm, by decide +kernel⟩
  · rw [isSkippedCase, inSkipped_skippedRanges]
    decide +kernel
  · rintro ⟨m', hfound, -, hinside⟩
    have hall : ∀ m' ∈ findAll caseHead? (bodyText s 20 (some 57)),
        ¬(m'.span.start < 18 ∧ 18 < m'.span.stop) := by decide +kernel
    exact hall m' hfound hinside

/-- The quote that opens the label of a live case ends the label of a case that is commented out.
The search takes the comment and the live case up to that quote, and then drops all of it. -/
theorem live_case_swallowed :
    let s := "describe('s', () => \x7b\n  // it('old\n  it('a', () => \x7b\x7d)\n\x7d)".toList
    let v : Visit := ⟨⟨⟨0, 12⟩, ⟨8, "s"⟩⟩, .body 20 (some 55)⟩
    v ∈ visits s ∧ LiveCase s 20 (some 55) ⟨⟨16, 22⟩, ⟨2, "a"⟩⟩ ∧
      v.section? s (skippedRanges s) = some ⟨"s", []⟩ ∧ sections s = [⟨"s", []⟩] := by
  intro s v
  refine ⟨by decide +kernel, ⟨?_, ?_⟩, by decide +kernel, by decide +kernel⟩
  · exact ⟨(bodyText s 20 (some 55)).take 16, (bodyText s 20 (some 55)).drop 16,
      (List.take_append_drop _ _).symm, by decide +kernel⟩
  · rw [isSkippedCase, inSkipped_skippedRanges]
    decide +kernel

end SuiteScope.Source
