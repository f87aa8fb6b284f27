import Mathlib.Data.List.Forall2
import SuiteScope.Proofs.FirstOccurrence
import SuiteScope.Proofs.Mining.Merge
import SuiteScope.Proofs.Source.Extent

/-!
# Where sections come from

Nothing that is reported of a source is made up. Each section has an `Origin` in the source : the
head that names it, its body, and the cases in the body whose labels are its scenarios. Origins stand
in the source (`Origin.Sound`) and one behind the other (`Origin.Before`), so no case counts for two
sections (`sections_origins`).
-/

namespace SuiteScope.Source

open SuiteScope.Text

/-- Where a section of a source comes from. -/
structure Origin where
  head : Match CallHead
  /-- The opening brace of the body and its counterpart, if the section has a body. -/
  body : Option (Nat × Option Nat)
  cases : List (Match CallHead)

/-- A case head in code that starts between a brace and its counterpart, or else the end of the
source. -/
structure InBody (s : List Char) (opening : Nat) (closing : Option Nat) (m : Match CallHead) :
    Prop where
  occurs : Occurs caseHead? s m
  live : inSkipped (skippedRanges s) m.span.start = false
  behind : opening < m.span.start
  before : m.span.start < closing.getD (byteSize s)

/-- The origin stands in the source : a head in code, the body behind it, and the cases of the body
from left to right. -/
structure Origin.Sound (s : List Char) (o : Origin) : Prop where
  head : Occurs sectionHead? s o.head
  stands : Stands s o.head
  live : inSkipped (skippedRanges s) o.head.span.start = false
  isBody : ∀ opening closing, o.body = some (opening, closing) → IsBody s o.head opening closing
  inBody : ∀ m ∈ o.cases, ∃ opening closing, o.body = some (opening, closing) ∧
    InBody s opening closing m
  order : o.cases.Pairwise fun m m' => m.span.start < m'.span.start

/-- What the section says is what stands at its origin. -/
structure Origin.Backs (s : List Char) (o : Origin) (sec : Section) : Prop extends
    Origin.Sound s o where
  name : sec.name = o.head.value.label
  scenarios : sec.scenarios = (o.cases.map (·.value.label)).eraseDups
  nodup : sec.scenarios.Nodup
  hasBody : sec.scenarios ≠ [] → o.body ≠ none

/-- The first origin ends before the second one starts. -/
structure Origin.Before (o o' : Origin) : Prop where
  heads : o.head.span.start < o'.head.span.start
  body : ∀ opening closing, o.body = some (opening, closing) →
    ∃ close, closing = some close ∧ close < o'.head.span.start

/-- The live cases that are found in a body, at their places in the source. -/
def bodyCases (s : List Char) (opening : Nat) (closing : Option Nat) : List (Match CallHead) :=
  ((findAll caseHead? (bodyText s opening closing)).map (Match.shift (opening + 1))).filter
    fun m => !inSkipped (skippedRanges s) m.span.start

/-- The origin of the section of a visit. -/
def Visit.origin? (s : List Char) (v : Visit) : Option Origin :=
  match v.extent with
  | .inert => none
  | .bodiless _ => some ⟨v.head, none, []⟩
  | .body opening closing => some ⟨v.head, some (opening, closing), bodyCases s opening closing⟩

section

variable {s : List Char}

/-! ## Cases of a body -/

/-- The labels of a body are those of the matches in it. -/
theorem caseLabels_eq (s : List Char) (opening : Nat) (closing : Option Nat) :
    caseLabels s (skippedRanges s) opening closing =
      (bodyCases s opening closing).map (·.value.label) := by
  simp only [caseLabels, bodyCases, List.filter_map, List.map_map]
  rfl

/-- The cases of a section are live matches in its body. -/
theorem inBody_of_mem {m : Match CallHead} {opening : Nat} {closing : Option Nat}
    (h : IsBody s m opening closing) {case : Match CallHead}
    (hcase : case ∈ bodyCases s opening closing) : InBody s opening closing case := by
  obtain ⟨hfound, hlive⟩ := List.mem_filter.mp hcase
  obtain ⟨found, hmem, rfl⟩ := List.mem_map.mp hfound
  have hoccurs := occurs_of_mem_findAll hmem
  obtain ⟨a, b, hs, ha, hlast⟩ := h.part
  refine ⟨?_, by simpa using hlive, by simp [Match.shift]; omega, ?_⟩
  · have hpart := vocabulary_case.occurs_of_part (a := a) (by rw [hlast]; decide) hoccurs b
    rw [← ha]
    rwa [← hs] at hpart
  · have hlt := hoccurs.start_lt caseHead?_nil
    obtain ⟨a, b, -, rfl, hstop⟩ := h.place
    rw [hstop]
    simp only [Match.shift, byteSize_append, byteSize_cons, utf8Size_brace]
    omega

/-- The cases of a body are in source order. -/
theorem pairwise_bodyCases (s : List Char) (opening : Nat) (closing : Option Nat) :
    (bodyCases s opening closing).Pairwise fun m m' => m.span.start < m'.span.start := by
  refine List.Pairwise.filter _ (List.pairwise_map.mpr ?_)
  rw [findAll_eq_walkAfter]
  refine (pairwise_walkFrom [] _ 0).imp ?_
  rintro m m' ⟨hlt, -⟩
  exact Nat.add_lt_add_left hlt _

/-! ## Origins of visits -/

/-- The origin of a section is what the source has at its place. -/
theorem sound_of_origin? {v : Visit} (hv : v ∈ visits s) {o : Origin}
    (ho : v.origin? s = some o) : o.Sound s := by
  obtain ⟨hvisit, hoccurs⟩ := of_mem_visits hv
  have hextent : v.extent = extentOf s (skippedRanges s) v.head := congrArg Visit.extent hvisit
  unfold Visit.origin? at ho
  split at ho
  · cases ho
  next callEnd hbodiless =>
    obtain rfl := Option.some.inj ho
    obtain ⟨hlive, -⟩ := extentOf_eq_bodiless (hextent.symm.trans hbodiless)
    exact ⟨hoccurs, stands hoccurs, hlive, nofun, nofun, List.Pairwise.nil⟩
  next opening closing hbody =>
    obtain rfl := Option.some.inj ho
    have hisBody := isBody_of_mem_visits hv hbody
    refine ⟨hoccurs, stands hoccurs, hisBody.live, ?_, ?_, pairwise_bodyCases s opening closing⟩
    · intro opening' closing' heq
      obtain ⟨rfl, rfl⟩ := Prod.mk.inj (Option.some.inj heq)
      exact hisBody
    · exact fun m hm => ⟨opening, closing, rfl, inBody_of_mem hisBody hm⟩

/-- A visit gives a section exactly if it has an origin, and the origin backs the section. -/
theorem backs_of_mem_visits {v : Visit} (hv : v ∈ visits s) :
    Option.Rel (Origin.Backs s) (v.origin? s) (v.section? s (skippedRanges s)) := by
  have hsound {o : Origin} := sound_of_origin? hv (o := o)
  cases hextent : v.extent with
  | inert =>
    simp only [Visit.origin?, Visit.section?, hextent]
    exact .none
  | bodiless callEnd =>
    simp only [Visit.origin?, Visit.section?, hextent] at hsound ⊢
    exact .some ⟨hsound rfl, rfl, rfl, List.nodup_nil, fun h => absurd rfl h⟩
  | body opening closing =>
    simp only [Visit.origin?, Visit.section?, hextent] at hsound ⊢
    refine .some ⟨hsound rfl, Section.name_ofList _ _, ?_, Section.nodup_ofList _ _,
      fun _ => Option.some_ne_none _⟩
    rw [Section.scenarios_ofList, caseLabels_eq]

/-- A walk goes on behind the body of a section, so the next origin starts there. -/
theorem before_of_origin? {v v' : Visit} (hstart : v.head.span.start < v'.head.span.start)
    {stop : Nat} (hresume : v.resume = some stop) (hstop : stop ≤ v'.head.span.start)
    {o o' : Origin} (ho : v.origin? s = some o) (ho' : v'.origin? s = some o') :
    o.Before o' := by
  have hhead {v : Visit} {o : Origin} (ho : v.origin? s = some o) : o.head = v.head := by
    unfold Visit.origin? at ho
    split at ho <;> cases ho <;> rfl
  refine ⟨by rwa [hhead ho, hhead ho'], fun opening closing hbody => ?_⟩
  obtain ⟨head, extent⟩ := v
  cases extent with
  | inert => cases ho
  | bodiless callEnd =>
    obtain rfl := Option.some.inj ho
    cases hbody
  | body opening' closing' =>
    obtain rfl := Option.some.inj ho
    obtain ⟨rfl, rfl⟩ := Prod.mk.inj (Option.some.inj hbody)
    obtain ⟨close, rfl, rfl⟩ := Option.map_eq_some_iff.mp hresume
    exact ⟨close, rfl, hhead ho' ▸ hstop⟩

/-- Where sections follow each other, all cases of the first come before those of the second. -/
theorem Origin.Before.cases_lt {o o' : Origin} (h : o.Before o') (ho : o.Sound s)
    (ho' : o'.Sound s) {m m' : Match CallHead} (hm : m ∈ o.cases) (hm' : m' ∈ o'.cases) :
    m.span.start < m'.span.start := by
  obtain ⟨opening, closing, hbody, hinside⟩ := ho.inBody m hm
  obtain ⟨opening', closing', hbody', hinside'⟩ := ho'.inBody m' hm'
  obtain ⟨close, rfl, hclose⟩ := h.body opening closing hbody
  have hbefore : m.span.start < close := hinside.before
  have hhead := ho'.head.start_le_stop
  have hbehind := (ho'.isBody opening' closing' hbody').behind
  have hbehind' := hinside'.behind
  omega

end

/-- Every section of a source is backed by an origin in it. The origins stand one behind the other,
and so do the cases of all of them. -/
theorem sections_origins (s : List Char) :
    ∃ origins : List Origin, List.Forall₂ (Origin.Backs s) origins (sections s) ∧
      origins.Pairwise Origin.Before ∧
      (origins.flatMap (·.cases)).Pairwise fun m m' => m.span.start < m'.span.start := by
  have hbefore : ((visits s).filterMap (Visit.origin? s)).Pairwise Origin.Before := by
    rw [visits, visitsFrom_eq_map, List.pairwise_filterMap, List.pairwise_map]
    refine (pairwise_walkFrom [] s 0).imp ?_
    rintro m m' ⟨hstart, stop, hresume, hstop⟩ o ho o' ho'
    exact before_of_origin? hstart hresume hstop ho ho'
  have hsound : ∀ o ∈ (visits s).filterMap (Visit.origin? s), o.Sound s := fun o ho => by
    obtain ⟨v, hv, ho⟩ := List.mem_filterMap.mp ho
    exact sound_of_origin? hv ho
  refine ⟨(visits s).filterMap (Visit.origin? s), ?_, hbefore, ?_⟩
  · have hvisits : List.Forall₂ (fun v v' => v = v' ∧ v ∈ visits s) (visits s) (visits s) :=
      List.forall₂_same.mpr fun v hv => ⟨rfl, hv⟩
    refine List.rel_filterMap ?_ hvisits
    rintro v v' ⟨rfl, hv⟩
    exact backs_of_mem_visits hv
  · refine List.pairwise_flatMap.mpr ⟨fun o ho => (hsound o ho).order, ?_⟩
    exact hbefore.imp_of_mem fun ho ho' h m hm m' hm' =>
      h.cases_lt (hsound _ ho) (hsound _ ho') hm hm'

end SuiteScope.Source
