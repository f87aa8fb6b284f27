import Mathlib.Data.List.Sort
import Mathlib.Data.List.TakeWhile
import SuiteScope.Proofs.Mining.FirstAppearance

/-!
# What a merged map holds

`Lists sections name scenario` says that a section of the name lists the scenario, and
`ScenarioMap.Holds` says it of the sections of a target. Uniting sections keeps what they list
(`lists_mergeSections`), so a map holds exactly what its contributions say
(`ScenarioMap.holds_ofContributions`).

`Distinct` says that every name and every scenario of a list of sections is there once. A map made
of contributions is well formed (`ScenarioMap.wellFormed_ofContributions`) : its targets increase,
and the sections of a target are distinct and none of them empty.

The sections of a target come in the order in which its contributions name them
(`ScenarioMap.ofContributions_inOrder`), so contributions to different targets may trade places.
-/

namespace SuiteScope

/-- Some section of this name lists the scenario. -/
def Lists (sections : List Section) (name scenario : String) : Prop :=
  ∃ sec ∈ sections, sec.name = name ∧ scenario ∈ sec.scenarios

/-- No two sections share a name, and no section repeats a scenario. -/
structure Distinct (sections : List Section) : Prop where
  names : (sections.map (·.name)).Nodup
  scenarios : ∀ sec ∈ sections, sec.scenarios.Nodup

namespace ScenarioMap

/-- The sections of the target list the scenario in a section of this name. -/
def Holds (map : ScenarioMap) (target name scenario : String) : Prop :=
  ∃ entry ∈ map, entry.1 = target ∧ Lists entry.2 name scenario

/-- Targets in increasing order, each with distinct sections. No target is without sections, and
no section without scenarios. -/
structure WellFormed (map : ScenarioMap) : Prop where
  increasing : (map.map Prod.fst).Pairwise (· < ·)
  distinct : ∀ entry ∈ map, Distinct entry.2
  sections_ne_nil : ∀ entry ∈ map, entry.2 ≠ []
  scenarios_ne_nil : ∀ entry ∈ map, ∀ sec ∈ entry.2, sec.scenarios ≠ []

end ScenarioMap

/-! ## Lists of sections -/

theorem distinct_cons {sec : Section} {sections : List Section} :
    Distinct (sec :: sections) ↔
      (sec.name ∉ sections.map (·.name) ∧ sec.scenarios.Nodup) ∧ Distinct sections := by
  constructor
  · rintro ⟨hn, hs⟩
    rw [List.map_cons, List.nodup_cons] at hn
    exact ⟨⟨hn.1, hs sec (by simp)⟩, hn.2, fun s h => hs s (by simp [h])⟩
  · rintro ⟨⟨hn, hs⟩, hd⟩
    exact ⟨List.nodup_cons.mpr ⟨hn, hd.names⟩, List.forall_mem_cons.mpr ⟨hs, hd.scenarios⟩⟩

/-! ## Merged sections -/

/-- A scenario is collected under a name if some file lists it there. -/
theorem mem_scenariosNamed_flatten {files : List (List Section)} {name scenario : String} :
    scenario ∈ scenariosNamed files.flatten name ↔
      ∃ sections ∈ files, Lists sections name scenario := by
  simp only [scenariosNamed, Lists, List.mem_flatMap, List.mem_filter, List.mem_flatten, beq_iff_eq]
  constructor
  · rintro ⟨sec, ⟨⟨sections, hs, hsec⟩, hname⟩, h⟩
    exact ⟨sections, hs, sec, hsec, hname, h⟩
  · rintro ⟨sections, hs, sec, hsec, hname, h⟩
    exact ⟨sec, ⟨⟨sections, hs, hsec⟩, hname⟩, h⟩

/-- A merged section has the scenarios that some file lists under its name. -/
theorem mem_scenarios_of_mem_mergeSections {files : List (List Section)} {sec : Section}
    (h : sec ∈ mergeSections files) {scenario : String} :
    scenario ∈ sec.scenarios ↔ ∃ sections ∈ files, Lists sections sec.name scenario := by
  rw [(mem_mergeSections.mp h).1, List.mem_eraseDups, mem_scenariosNamed_flatten]

/-- Merging neither loses nor invents what the files list. -/
theorem lists_mergeSections {files : List (List Section)} {name scenario : String} :
    Lists (mergeSections files) name scenario ↔
      ∃ sections ∈ files, Lists sections name scenario := by
  constructor
  · rintro ⟨sec, hsec, rfl, hmem⟩
    exact (mem_scenarios_of_mem_mergeSections hsec).mp hmem
  · intro hlists
    have hmem := List.mem_eraseDups.mpr (mem_scenariosNamed_flatten.mpr hlists)
    exact ⟨⟨name, _⟩, mem_mergeSections.mpr ⟨rfl, List.ne_nil_of_mem hmem⟩, rfl, hmem⟩

/-- No merged section is there twice, and no scenario is in one of them twice. -/
theorem distinct_mergeSections (files : List (List Section)) : Distinct (mergeSections files) where
  names := by
    rw [mergeSections_eq]
    refine List.Nodup.sublist (List.filter_sublist.map _) ?_
    rw [names_unitedSections]
    exact nodup_eraseDups _
  scenarios sec hsec := by
    rw [(mem_mergeSections.mp hsec).1]
    exact nodup_eraseDups _

/-- No merged section is empty. -/
theorem scenarios_ne_nil_of_mem_mergeSections {files : List (List Section)} {sec : Section}
    (h : sec ∈ mergeSections files) : sec.scenarios ≠ [] :=
  (mem_mergeSections.mp h).2

/-! ## Targets -/

namespace ScenarioMap

/-- Of a list in order, each text is kept once. -/
theorem mem_foldr_dropWhile {l : List String} {t : String} :
    t ∈ l.foldr (fun t rest => t :: rest.dropWhile (· == t)) [] ↔ t ∈ l := by
  induction l with
  | nil => simp
  | cons u l ih =>
    simp only [List.foldr_cons, List.mem_cons]
    generalize l.foldr (fun t rest => t :: rest.dropWhile (· == t)) [] = kept at ih
    rw [← ih]
    constructor
    · rintro (h | h)
      · exact .inl h
      · exact .inr ((List.dropWhile_sublist _).mem h)
    · rintro (h | h)
      · exact .inl h
      · rw [← List.takeWhile_append_dropWhile (p := (· == u)) (l := kept), List.mem_append] at h
        rcases h with h | h
        · exact .inl (by simpa using List.mem_takeWhile_imp h)
        · exact .inr h

/-- Dropping what repeats makes a sorted list strictly sorted. -/
theorem pairwise_foldr_dropWhile {l : List String} (h : l.Pairwise (· ≤ ·)) :
    (l.foldr (fun t rest => t :: rest.dropWhile (· == t)) []).Pairwise (· < ·) := by
  induction l with
  | nil => exact .nil
  | cons u l ih =>
    obtain ⟨hu, hl⟩ := List.pairwise_cons.mp h
    have hmem := fun x => mem_foldr_dropWhile (l := l) (t := x)
    specialize ih hl
    rw [List.foldr_cons]
    generalize l.foldr (fun t rest => t :: rest.dropWhile (· == t)) [] = kept at ih hmem
    refine List.pairwise_cons.mpr ⟨fun x hx => ?_, ih.sublist (List.dropWhile_sublist _)⟩
    have hle : u ≤ x := hu x ((hmem x).mp ((List.dropWhile_sublist _).mem hx))
    refine String.not_le.mp fun hxu => ?_
    obtain rfl := String.le_antisymm hle hxu
    cases kept with
    | nil => simp at hx
    | cons y kept =>
      obtain ⟨hy, hk⟩ := List.pairwise_cons.mp ih
      by_cases hyu : y = u
      · subst hyu
        rw [List.dropWhile_cons_of_pos (by simp)] at hx
        exact String.lt_irrefl _ (hy y ((List.dropWhile_sublist _).mem hx))
      · rw [List.dropWhile_cons_of_neg (by simpa using hyu), List.mem_cons] at hx
        rcases hx with rfl | hx
        · exact hyu rfl
        · exact hu y ((hmem y).mp (by simp)) (hy u hx)

/-- The targets are those of the contributions. -/
theorem mem_targets {contributions : List Contribution} {t : String} :
    t ∈ targets contributions ↔ ∃ c ∈ contributions, c.target = t := by
  rw [targets, mem_foldr_dropWhile, List.mem_mergeSort, List.mem_map]

/-- Targets are sorted, and each is there once. -/
theorem pairwise_targets (contributions : List Contribution) :
    (targets contributions).Pairwise (· < ·) := by
  have hle : ∀ a b : String, (!decide (b < a)) = true ↔ a ≤ b := by
    intro a b
    rw [Bool.not_eq_true', decide_eq_false_iff_not, String.not_lt]
  refine pairwise_foldr_dropWhile ((List.pairwise_mergeSort ?_ ?_ _).imp (hle _ _).mp)
  · intro a b c hab hbc
    rw [hle] at hab hbc ⊢
    exact String.le_trans hab hbc
  · intro a b
    rw [Bool.or_eq_true, hle, hle]
    exact String.le_total a b

/-! ## The map of the contributions -/

/-- A target stands in the map with its merged sections, if there are any. -/
theorem mem_ofContributions {contributions : List Contribution} {entry : String × List Section} :
    entry ∈ ofContributions contributions ↔
      entry.1 ∈ targets contributions ∧
        entry.2 = mergeSections (sectionsFor contributions entry.1) ∧ entry.2 ≠ [] := by
  simp only [ofContributions, List.mem_filter, List.mem_map, Bool.not_eq_true',
    List.isEmpty_eq_false_iff]
  constructor
  · rintro ⟨⟨t, ht, rfl⟩, hne⟩
    exact ⟨ht, rfl, hne⟩
  · rintro ⟨ht, heq, hne⟩
    exact ⟨⟨entry.1, ht, Prod.ext rfl heq.symm⟩, hne⟩

/-- A map of contributions holds exactly what they say. -/
theorem holds_ofContributions {contributions : List Contribution} {t name scenario : String} :
    (ofContributions contributions).Holds t name scenario ↔
      ∃ c ∈ contributions, c.target = t ∧ Lists c.sections name scenario := by
  have hlists : Lists (mergeSections (sectionsFor contributions t)) name scenario ↔
      ∃ c ∈ contributions, c.target = t ∧ Lists c.sections name scenario := by
    rw [lists_mergeSections, sectionsFor]
    simp only [List.mem_map, List.mem_filter, beq_iff_eq]
    constructor
    · rintro ⟨sections, ⟨c, ⟨hc, ht⟩, rfl⟩, h⟩
      exact ⟨c, hc, ht, h⟩
    · rintro ⟨c, hc, ht, h⟩
      exact ⟨c.sections, ⟨c, ⟨hc, ht⟩, rfl⟩, h⟩
  constructor
  · rintro ⟨entry, hentry, rfl, h⟩
    obtain ⟨-, heq, -⟩ := mem_ofContributions.mp hentry
    rw [heq] at h
    exact hlists.mp h
  · intro h
    have hmem := hlists.mpr h
    obtain ⟨c, hc, ht, -⟩ := h
    refine ⟨(t, mergeSections (sectionsFor contributions t)), ?_, rfl, hmem⟩
    obtain ⟨sec, hsec, -⟩ := hmem
    exact mem_ofContributions.mpr ⟨mem_targets.mpr ⟨c, hc, ht⟩, rfl, List.ne_nil_of_mem hsec⟩

/-- Every map of contributions is well formed. -/
theorem wellFormed_ofContributions (contributions : List Contribution) :
    (ofContributions contributions).WellFormed := by
  refine ⟨?_, fun entry h => ?_, fun entry h => (mem_ofContributions.mp h).2.2,
    fun entry h sec hsec => ?_⟩
  · rw [List.pairwise_map]
    refine List.Pairwise.filter _ (List.pairwise_map.mpr ?_)
    exact pairwise_targets contributions
  · rw [(mem_ofContributions.mp h).2.1]
    exact distinct_mergeSections _
  · rw [(mem_ofContributions.mp h).2.1] at hsec
    exact scenarios_ne_nil_of_mem_mergeSections hsec

/-! ## The order of the map -/

/-- The sections of all contributions to a target, in order. -/
def sectionsOf (contributions : List Contribution) (target : String) : List Section :=
  (contributions.filter (·.target == target)).flatMap (·.sections)

/-- The sections of a target are those of all its contributions. -/
theorem flatten_sectionsFor (contributions : List Contribution) (target : String) :
    (sectionsFor contributions target).flatten = sectionsOf contributions target := by
  rw [sectionsFor, sectionsOf, List.flatMap_def]

/-- The targets depend only on what there is for each of them. -/
theorem targets_congr {contributions contributions' : List Contribution}
    (h : ∀ target, contributions.filter (·.target == target) =
      contributions'.filter (·.target == target)) :
    targets contributions = targets contributions' := by
  have hmem : ∀ {cs : List Contribution} {target : String},
      target ∈ targets cs ↔ cs.filter (·.target == target) ≠ [] := by
    intro cs target
    rw [mem_targets, Ne, List.filter_eq_nil_iff]
    simp
  refine (pairwise_targets _).eq_of_mem_iff (pairwise_targets _) fun target => ?_
  rw [hmem, hmem, h]

/-- Targets increase, and each has the sections of its contributions united in order, without those
that are still empty. A target without sections is left out. So the map is the same for
contributions in any order that keeps those to one target in order. -/
theorem ofContributions_inOrder (contributions : List Contribution) :
    ((ofContributions contributions).map Prod.fst).Pairwise (· < ·) ∧
    (∀ target sections, (target, sections) ∈ ofContributions contributions ↔
      sections = (unitedSections (sectionsOf contributions target)).filter (·.scenarios ≠ []) ∧
        sections ≠ []) ∧
    ∀ contributions' : List Contribution,
      (∀ target, contributions.filter (·.target == target) =
        contributions'.filter (·.target == target)) →
      ofContributions contributions = ofContributions contributions' := by
  refine ⟨(wellFormed_ofContributions contributions).increasing, fun target sections => ?_,
    fun contributions' h => ?_⟩
  · rw [mem_ofContributions, mergeSections_eq, flatten_sectionsFor]
    refine and_iff_right_of_imp ?_
    rintro ⟨hsections, hne⟩
    refine mem_targets.mpr ?_
    by_contra hnone
    have hfilter : contributions.filter (·.target == target) = [] := by
      rw [List.filter_eq_nil_iff]
      simpa using hnone
    rw [sectionsOf, hfilter] at hsections
    exact hne hsections
  · rw [ofContributions, ofContributions, targets_congr h]
    simp only [sectionsFor, h]

/-- A name that has no scenario at first keeps its place, and a target that has none is left out. -/
theorem ofContributions_of_interleaved :
    let a : Contribution := ⟨"/a", [⟨"s", []⟩, ⟨"t", ["x", "x"]⟩, ⟨"u", []⟩]⟩
    let b : Contribution := ⟨"/b", [⟨"s", []⟩]⟩
    let a' : Contribution := ⟨"/a", [⟨"t", ["y", "x"]⟩, ⟨"s", ["z"]⟩]⟩
    (∀ target, [b, a, a'].filter (·.target == target) = [a, b, a'].filter (·.target == target)) ∧
      ofContributions [b, a, a'] = ofContributions [a, b, a'] ∧
      ("/a", [⟨"s", ["z"]⟩, ⟨"t", ["x", "y"]⟩]) ∈ ofContributions [b, a, a'] ∧
      ∀ sections, ("/b", sections) ∉ ofContributions [b, a, a'] := by
  intro a b a'
  have hsame : ∀ target,
      [b, a, a'].filter (·.target == target) = [a, b, a'].filter (·.target == target) := by
    intro target
    by_cases ha : "/a" = target
    · subst ha
      rfl
    · simp [a, a', List.filter_cons, ha]
  obtain ⟨-, hmem, hcongr⟩ := ofContributions_inOrder [b, a, a']
  refine ⟨hsame, hcongr _ hsame, (hmem _ _).mpr ⟨by decide +kernel, by decide⟩,
    fun sections h => ?_⟩
  obtain ⟨hsections, hne⟩ := (hmem _ _).mp h
  have hnone : (unitedSections (sectionsOf [b, a, a'] "/b")).filter (·.scenarios ≠ []) = [] := by
    decide +kernel
  exact hne (hsections.trans hnone)

end ScenarioMap

end SuiteScope
