import Mathlib.Data.Finset.Basic
import SuiteScope.Proofs.Mining.Merge

/-!
# Merging as a union

The order of merged sections is that of their files, so files in another order may give another
list. As a set of names with sets of scenarios (`asSet`) it is the same : the set is told by what
the files list (`mem_asSet_mergeSections`). Merging what is merged already changes nothing
(`mergeSections_singleton`), nor does giving every file twice (`unitedSections_append_self`).
-/

namespace SuiteScope

/-- The names of the sections, each with the set of its scenarios. -/
def asSet (sections : List Section) : Finset (String × Finset String) :=
  (sections.map fun sec => (sec.name, sec.scenarios.toFinset)).toFinset

/-- The files in any order, each with its sections in any order. -/
def Rearranged (files files' : List (List Section)) : Prop :=
  ∃ moved, files.Perm moved ∧ List.Forall₂ List.Perm moved files'

/-! ## Sets -/

/-- A name is in the merged set with all scenarios that some file lists for it, if there are any. -/
theorem mem_asSet_mergeSections {files : List (List Section)} {name : String}
    {scenarios : Finset String} :
    (name, scenarios) ∈ asSet (mergeSections files) ↔ scenarios.Nonempty ∧
      ∀ scenario, scenario ∈ scenarios ↔ ∃ sections ∈ files, Lists sections name scenario := by
  simp only [asSet, List.mem_toFinset, List.mem_map, Prod.mk.injEq]
  constructor
  · rintro ⟨sec, hsec, rfl, rfl⟩
    refine ⟨(List.toFinset_nonempty_iff _).mpr (scenarios_ne_nil_of_mem_mergeSections hsec),
      fun scenario => ?_⟩
    rw [List.mem_toFinset, mem_scenarios_of_mem_mergeSections hsec]
  · rintro ⟨⟨scenario, hscenario⟩, hiff⟩
    obtain ⟨sec, hsec, rfl, -⟩ := lists_mergeSections.mpr ((hiff scenario).mp hscenario)
    refine ⟨sec, hsec, rfl, Finset.ext fun s => ?_⟩
    rw [List.mem_toFinset, mem_scenarios_of_mem_mergeSections hsec, hiff]

/-- Files that list the same merge to the same set. -/
theorem asSet_mergeSections_congr {files files' : List (List Section)}
    (h : ∀ name scenario, (∃ sections ∈ files, Lists sections name scenario) ↔
      ∃ sections ∈ files', Lists sections name scenario) :
    asSet (mergeSections files) = asSet (mergeSections files') := by
  ext ⟨name, scenarios⟩
  simp only [mem_asSet_mergeSections, h]

/-- What sections list does not depend on their order. -/
theorem lists_of_perm {sections sections' : List Section} (h : sections.Perm sections')
    {name scenario : String} :
    Lists sections name scenario ↔ Lists sections' name scenario := by
  simp only [Lists, h.mem_iff]

/-- What files list does not depend on the order of anything. -/
theorem Rearranged.lists_iff {files files' : List (List Section)} (h : Rearranged files files')
    (name scenario : String) : (∃ sections ∈ files, Lists sections name scenario) ↔
      ∃ sections ∈ files', Lists sections name scenario := by
  obtain ⟨moved, hmoved, hfiles⟩ := h
  simp only [hmoved.mem_iff]
  clear hmoved
  induction hfiles with
  | nil => rfl
  | cons hperm _ ih =>
    rw [List.exists_mem_cons_iff, List.exists_mem_cons_iff, lists_of_perm hperm, ih]

/-! ## Lists -/

/-- Where no name is there twice, a section has all scenarios of its name. -/
theorem scenariosNamed_of_distinct {sections : List Section} (h : Distinct sections) :
    ∀ sec ∈ sections, scenariosNamed sections sec.name = sec.scenarios := by
  induction sections with
  | nil => simp
  | cons s sections ih =>
    obtain ⟨⟨hs, -⟩, hrest⟩ := distinct_cons.mp h
    intro sec hsec
    rw [← List.singleton_append, scenariosNamed_append, scenariosNamed_singleton]
    rcases List.mem_cons.mp hsec with rfl | hsec
    · rw [if_pos rfl, scenariosNamed_eq_nil hs, List.append_nil]
    · have hne : s.name ≠ sec.name := fun heq => hs (heq ▸ List.mem_map_of_mem hsec)
      rw [if_neg hne, List.nil_append, ih hrest sec hsec]

/-- Distinct sections without empty ones are merged already. -/
theorem mergeSections_singleton {sections : List Section} (h : Distinct sections)
    (hne : ∀ sec ∈ sections, sec.scenarios ≠ []) : mergeSections [sections] = sections := by
  have hunited : unitedSections sections = sections := by
    have hsame : ∀ sec ∈ sections,
        (⟨sec.name, (scenariosNamed sections sec.name).eraseDups⟩ : Section) = sec := by
      intro sec hsec
      rw [scenariosNamed_of_distinct h sec hsec, eraseDups_of_nodup (h.scenarios sec hsec)]
    rw [unitedSections, eraseDups_of_nodup h.names, List.map_map]
    exact (List.map_congr_left hsame).trans (List.map_id sections)
  rw [mergeSections_eq, List.flatten_singleton, hunited, List.filter_eq_self]
  simpa using hne

/-- Sections that come again change nothing. -/
theorem unitedSections_append_self (sections : List Section) :
    unitedSections (sections ++ sections) = unitedSections sections := by
  simp only [unitedSections, List.map_append, eraseDups_append_self, scenariosNamed_append]

/-- Merging is a union : as a set it does not depend on the order of files and sections, nor on
stages, and to merge once more, or every file twice, does not change the list. -/
theorem mergeSections_union (xs ys : List (List Section)) :
    (∀ xs', Rearranged xs xs' → asSet (mergeSections xs) = asSet (mergeSections xs')) ∧
    (mergeSections [mergeSections xs] = mergeSections xs ∧
      mergeSections (xs ++ xs) = mergeSections xs) ∧
    asSet (mergeSections [mergeSections xs, mergeSections ys]) = asSet (mergeSections (xs ++ ys)) := by
  refine ⟨fun xs' h => asSet_mergeSections_congr h.lists_iff, ⟨?_, ?_⟩, ?_⟩
  · exact mergeSections_singleton (distinct_mergeSections xs)
      fun sec => scenarios_ne_nil_of_mem_mergeSections
  · rw [mergeSections_eq, List.flatten_append, unitedSections_append_self, ← mergeSections_eq]
  · refine asSet_mergeSections_congr fun name scenario => ?_
    simp [lists_mergeSections, or_and_right, exists_or]

/-- Another order gives another list with the same set. -/
theorem mergeSections_of_swapped_files :
    let a : List Section := [⟨"s", ["1", "2"]⟩, ⟨"t", ["x"]⟩]
    let b : List Section := [⟨"t", ["y", "x"]⟩, ⟨"u", []⟩, ⟨"s", ["3"]⟩]
    let a' : List Section := [⟨"t", ["x"]⟩, ⟨"s", ["1", "2"]⟩]
    Rearranged [a, b] [b, a'] ∧ mergeSections [a, b] ≠ mergeSections [b, a'] ∧
      asSet (mergeSections [a, b]) = asSet (mergeSections [b, a']) := by
  intro a b a'
  have hmoved : Rearranged [a, b] [b, a'] :=
    ⟨[b, a], .swap b a [], .cons (.refl b) (.cons (.swap _ _ []) .nil)⟩
  exact ⟨hmoved, by decide +kernel, (mergeSections_union [a, b] []).1 [b, a'] hmoved⟩

end SuiteScope
