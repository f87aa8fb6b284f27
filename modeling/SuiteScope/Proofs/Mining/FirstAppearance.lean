import SuiteScope.Proofs.FirstOccurrence
import SuiteScope.ScenarioMap

/-!
# What united sections are

`unitedSections` says what uniting a list of sections comes to, without the order in which it is
done : every name once, where it appears first, with the scenarios of all sections of the name, each
where it appears first. Uniting them one by one gives just that (`foldl_uniteSection_nil`), and the
sections that are still empty are dropped only then (`mergeSections_eq`). So a merged section is
told by its name (`mem_mergeSections`).
-/

namespace SuiteScope

/-- The scenarios of all sections of a name, in order, with their repetitions. -/
def scenariosNamed (sections : List Section) (name : String) : List String :=
  (sections.filter (·.name == name)).flatMap (·.scenarios)

/-- The names of the sections in the order in which they appear first, each with the scenarios of
that name in the order in which those appear first. -/
def unitedSections (sections : List Section) : List Section :=
  (sections.map (·.name)).eraseDups.map fun name =>
    ⟨name, (scenariosNamed sections name).eraseDups⟩

/-! ## One more section -/

/-- Scenarios may be put into a section in two parts. -/
theorem ofList_append (name : String) (xs ys : List String) :
    Section.ofList name (xs ++ ys) = (Section.ofList name xs).insertAll ys := by
  rw [Section.ofList, Section.ofList, Section.insertAll, Section.insertAll, Section.insertAll,
    List.foldl_append]

/-- The scenarios of a name are collected part by part. -/
theorem scenariosNamed_append (xs ys : List Section) (name : String) :
    scenariosNamed (xs ++ ys) name = scenariosNamed xs name ++ scenariosNamed ys name := by
  rw [scenariosNamed, List.filter_append, List.flatMap_append, ← scenariosNamed, ← scenariosNamed]

theorem scenariosNamed_singleton (sec : Section) (name : String) :
    scenariosNamed [sec] name = if sec.name = name then sec.scenarios else [] := by
  by_cases h : sec.name = name
  · simp [scenariosNamed, h]
  · simp [scenariosNamed, List.filter_cons_of_neg, h]

/-- A name of no section has no scenarios. -/
theorem scenariosNamed_eq_nil {sections : List Section} {name : String}
    (h : name ∉ sections.map (·.name)) : scenariosNamed sections name = [] := by
  have hnone : sections.filter (·.name == name) = [] :=
    List.filter_eq_nil_iff.mpr fun sec hsec heq =>
      h (List.mem_map.mpr ⟨sec, hsec, by simpa using heq⟩)
  rw [scenariosNamed, hnone, List.flatMap_nil]

/-- A name that is not there goes to the end. -/
theorem uniteSection_of_not_mem {merged : List Section} {sec : Section}
    (h : sec.name ∉ merged.map (·.name)) :
    uniteSection merged sec = merged ++ [Section.ofList sec.name sec.scenarios] := by
  induction merged with
  | nil => rfl
  | cons s merged ih =>
    obtain ⟨hs, hmerged⟩ := not_or.mp (List.mem_cons.not.mp h)
    rw [uniteSection, if_neg (Ne.symm hs), ih hmerged, List.cons_append]

/-- A name that is there keeps its place. -/
theorem uniteSection_of_mem {names : List String} {sec : Section} (hnames : names.Nodup)
    (h : sec.name ∈ names) (f : String → List String) :
    uniteSection (names.map fun name => Section.ofList name (f name)) sec =
      names.map fun name =>
        Section.ofList name (f name ++ if sec.name = name then sec.scenarios else []) := by
  induction names with
  | nil => cases h
  | cons name names ih =>
    obtain ⟨hname, hrest⟩ := List.nodup_cons.mp hnames
    rw [List.map_cons, List.map_cons, uniteSection, Section.name_ofList]
    by_cases heq : name = sec.name
    · subst heq
      have hsame : ∀ other ∈ names, Section.ofList other (f other) =
          Section.ofList other (f other ++ if sec.name = other then sec.scenarios else []) := by
        intro other hother
        have hne : sec.name ≠ other := fun heq => hname (heq ▸ hother)
        rw [if_neg hne, List.append_nil]
      rw [if_pos rfl, if_pos rfl, ← ofList_append, List.map_congr_left hsame]
    · have hmem := (List.mem_cons.mp h).resolve_left (Ne.symm heq)
      rw [if_neg heq, if_neg (Ne.symm heq), List.append_nil, ih hrest hmem]

/-! ## All sections -/

/-- Sections that are united one by one are united in order of first appearance. -/
theorem foldl_uniteSection_nil (sections : List Section) :
    sections.foldl uniteSection [] = unitedSections sections := by
  simp only [unitedSections, ← Section.ofList_eq]
  induction sections using List.reverseRecOn with
  | nil => rfl
  | append_singleton sections sec ih =>
    rw [List.foldl_append, ih, List.foldl_cons, List.foldl_nil, List.map_append, List.map_singleton,
      eraseDups_concat]
    simp only [scenariosNamed_append, scenariosNamed_singleton]
    split
    next hmem =>
      rw [List.contains_iff_mem, ← List.mem_eraseDups] at hmem
      exact uniteSection_of_mem (nodup_eraseDups _) hmem _
    next hmem =>
      rw [List.contains_iff_mem] at hmem
      have hnew : sec.name ∉ ((sections.map (·.name)).eraseDups.map fun name =>
          Section.ofList name (scenariosNamed sections name)).map (·.name) := by
        simpa [Function.comp_def] using hmem
      have hold : ∀ name ∈ (sections.map (·.name)).eraseDups,
          Section.ofList name (scenariosNamed sections name) =
            Section.ofList name (scenariosNamed sections name ++
              if sec.name = name then sec.scenarios else []) := by
        intro name hname
        have hne : sec.name ≠ name := fun heq => hmem (heq ▸ List.mem_eraseDups.mp hname)
        rw [if_neg hne, List.append_nil]
      rw [uniteSection_of_not_mem hnew, List.map_append, List.map_congr_left hold,
        List.map_singleton, scenariosNamed_eq_nil hmem, if_pos rfl, List.nil_append]

/-- The sections of several files, with those left out that no file has a scenario for. -/
theorem mergeSections_eq (files : List (List Section)) :
    mergeSections files = (unitedSections files.flatten).filter (·.scenarios ≠ []) := by
  rw [mergeSections, foldl_uniteSection_nil]
  refine List.filter_congr fun sec _ => ?_
  rw [Section.isEmpty, Bool.eq_iff_iff]
  simp

/-- The names of united sections stand in order of first appearance. -/
theorem names_unitedSections (sections : List Section) :
    (unitedSections sections).map (·.name) = (sections.map (·.name)).eraseDups := by
  simp [unitedSections, Function.comp_def]

/-- A merged section has all scenarios of its name, and there are some. -/
theorem mem_mergeSections {files : List (List Section)} {sec : Section} :
    sec ∈ mergeSections files ↔
      sec.scenarios = (scenariosNamed files.flatten sec.name).eraseDups ∧ sec.scenarios ≠ [] := by
  rw [mergeSections_eq, List.mem_filter, decide_eq_true_iff]
  refine and_congr_left fun hne => ?_
  rw [unitedSections, List.mem_map]
  constructor
  · rintro ⟨name, -, rfl⟩
    rfl
  · intro hscenarios
    refine ⟨sec.name, List.mem_eraseDups.mpr ?_, by rw [← hscenarios]⟩
    by_contra hname
    rw [scenariosNamed_eq_nil hname, List.eraseDups_nil] at hscenarios
    exact hne hscenarios

end SuiteScope
