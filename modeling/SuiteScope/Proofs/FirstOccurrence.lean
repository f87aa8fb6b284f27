import Mathlib.Data.List.Induction
import SuiteScope.Section

/-!
# First occurrences

The scenarios of a section and the imports of a source are collected in order, each added unless it
is there already. What comes out is the list without its later repetitions, `List.eraseDups`
(`eraseDups_eq_foldl`). Repetitions can be taken out of a part of the list first
(`eraseDups_append_eraseDups`, `eraseDups_eraseDups_append`).
-/

namespace SuiteScope

section

variable {α : Type} [BEq α] [LawfulBEq α]

/-- The last element counts if it is the only one of its kind. -/
theorem eraseDups_concat (l : List α) (x : α) :
    (l ++ [x]).eraseDups = if l.contains x then l.eraseDups else l.eraseDups ++ [x] := by
  rw [List.eraseDups_append, List.removeAll]
  by_cases hx : x ∈ l <;> simp [hx, List.eraseDups_cons]

/-- First occurrences are collected in a loop over the list. -/
theorem eraseDups_eq_foldl (l : List α) :
    l.eraseDups = l.foldl (fun seen x => if seen.contains x then seen else seen ++ [x]) [] := by
  induction l using List.reverseRecOn with
  | nil => rfl
  | append_singleton l x ih =>
    rw [List.foldl_append, ← ih, eraseDups_concat]
    simp

/-- No value is there twice. -/
theorem nodup_eraseDups (l : List α) : l.eraseDups.Nodup := by
  induction l using List.reverseRecOn with
  | nil => exact List.nodup_nil
  | append_singleton l x ih =>
    rw [eraseDups_concat]
    split
    next => exact ih
    next hx =>
      refine List.nodup_append.mpr ⟨ih, by simp, fun y hy z hz heq => hx ?_⟩
      rw [List.contains_iff_mem, ← List.mem_singleton.mp hz, ← heq]
      exact List.mem_eraseDups.mp hy

/-- There is nothing to take out of a list without repetitions. -/
theorem eraseDups_of_nodup {l : List α} (h : l.Nodup) : l.eraseDups = l := by
  induction l using List.reverseRecOn with
  | nil => rfl
  | append_singleton l x ih =>
    obtain ⟨hl, -, hdisjoint⟩ := List.nodup_append.mp h
    have hx : x ∉ l := fun hmem => hdisjoint x hmem x (List.mem_singleton.mpr rfl) rfl
    rw [eraseDups_concat, ih hl, if_neg (by rwa [List.contains_iff_mem])]

/-- Written twice, a list has the same first occurrences. -/
theorem eraseDups_append_self (l : List α) : (l ++ l).eraseDups = l.eraseDups := by
  have hnone : l.removeAll l = [] := by simp [List.removeAll]
  rw [List.eraseDups_append, hnone, List.eraseDups_nil, List.append_nil]

/-- Values that occur again may be left out at the end beforehand. -/
theorem eraseDups_append_eraseDups (xs ys : List α) :
    (xs ++ ys.eraseDups).eraseDups = (xs ++ ys).eraseDups := by
  induction ys using List.reverseRecOn with
  | nil => rfl
  | append_singleton ys y ih =>
    rw [← List.append_assoc, eraseDups_concat (xs ++ ys), ← ih, eraseDups_concat ys]
    by_cases hy : y ∈ ys
    · simp [hy]
    · simp [hy, ← List.append_assoc, eraseDups_concat]

/-- So they may be at the start. -/
theorem eraseDups_eraseDups_append (xs ys : List α) :
    (xs.eraseDups ++ ys).eraseDups = (xs ++ ys).eraseDups := by
  induction ys using List.reverseRecOn with
  | nil => simpa using eraseDups_append_eraseDups [] xs
  | append_singleton ys y ih =>
    rw [← List.append_assoc, ← List.append_assoc, eraseDups_concat, eraseDups_concat, ih]
    simp

end

namespace Section

/-- A section made of a list keeps the first occurrences. -/
theorem scenarios_ofList (name : String) (scenarios : List String) :
    (ofList name scenarios).scenarios = scenarios.eraseDups := by
  rw [eraseDups_eq_foldl, ofList, insertAll]
  induction scenarios using List.reverseRecOn with
  | nil => rfl
  | append_singleton scenarios x ih =>
    rw [List.foldl_append, List.foldl_append, ← ih, List.foldl_cons, List.foldl_cons, insert,
      contains]
    split <;> rfl

@[simp]
theorem name_insertAll (sec : Section) (scenarios : List String) :
    (sec.insertAll scenarios).name = sec.name := by
  unfold insertAll
  induction scenarios generalizing sec with
  | nil => rfl
  | cons s scenarios ih => rw [List.foldl_cons, ih, name_insert]

@[simp]
theorem name_ofList (name : String) (scenarios : List String) :
    (ofList name scenarios).name = name := by
  simp [ofList]

/-- A section of a list has each scenario once, in the order of first occurrences. -/
theorem ofList_eq (name : String) (scenarios : List String) :
    ofList name scenarios = ⟨name, scenarios.eraseDups⟩ := by
  rw [← scenarios_ofList name scenarios]
  exact congrArg (Section.mk · _) (name_ofList name scenarios)

/-- No scenario is lost or added. -/
@[simp]
theorem mem_scenarios_ofList {name : String} {scenarios : List String} {x : String} :
    x ∈ (ofList name scenarios).scenarios ↔ x ∈ scenarios := by
  rw [scenarios_ofList, List.mem_eraseDups]

/-- No scenario is there twice. -/
theorem nodup_ofList (name : String) (scenarios : List String) :
    (ofList name scenarios).scenarios.Nodup := by
  rw [scenarios_ofList]
  exact nodup_eraseDups scenarios

end Section

end SuiteScope
