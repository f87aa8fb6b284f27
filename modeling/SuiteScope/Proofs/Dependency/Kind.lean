import Mathlib.Data.List.Basic
import SuiteScope.Target

/-!
# Kinds of dependencies

A dependency that is written as a relative path is one, whatever aliases there are. Any other belongs
to the longest of the aliases that it starts with, and names a package if it starts with none
(`Resolver.classify_spec`).

The search takes the first alias in an order that compares sizes in bytes, and says nothing on aliases
of one size. But of two beginnings of one text the longer starts with the shorter
(`append_eq_of_utf8ByteSize_le`), and so no two of them are equally long.
-/

namespace SuiteScope

namespace Resolver

/-- Written as a path from the directory of the importing file. -/
inductive WrittenRelative : String → Prop
  | here : WrittenRelative "."
  | above : WrittenRelative ".."
  | fromHere (rest : String) : WrittenRelative ("./" ++ rest)
  | fromAbove (rest : String) : WrittenRelative ("../" ++ rest)

/-- One of `aliases` with which a dependency starts, no shorter than any other of them. -/
structure LongestAlias (aliases : List (String × String)) (dependency start base rest : String) :
    Prop where
  mem : (start, base) ∈ aliases
  split : start ++ rest = dependency
  longest : ∀ other ∈ aliases, ∀ rest', other.1 ++ rest' = dependency →
    other.1.length ≤ start.length

/-- The aliases of the longest beginnings come first. -/
def LongestFirst (aliases : List (String × String)) : Prop :=
  aliases.Pairwise fun a b => b.1.utf8ByteSize ≤ a.1.utf8ByteSize

/-! ## Beginnings of a text -/

/-- What follows a start is what has to be added to it. -/
theorem isPrefixOf?_toList_eq_some_iff {start text : String} {rest : List Char} :
    start.toList.isPrefixOf? text.toList = some rest ↔ start ++ String.ofList rest = text := by
  rw [List.isPrefixOf?_eq_some_iff_append_eq, ← String.toList_inj, String.toList_append,
    String.toList_ofList]

/-- A text starts with another one if something can be added to that. -/
theorem isPrefixOf_toList_iff {start text : String} :
    start.toList.isPrefixOf text.toList = true ↔ ∃ rest, start ++ rest = text := by
  rw [List.isPrefixOf_iff_prefix]
  constructor
  · rintro ⟨rest, hrest⟩
    exact ⟨String.ofList rest, by rw [← String.toList_inj]; simpa using hrest⟩
  · rintro ⟨rest, rfl⟩
    exact ⟨rest.toList, by simp⟩

/-- Of two beginnings of one text the longer starts with the shorter. -/
theorem append_eq_of_utf8ByteSize_le {start start' rest rest' : String}
    (heq : start ++ rest = start' ++ rest') (hle : start.utf8ByteSize ≤ start'.utf8ByteSize) :
    ∃ gap, start' = start ++ gap := by
  have hlist : start.toList ++ rest.toList = start'.toList ++ rest'.toList := by
    rw [← String.toList_append, heq, String.toList_append]
  rcases List.append_eq_append_iff.mp hlist with ⟨gap, hgap, -⟩ | ⟨gap, hgap, -⟩
  · exact ⟨String.ofList gap, by rw [← String.toList_inj]; simpa using hgap⟩
  · have hstart : start = start' ++ String.ofList gap := by
      rw [← String.toList_inj]
      simpa using hgap
    rw [hstart, String.utf8ByteSize_append] at hle
    have hnil : String.ofList gap = "" := String.utf8ByteSize_eq_zero_iff.mp (by omega)
    exact ⟨"", by rw [hstart, hnil, String.append_empty, String.append_empty]⟩

/-! ## The first alias that fits -/

/-- A dependency is relative exactly if it is written so. -/
theorem isRelative_iff {dependency : String} :
    isRelative dependency = true ↔ WrittenRelative dependency := by
  simp only [isRelative, Bool.or_eq_true, beq_iff_eq, isPrefixOf_toList_iff]
  constructor
  · rintro (((rfl | rfl) | ⟨rest, rfl⟩) | ⟨rest, rfl⟩)
    · exact .here
    · exact .above
    · exact .fromHere rest
    · exact .fromAbove rest
  · rintro (_ | _ | rest | rest)
    · exact .inl (.inl (.inl rfl))
    · exact .inl (.inl (.inr rfl))
    · exact .inl (.inr ⟨rest, rfl⟩)
    · exact .inr ⟨rest, rfl⟩

/-- The first alias that fits is taken. -/
theorem aliased?_cons_of_fit {start base rest dependency : String} (h : start ++ rest = dependency)
    (aliases : List (String × String)) :
    aliased? dependency ((start, base) :: aliases) = some (base, rest) := by
  have hfit := (@isPrefixOf?_toList_eq_some_iff start dependency rest.toList).mpr (by simpa using h)
  rw [aliased?, hfit]
  simp

/-- An alias that does not fit is passed over. -/
theorem aliased?_cons_of_unfit {start dependency : String}
    (h : ∀ rest, start ++ rest ≠ dependency) (base : String) (aliases : List (String × String)) :
    aliased? dependency ((start, base) :: aliases) = aliased? dependency aliases := by
  have hunfit : start.toList.isPrefixOf? dependency.toList = none :=
    Option.eq_none_iff_forall_ne_some.mpr fun rest hrest =>
      h _ (isPrefixOf?_toList_eq_some_iff.mp hrest)
  rw [aliased?, hunfit]

/-- Nothing is aliased exactly if no alias fits. -/
theorem aliased?_eq_none_iff {dependency : String} {aliases : List (String × String)} :
    aliased? dependency aliases = none ↔
      ∀ entry ∈ aliases, ∀ rest, entry.1 ++ rest ≠ dependency := by
  induction aliases with
  | nil => simp [aliased?]
  | cons entry aliases ih =>
    obtain ⟨start, base⟩ := entry
    rw [List.forall_mem_cons]
    by_cases hfit : ∃ rest, start ++ rest = dependency
    · obtain ⟨rest, hrest⟩ := hfit
      rw [aliased?_cons_of_fit hrest]
      exact ⟨nofun, fun h => absurd hrest (h.1 rest)⟩
    · rw [not_exists] at hfit
      rw [aliased?_cons_of_unfit hfit, ih]
      exact ⟨fun h => ⟨hfit, h⟩, fun h => h.2⟩

/-- What is found is one of the aliases, and the dependency starts with it. -/
theorem exists_of_aliased? {dependency base rest : String} {aliases : List (String × String)}
    (h : aliased? dependency aliases = some (base, rest)) :
    ∃ start, (start, base) ∈ aliases ∧ start ++ rest = dependency := by
  induction aliases with
  | nil => cases h
  | cons entry aliases ih =>
    obtain ⟨start, base'⟩ := entry
    by_cases hfit : ∃ rest, start ++ rest = dependency
    · obtain ⟨rest', hrest⟩ := hfit
      rw [aliased?_cons_of_fit hrest] at h
      obtain ⟨rfl, rfl⟩ := Prod.mk.inj (Option.some.inj h)
      exact ⟨start, List.mem_cons_self, hrest⟩
    · rw [not_exists] at hfit
      rw [aliased?_cons_of_unfit hfit] at h
      obtain ⟨start', hmem, hsplit⟩ := ih h
      exact ⟨start', List.mem_cons_of_mem _ hmem, hsplit⟩

/-- An alias that does not fit is no matter for the longest one. -/
theorem longestAlias_cons_of_unfit {start dependency : String}
    (h : ∀ rest, start ++ rest ≠ dependency) {base start' base' rest' : String}
    {aliases : List (String × String)} :
    LongestAlias ((start, base) :: aliases) dependency start' base' rest' ↔
      LongestAlias aliases dependency start' base' rest' := by
  constructor
  · intro hlongest
    refine ⟨(List.mem_cons.mp hlongest.mem).resolve_left ?_, hlongest.split,
      fun other hother => hlongest.longest other (List.mem_cons_of_mem _ hother)⟩
    intro heq
    obtain ⟨rfl, rfl⟩ := Prod.mk.inj heq
    exact h rest' hlongest.split
  · intro hlongest
    refine ⟨List.mem_cons_of_mem _ hlongest.mem, hlongest.split, fun other hother rest hrest => ?_⟩
    rcases List.mem_cons.mp hother with rfl | hother
    · exact absurd hrest (h rest)
    · exact hlongest.longest other hother rest hrest

/-- An alias that fits is the longest one if those behind it are no longer and start differently. -/
theorem longestAlias_cons_of_fit {start rest dependency : String} (h : start ++ rest = dependency)
    {base start' base' rest' : String} {aliases : List (String × String)}
    (hnew : start ∉ aliases.map Prod.fst)
    (hle : ∀ other ∈ aliases, other.1.utf8ByteSize ≤ start.utf8ByteSize) :
    LongestAlias ((start, base) :: aliases) dependency start' base' rest' ↔
      start' = start ∧ base' = base ∧ rest' = rest := by
  have hlonger : ∀ other ∈ aliases, ∀ left, other.1 ++ left = dependency →
      ∃ gap, start = other.1 ++ gap := fun other hother left hleft =>
    append_eq_of_utf8ByteSize_le (hleft.trans h.symm) (hle other hother)
  constructor
  · intro hlongest
    rcases List.mem_cons.mp hlongest.mem with heq | htail
    · obtain ⟨rfl, rfl⟩ := Prod.mk.inj heq
      exact ⟨rfl, rfl, (String.append_right_inj start').mp (hlongest.split.trans h.symm)⟩
    · obtain ⟨gap, rfl⟩ := hlonger _ htail rest' hlongest.split
      have hlength := hlongest.longest (start' ++ gap, base) List.mem_cons_self rest h
      rw [String.length_append] at hlength
      have hgap : gap = "" := String.length_eq_zero_iff.mp (by omega)
      rw [hgap, String.append_empty] at hnew
      exact absurd (List.mem_map.mpr ⟨_, htail, rfl⟩) hnew
  · rintro ⟨rfl, rfl, rfl⟩
    refine ⟨List.mem_cons_self, h, fun other hother left hleft => ?_⟩
    rcases List.mem_cons.mp hother with rfl | hother
    · exact Nat.le_refl _
    · obtain ⟨gap, hgap⟩ := hlonger other hother left hleft
      rw [hgap, String.length_append]
      exact Nat.le_add_right _ _

/-- The first alias that fits is the longest, if longer ones come first. -/
theorem aliased?_eq_some_iff {dependency base rest : String} {aliases : List (String × String)}
    (hnodup : (aliases.map Prod.fst).Nodup) (hsorted : LongestFirst aliases) :
    aliased? dependency aliases = some (base, rest) ↔
      ∃ start, LongestAlias aliases dependency start base rest := by
  induction aliases with
  | nil => exact ⟨nofun, fun ⟨_, h⟩ => nomatch h.mem⟩
  | cons entry aliases ih =>
    obtain ⟨start, base'⟩ := entry
    obtain ⟨hnew, hnodup⟩ := List.nodup_cons.mp hnodup
    obtain ⟨hle, hsorted⟩ := List.pairwise_cons.mp hsorted
    by_cases hfit : ∃ left, start ++ left = dependency
    · obtain ⟨left, hleft⟩ := hfit
      rw [aliased?_cons_of_fit hleft]
      constructor
      · intro heq
        obtain ⟨rfl, rfl⟩ := Prod.mk.inj (Option.some.inj heq)
        exact ⟨start, (longestAlias_cons_of_fit hleft hnew hle).mpr ⟨rfl, rfl, rfl⟩⟩
      · rintro ⟨start', hlongest⟩
        obtain ⟨-, rfl, rfl⟩ := (longestAlias_cons_of_fit hleft hnew hle).mp hlongest
        rfl
    · rw [not_exists] at hfit
      rw [aliased?_cons_of_unfit hfit, ih hnodup hsorted]
      exact exists_congr fun start' => (longestAlias_cons_of_unfit hfit).symm

/-! ## Classification -/

/-- Which alias is the longest does not depend on their order. -/
theorem LongestAlias.of_perm {aliases aliases' : List (String × String)}
    {dependency start base rest : String} (hperm : aliases.Perm aliases')
    (h : LongestAlias aliases dependency start base rest) :
    LongestAlias aliases' dependency start base rest :=
  ⟨hperm.mem_iff.mp h.mem, h.split, fun other hother => h.longest other (hperm.mem_iff.mpr hother)⟩

/-- Aliases are tried in the order of their lengths. -/
theorem longestFirst_aliasesByLength (settings : MiningSettings) :
    LongestFirst (aliasesByLength settings) := by
  have hsorted : (aliasesByLength settings).Pairwise fun a b =>
      decide (b.1.utf8ByteSize ≤ a.1.utf8ByteSize) = true :=
    List.pairwise_mergeSort (fun a b c hab hbc => by simp only [decide_eq_true_eq] at *; omega)
      (fun a b => by simp only [Bool.or_eq_true, decide_eq_true_eq]; omega) settings.aliases
  exact hsorted.imp fun h => of_decide_eq_true h

/-- Every order that has the longest beginnings first finds the same alias. -/
theorem aliased?_eq_of_perm {dependency : String} {aliases aliases' : List (String × String)}
    (hnodup : (aliases.map Prod.fst).Nodup) (hperm : aliases.Perm aliases')
    (hsorted : LongestFirst aliases) (hsorted' : LongestFirst aliases') :
    aliased? dependency aliases = aliased? dependency aliases' := by
  have hnodup' := (hperm.map Prod.fst).nodup_iff.mp hnodup
  refine Option.ext fun ⟨base, rest⟩ => ?_
  rw [aliased?_eq_some_iff hnodup hsorted, aliased?_eq_some_iff hnodup' hsorted']
  exact ⟨fun ⟨start, h⟩ => ⟨start, h.of_perm hperm⟩, fun ⟨start, h⟩ => ⟨start, h.of_perm hperm.symm⟩⟩

variable {r : Resolver} {dependency : String}

/-- What is written as a relative dependency is taken for one, whatever the aliases are. -/
theorem classify_eq_relative_iff :
    r.classify dependency = .relative ↔ WrittenRelative dependency := by
  rw [← isRelative_iff, classify]
  split
  next h => exact ⟨fun _ => h, fun _ => rfl⟩
  next h =>
    refine ⟨fun heq => ?_, fun heq => absurd heq h⟩
    split at heq <;> cases heq

/-- All others are aliased or external. -/
theorem classify_of_not_writtenRelative (h : ¬WrittenRelative dependency) :
    r.classify dependency =
      (aliased? dependency (aliasesByLength r.settings)).elim .external fun found =>
        .aliased found.1 found.2 := by
  rw [classify, if_neg (by rwa [isRelative_iff])]
  cases aliased? dependency (aliasesByLength r.settings) <;> rfl

/-- An aliased dependency starts with its alias. -/
theorem exists_of_classify_eq_aliased {base rest : String}
    (h : r.classify dependency = .aliased base rest) :
    ∃ start, (start, base) ∈ r.settings.aliases ∧ start ++ rest = dependency := by
  have hrelative : ¬WrittenRelative dependency := fun hrelative => by
    rw [classify_eq_relative_iff.mpr hrelative] at h
    cases h
  rw [classify_of_not_writtenRelative hrelative] at h
  cases hfound : aliased? dependency (aliasesByLength r.settings) with
  | none => rw [hfound] at h; cases h
  | some found =>
    rw [hfound] at h
    obtain ⟨rfl, rfl⟩ := Dependency.aliased.inj h
    obtain ⟨start, hmem, hsplit⟩ := exists_of_aliased? hfound
    exact ⟨start, List.mem_mergeSort.mp hmem, hsplit⟩

/-- A dependency is relative if it is written so, else it belongs to the longest alias that it starts
with, else it is a package. An order of the aliases that has the longest first finds that alias,
whichever of two equally long ones is tried before the other. -/
theorem classify_spec (hmap : (r.settings.aliases.map Prod.fst).Nodup) :
    (r.classify dependency = .relative ↔ WrittenRelative dependency) ∧
      (∀ base rest, r.classify dependency = .aliased base rest ↔
        ¬WrittenRelative dependency ∧
          ∃ start, LongestAlias r.settings.aliases dependency start base rest) ∧
      (r.classify dependency = .external ↔
        ¬WrittenRelative dependency ∧
          ∀ entry ∈ r.settings.aliases, ∀ rest, entry.1 ++ rest ≠ dependency) ∧
      ∀ order, order.Perm r.settings.aliases → LongestFirst order →
        aliased? dependency order = aliased? dependency (aliasesByLength r.settings) := by
  have hperm : (aliasesByLength r.settings).Perm r.settings.aliases := List.mergeSort_perm _ _
  have hnodup := (hperm.map Prod.fst).nodup_iff.mpr hmap
  have hsorted := longestFirst_aliasesByLength r.settings
  refine ⟨classify_eq_relative_iff, fun base rest => ?_, ?_, fun order horder hfirst => ?_⟩
  · by_cases hrelative : WrittenRelative dependency
    · rw [classify_eq_relative_iff.mpr hrelative]
      exact ⟨nofun, fun h => absurd hrelative h.1⟩
    · have hfound : (∃ start, LongestAlias r.settings.aliases dependency start base rest) ↔
          aliased? dependency (aliasesByLength r.settings) = some (base, rest) := by
        rw [aliased?_eq_some_iff hnodup hsorted]
        exact ⟨fun ⟨start, h⟩ => ⟨start, h.of_perm hperm.symm⟩,
          fun ⟨start, h⟩ => ⟨start, h.of_perm hperm⟩⟩
      rw [classify_of_not_writtenRelative hrelative, hfound]
      cases aliased? dependency (aliasesByLength r.settings) with
      | none => simp
      | some found => simp [hrelative, Prod.ext_iff]
  · by_cases hrelative : WrittenRelative dependency
    · rw [classify_eq_relative_iff.mpr hrelative]
      exact ⟨nofun, fun h => absurd hrelative h.1⟩
    · have hnone : (∀ entry ∈ r.settings.aliases, ∀ rest, entry.1 ++ rest ≠ dependency) ↔
          aliased? dependency (aliasesByLength r.settings) = none := by
        rw [aliased?_eq_none_iff]
        exact forall_congr' fun entry => by rw [hperm.mem_iff]
      rw [classify_of_not_writtenRelative hrelative, hnone]
      cases aliased? dependency (aliasesByLength r.settings) <;> simp [hrelative]
  · exact aliased?_eq_of_perm ((horder.map Prod.fst).nodup_iff.mpr hmap) (horder.trans hperm.symm)
      hfirst hsorted

/-- Aliases of which one starts with another, two of one size, and one that looks like a relative
path. -/
def nestedAliases : List (String × String) :=
  [("..", "up"), ("@", "lib"), ("@/", "src"), ("é", "accent")]

/-- The longest alias is taken, also from behind a shorter one. -/
theorem classify_of_nested_alias :
    (nestedAliases.map Prod.fst).Nodup ∧
      classify ⟨.ofString "/p", { aliases := nestedAliases }⟩ "@/a" = .aliased "src" "a" := by
  have hmap : (nestedAliases.map Prod.fst).Nodup := by decide
  have hunwritten : ¬WrittenRelative "@/a" := by
    rw [← isRelative_iff]
    decide
  refine ⟨hmap, ((classify_spec hmap).2.1 "src" "a").mpr ⟨hunwritten, "@/", ?_, rfl, ?_⟩⟩
  · decide
  · intro other hother rest' hrest
    simp only [nestedAliases, List.mem_cons, List.not_mem_nil, or_false] at hother
    rcases hother with rfl | rfl | rfl | rfl
    all_goals decide

end Resolver

end SuiteScope
