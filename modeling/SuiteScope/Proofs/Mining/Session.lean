import SuiteScope.Proofs.Mining.Coherence
import SuiteScope.Proofs.Mining.Merge

/-!
# What a session mines

A file contributes to a target exactly when one of its imports resolves to the target
(`mem_contributed`). `holds_mine` describes the map of a session over a new cache : it holds what
the sections of the readable files say about the targets of their imports, it is well formed, and
it depends on the set of the readable files alone.
-/

namespace SuiteScope.Session

/-- Membership in what a fold gathers, where one step adds `x` exactly if `P` holds. -/
theorem mem_foldl_iff {α β : Type} {step : List β → α → List β} {x : β} {P : α → Prop}
    (h : ∀ found a, x ∈ step found a ↔ x ∈ found ∨ P a) (l : List α) (found : List β) :
    x ∈ l.foldl step found ↔ x ∈ found ∨ ∃ a ∈ l, P a := by
  induction l generalizing found with
  | nil => simp
  | cons a l ih =>
    rw [List.foldl_cons, ih, h, or_assoc]
    simp

/-- A target is imported if some dependency resolves to it. -/
theorem mem_importedTargets {fs : FileSystem} {r : Resolver} {file : Path} {mined : Source.Mined}
    {target : String} :
    target ∈ importedTargets fs r file mined ↔
      ∃ dependency ∈ mined.imports, r.resolve? fs file dependency = some target := by
  unfold importedTargets
  rw [mem_foldl_iff (P := fun d => r.resolve? fs file d = some target)]
  · simp
  · intro found d
    cases r.resolve? fs file d with
    | none => simp
    | some t =>
      dsimp only
      split
      next hin =>
        rw [List.contains_iff_mem] at hin
        refine ⟨.inl, fun h => h.elim id ?_⟩
        rintro ⟨⟩
        exact hin
      next => simp [eq_comm]

/-- What a file contributes : its sections, for every target of its imports. -/
theorem mem_contributed {fs : FileSystem} {r : Resolver} {file : Path} {c : Contribution} :
    c ∈ contributed fs r file ↔
      ∃ text, fs.readText file = .ok text ∧ c.sections = Source.sections text.toList ∧
        ∃ dependency ∈ Source.imports text.toList,
          r.resolve? fs file dependency = some c.target := by
  unfold contributed
  split
  next text htext =>
    rw [contributions, List.mem_map]
    constructor
    · rintro ⟨target, ht, rfl⟩
      exact ⟨text, htext, rfl, mem_importedTargets.mp ht⟩
    · rintro ⟨text', htext', hs, hd⟩
      obtain rfl := Except.ok.inj (htext.symm.trans htext')
      refine ⟨c.target, mem_importedTargets.mpr hd, ?_⟩
      cases c
      exact congrArg _ hs.symm
  next e he =>
    refine ⟨nofun, fun ⟨text, htext, _⟩ => ?_⟩
    rw [he] at htext
    cases htext

/-- A session over a new cache mines exactly what the readable files say about the targets of
their imports. Its map is well formed, and the same scenarios come of any list with the same
readable files. -/
theorem holds_mine (fs : FileSystem) (r : Resolver) (files : List Path) :
    (∀ target name scenario,
      (mine fs r {} files).1.Holds target name scenario ↔
        ∃ file ∈ files, ∃ text, fs.readText file = .ok text ∧
          (∃ dependency ∈ Source.imports text.toList,
            r.resolve? fs file dependency = some target) ∧
          Lists (Source.sections text.toList) name scenario) ∧
    (mine fs r {} files).1.WellFormed ∧
    ∀ files' : List Path,
      (∀ file text, fs.readText file = .ok text → (file ∈ files ↔ file ∈ files')) →
      ∀ target name scenario,
        (mine fs r {} files).1.Holds target name scenario ↔
          (mine fs r {} files').1.Holds target name scenario := by
  have hmine := fun files => fst_mine (timesTell_singleton fs) (Cache.recorded_empty [fs])
    (List.mem_singleton.mpr rfl) r files
  have holds : ∀ (files : List Path) (target name scenario : String),
      (mine fs r {} files).1.Holds target name scenario ↔
        ∃ file ∈ files, ∃ text, fs.readText file = .ok text ∧
          (∃ dependency ∈ Source.imports text.toList,
            r.resolve? fs file dependency = some target) ∧
          Lists (Source.sections text.toList) name scenario := by
    intro files target name scenario
    rw [hmine, ScenarioMap.holds_ofContributions]
    simp only [List.mem_flatMap, mem_contributed]
    constructor
    · rintro ⟨c, ⟨file, hfile, text, htext, hs, hd⟩, rfl, h⟩
      exact ⟨file, hfile, text, htext, hd, hs ▸ h⟩
    · rintro ⟨file, hfile, text, htext, hd, h⟩
      exact ⟨⟨target, Source.sections text.toList⟩, ⟨file, hfile, text, htext, rfl, hd⟩, rfl, h⟩
  refine ⟨holds files, ?_, fun files' hsame target name scenario => ?_⟩
  · rw [hmine]
    exact ScenarioMap.wellFormed_ofContributions _
  · rw [holds, holds]
    constructor
    · rintro ⟨file, hfile, text, htext, h⟩
      exact ⟨file, (hsame file text htext).mp hfile, text, htext, h⟩
    · rintro ⟨file, hfile, text, htext, h⟩
      exact ⟨file, (hsame file text htext).mpr hfile, text, htext, h⟩

end SuiteScope.Session
