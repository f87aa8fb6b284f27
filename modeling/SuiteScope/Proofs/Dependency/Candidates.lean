import Mathlib.Data.List.Find
import SuiteScope.Proofs.Dependency.Kind
import SuiteScope.Proofs.Files.Composition

/-!
# Candidates of a dependency

What a dependency names is looked for at a few paths, its candidates : the path that is written, with
one extension after another behind it, in normal form (`Resolver.candidates`). Its target is the text of
the first of them that is a file, and there is none if no candidate is a file
(`Resolver.resolveBy?_spec`). So nothing matters but which of the candidates are files, and more files
never move the target to a later candidate.

Where the project root and the importing file have paths of texts, the target is the path of the file
that was found, and a target in its own right. Other paths lose bytes when they are written as a text, so
that the target may name no file at all (`Resolver.target_names_no_file`).

To a resolver a file system is no more than the answer to whether a path is a file. So `resolveBy?`
takes that answer in place of a file tree, and the statements hold of links and of all else that file
systems know.
-/

namespace SuiteScope

namespace Resolver

variable {r : Resolver} {isFile isFile' : Path → Bool}

/-- The identity of an existing file, where `isFile` tells which paths are files. -/
def identifyBy? (r : Resolver) (isFile : Path → Bool) (p : Path) : Option String :=
  let p := (r.absolute p).normalize
  if isFile p then some p.toSlashes else none

/-- The target of a dependency, where `isFile` tells which paths are files. -/
def resolveBy? (r : Resolver) (isFile : Path → Bool) (origin : Path) (dependency : String) :
    Option String :=
  (r.base? origin dependency).bind fun base =>
    r.settings.extensions.findSome? fun extension => r.identifyBy? isFile (base.extend extension)

/-- A file is identified by nothing but the question whether it is there. -/
theorem identify?_eq_identifyBy? (fs : FileSystem) (p : Path) :
    r.identify? fs p = r.identifyBy? fs.isFile p :=
  rfl

/-- So is a dependency resolved. -/
theorem resolve?_eq_resolveBy? (fs : FileSystem) (origin : Path) (dependency : String) :
    r.resolve? fs origin dependency = r.resolveBy? fs.isFile origin dependency :=
  rfl

/-- The paths that are tried for a dependency of the file `origin`, in order. -/
def candidates (r : Resolver) (origin : Path) (dependency : String) : List Path :=
  (r.spelled? origin dependency).elim [] fun p =>
    r.settings.extensions.map fun extension => (p.normalize.extend extension).normalize

/-- The path at place `i` is a file, and none before it is. -/
structure FirstFile (isFile : Path → Bool) (paths : List Path) (i : Nat) (p : Path) : Prop where
  get : paths[i]? = some p
  file : isFile p = true
  before : ∀ j < i, ∀ q, paths[j]? = some q → isFile q = false

/-- No backslash in what is given for a resolver and a dependency. -/
structure Backslashless (r : Resolver) (root origin : List UInt8) (dependency : String) : Prop where
  root : 0x5c ∉ root
  origin : 0x5c ∉ origin
  dependency : '\\' ∉ dependency.toList
  bases : ∀ entry ∈ r.settings.aliases, '\\' ∉ entry.2.toList
  extensions : ∀ extension ∈ r.settings.extensions, '\\' ∉ extension.toList

/-! ## The first file -/

/-- The first of some paths that is a file is found. -/
theorem find?_eq_some_iff_firstFile {paths : List Path} {p : Path} :
    paths.find? isFile = some p ↔ ∃ i, FirstFile isFile paths i p := by
  rw [List.find?_eq_some_iff_getElem]
  constructor
  · rintro ⟨hfile, i, hi, rfl, hbefore⟩
    refine ⟨i, List.getElem?_eq_getElem hi, hfile, fun j hj q hq => ?_⟩
    obtain ⟨hlt, rfl⟩ := List.getElem?_eq_some_iff.mp hq
    simpa using hbefore j hj
  · rintro ⟨i, hget, hfile, hbefore⟩
    obtain ⟨hi, rfl⟩ := List.getElem?_eq_some_iff.mp hget
    refine ⟨hfile, i, hi, rfl, fun j hj => ?_⟩
    simpa using hbefore j hj _ (List.getElem?_eq_getElem (Nat.lt_trans hj hi))

/-- With more files the first one stands no later. -/
theorem FirstFile.exists_le {paths : List Path} {i : Nat} {p : Path}
    (h : FirstFile isFile paths i p)
    (hmore : ∀ q ∈ paths, isFile q = true → isFile' q = true) :
    ∃ j ≤ i, ∃ q, FirstFile isFile' paths j q := by
  have hmem : p ∈ paths := List.mem_of_getElem? h.get
  obtain ⟨q, hq⟩ : ∃ q, paths.find? isFile' = some q := by
    rw [← Option.isSome_iff_exists, List.find?_isSome]
    exact ⟨p, hmem, hmore p hmem h.file⟩
  obtain ⟨j, hj⟩ := find?_eq_some_iff_firstFile.mp hq
  refine ⟨j, Nat.le_of_not_lt fun hlt => ?_, q, hj⟩
  have hnot := hj.before i hlt p h.get
  rw [hmore p hmem h.file] at hnot
  cases hnot

/-! ## Candidates are in normal form -/

/-- The candidates of a dependency are its spelling with every ending. -/
theorem mem_candidates_iff {origin p : Path} {dependency : String} :
    p ∈ r.candidates origin dependency ↔ ∃ whole, r.spelled? origin dependency = some whole ∧
      ∃ e ∈ r.settings.extensions, (whole.normalize.extend e).normalize = p := by
  rw [candidates]
  cases r.spelled? origin dependency with
  | none => simp
  | some whole => simp

section

variable {root origin : List UInt8} {dependency : String}

/-- No backslash comes into the path that is written. -/
theorem plain_of_spelled? (hroot : r.root = .ofBytes root) (habs : r.root.isAbsolute = true)
    (hplain : Backslashless r root origin dependency) {p : Path}
    (h : r.spelled? (.ofBytes origin) dependency = some p) : p.Plain := by
  have hplainRoot : r.root.Plain := hroot ▸ Path.plain_ofBytes hplain.root
  have hplainOrigin : (r.absolute (.ofBytes origin)).Plain := by
    unfold absolute
    split
    · exact Path.plain_ofBytes hplain.origin
    · exact hplainRoot.join (Path.plain_ofBytes hplain.origin)
  unfold spelled? at h
  split at h
  · cases h
  · obtain ⟨dir, hdir, rfl⟩ := Option.map_eq_some_iff.mp h
    have habsOrigin := isAbsolute_absolute habs (Path.written_ofBytes origin)
    exact (hplainOrigin.parent? habsOrigin hdir).join (Path.plain_ofString hplain.dependency)
  next base rest hkind =>
    cases h
    obtain ⟨start, hmem, rfl⟩ := exists_of_classify_eq_aliased hkind
    have hrest : '\\' ∉ rest.toList := fun hrest =>
      hplain.dependency (by rw [String.toList_append]; exact List.mem_append_right _ hrest)
    exact (hplainRoot.join (Path.plain_ofString (hplain.bases _ hmem))).join
      (Path.plain_ofString hrest)

/-- The path that is written behind an alias is shown as it is, if the project root is. -/
theorem shown_aliased (hroot : r.root.shown = r.root) (base rest : String) :
    ((r.root.join (.ofString base)).join (.ofString rest)).shown =
      (r.root.join (.ofString base)).join (.ofString rest) :=
  Path.shown_join (Path.shown_join hroot (Path.shown_ofString base)) (Path.shown_ofString rest)

/-- The path that is written is shown as it is, if the project root and the importing file are. -/
theorem shown_of_spelled? (habs : r.root.isAbsolute = true) (hroot : r.root.shown = r.root)
    (horigin : (Path.ofBytes origin).shown = .ofBytes origin) {p : Path}
    (h : r.spelled? (.ofBytes origin) dependency = some p) : p.shown = p := by
  have hshownOrigin : (r.absolute (.ofBytes origin)).shown = r.absolute (.ofBytes origin) := by
    unfold absolute
    split
    · exact horigin
    · exact Path.shown_join hroot horigin
  unfold spelled? at h
  split at h
  · cases h
  · obtain ⟨dir, hdir, rfl⟩ := Option.map_eq_some_iff.mp h
    have habsOrigin := isAbsolute_absolute habs (Path.written_ofBytes origin)
    exact Path.shown_join (Path.shown_parent? habsOrigin hdir hshownOrigin)
      (Path.shown_ofString dependency)
  next base rest _ =>
    cases h
    exact shown_aliased hroot base rest

/-- A candidate is the normal form of a path that is written with slashes alone. -/
theorem candidate_spec (habs : r.root.isAbsolute = true) {p : Path}
    (h : p ∈ r.candidates (.ofBytes origin) dependency) :
    p.Written ∧ p.isAbsolute = true ∧ p.normalize = p := by
  obtain ⟨whole, hspelled, e, -, rfl⟩ := mem_candidates_iff.mp h
  have hwhole := isAbsolute_of_spelled? habs (Path.written_ofBytes origin) hspelled
  have hextend := Path.isAbsolute_extend ((Path.isAbsolute_normalize whole).trans hwhole) e
  exact ⟨(Path.written_ofBytes _).normalize hextend,
    (Path.isAbsolute_normalize _).trans hextend, Path.normalize_normalize _⟩

/-- No candidate has a backslash if nothing has that it is made of. -/
theorem plain_candidate (hroot : r.root = .ofBytes root) (habs : r.root.isAbsolute = true)
    (hplain : Backslashless r root origin dependency) {p : Path}
    (h : p ∈ r.candidates (.ofBytes origin) dependency) : p.Plain := by
  obtain ⟨whole, hspelled, e, he, rfl⟩ := mem_candidates_iff.mp h
  have hwhole := isAbsolute_of_spelled? habs (Path.written_ofBytes origin) hspelled
  have hextend := Path.isAbsolute_extend ((Path.isAbsolute_normalize whole).trans hwhole) e
  exact (((plain_of_spelled? hroot habs hplain hspelled).normalize hwhole).extend
    (hplain.extensions e he)).normalize hextend

/-- A candidate is shown as itself if all is that it is made of. -/
theorem shown_candidate (habs : r.root.isAbsolute = true) (hroot : r.root.shown = r.root)
    (horigin : (Path.ofBytes origin).shown = .ofBytes origin) {p : Path}
    (h : p ∈ r.candidates (.ofBytes origin) dependency) : p.shown = p := by
  obtain ⟨whole, hspelled, e, -, rfl⟩ := mem_candidates_iff.mp h
  have hwhole := isAbsolute_of_spelled? habs (Path.written_ofBytes origin) hspelled
  have hextend := Path.isAbsolute_extend ((Path.isAbsolute_normalize whole).trans hwhole) e
  have hshown := Path.shown_normalize hwhole (shown_of_spelled? habs hroot horigin hspelled)
  exact Path.shown_normalize hextend (Path.shown_extend hshown e)

/-! ## Targets are texts of candidates -/

/-- The target is the first candidate that is a file. -/
theorem resolveBy?_eq (habs : r.root.isAbsolute = true) :
    r.resolveBy? isFile (.ofBytes origin) dependency =
      ((r.candidates (.ofBytes origin) dependency).find? isFile).map Path.toSlashes := by
  rw [resolveBy?, base?_eq_map_normalize, candidates]
  cases hspelled : r.spelled? (.ofBytes origin) dependency with
  | none => rfl
  | some p =>
    have hp := isAbsolute_of_spelled? habs (Path.written_ofBytes origin) hspelled
    rw [Option.map_some, Option.bind_some, Option.elim_some]
    induction r.settings.extensions with
    | nil => rfl
    | cons extension extensions ih =>
      have hextend := Path.isAbsolute_extend ((Path.isAbsolute_normalize p).trans hp) extension
      rw [List.findSome?_cons, List.map_cons, List.find?_cons, ih, identifyBy?, absolute,
        if_pos hextend]
      cases isFile (p.normalize.extend extension).normalize <;> rfl

/-- The target is the text of the first candidate that is a file. -/
theorem resolveBy?_eq_some_iff (hroot : r.root = .ofBytes root)
    (habs : r.root.isAbsolute = true) (hplain : Backslashless r root origin dependency)
    {t : String} :
    r.resolveBy? isFile (.ofBytes origin) dependency = some t ↔
      ∃ i p, FirstFile isFile (r.candidates (.ofBytes origin) dependency) i p ∧
        t = p.toString := by
  have htext : ∀ p ∈ r.candidates (.ofBytes origin) dependency, p.toSlashes = p.toString :=
    fun p hp =>
      Path.toSlashes_eq_toString (Path.plain_iff.mp (plain_candidate hroot habs hplain hp))
  rw [resolveBy?_eq habs, Option.map_eq_some_iff]
  constructor
  · rintro ⟨p, hp, rfl⟩
    obtain ⟨i, hfirst⟩ := find?_eq_some_iff_firstFile.mp hp
    exact ⟨i, p, hfirst, htext p (List.mem_of_find?_eq_some hp)⟩
  · rintro ⟨i, p, hfirst, rfl⟩
    exact ⟨p, find?_eq_some_iff_firstFile.mpr ⟨i, hfirst⟩, htext p (List.mem_of_getElem? hfirst.get)⟩

/-- A candidate as it is shown is a target with the same text, if it is a file. -/
theorem identifyBy?_shown (hroot : r.root = .ofBytes root) (habs : r.root.isAbsolute = true)
    (hplain : Backslashless r root origin dependency) {p : Path}
    (h : p ∈ r.candidates (.ofBytes origin) dependency) :
    r.identifyBy? isFile p.shown = if isFile p.shown then some p.toString else none := by
  obtain ⟨-, hp, hnormal⟩ := candidate_spec habs h
  have hshown : p.shown.isAbsolute = true := (Path.isAbsolute_shown p).trans hp
  have hplain := Path.plain_iff.mp (plain_candidate hroot habs hplain h)
  have htext : p.shown.toSlashes = p.toString := by
    rw [← Path.toString_shown] at hplain ⊢
    exact Path.toSlashes_eq_toString hplain
  rw [identifyBy?, absolute, if_pos hshown, Path.normalize_shown hp, hnormal, htext]

/-- There is no target if the dependency names a package, if the importing file stands in no
directory, or if no candidate is a file. -/
theorem resolveBy?_eq_none_iff (habs : r.root.isAbsolute = true) :
    r.resolveBy? isFile (.ofBytes origin) dependency = none ↔
      r.classify dependency = .external ∨
        (r.classify dependency = .relative ∧ (r.absolute (.ofBytes origin)).parent? = none) ∨
        ∀ p ∈ r.candidates (.ofBytes origin) dependency, isFile p = false := by
  have hnone : r.resolveBy? isFile (.ofBytes origin) dependency = none ↔
      ∀ p ∈ r.candidates (.ofBytes origin) dependency, isFile p = false := by
    simp [resolveBy?_eq habs]
  have hunspelled (h : r.spelled? (.ofBytes origin) dependency = none) :
      r.resolveBy? isFile (.ofBytes origin) dependency = none := by
    rw [resolveBy?_eq habs, candidates, h]
    rfl
  constructor
  · exact fun h => .inr (.inr (hnone.mp h))
  · rintro (hkind | ⟨hkind, hparent⟩ | h)
    · exact hunspelled (by rw [spelled?, hkind])
    · exact hunspelled (by rw [spelled?, hkind]; simp [hparent])
    · exact hnone.mpr h

/-- The target of a dependency is the text of the first of its candidates that is a file. It names the
path that is read from it, that of the candidate as it is shown, and is a target in its own right if that
path is a file's : always for paths of texts. Nothing else about the files matters, and more files move
the target to an earlier candidate, if at all. -/
theorem resolveBy?_spec (hroot : r.root = .ofBytes root) (habs : r.root.isAbsolute = true)
    (hplain : Backslashless r root origin dependency) (isFile : Path → Bool) :
    let paths := r.candidates (.ofBytes origin) dependency
    let target? := fun files => r.resolveBy? files (.ofBytes origin) dependency
    (∀ fs : FileSystem, r.resolve? fs (.ofBytes origin) dependency = target? fs.isFile ∧
        ∀ p, r.identify? fs p = r.identifyBy? fs.isFile p) ∧
      (∀ t, target? isFile = some t ↔ ∃ i p, FirstFile isFile paths i p ∧ t = p.toString) ∧
      (∀ p ∈ paths, Path.ofString p.toString = p.shown ∧
        (p.shown = p ↔ ∃ s, p = .ofString s) ∧
        r.identifyBy? isFile p.shown = if isFile p.shown then some p.toString else none) ∧
      ((∃ s, root = Text.encode s) → (∃ s, origin = Text.encode s) →
        ∀ t, target? isFile = some t → (∃ i, FirstFile isFile paths i (.ofString t)) ∧
          isFile (.ofString t) = true ∧ r.identifyBy? isFile (.ofString t) = some t) ∧
      (target? isFile = none ↔ r.classify dependency = .external ∨
        (r.classify dependency = .relative ∧ (r.absolute (.ofBytes origin)).parent? = none) ∨
        ∀ p ∈ paths, isFile p = false) ∧
      ∀ isFile' : Path → Bool,
        ((∀ p ∈ paths, isFile' p = isFile p) → target? isFile' = target? isFile) ∧
        ((∀ p ∈ paths, isFile p = true → isFile' p = true) →
          ∀ i p, FirstFile isFile paths i p →
            ∃ j ≤ i, ∃ q, FirstFile isFile' paths j q ∧ target? isFile' = some q.toString) := by
  intro paths target?
  have hsome (files : Path → Bool) (t : String) :
      target? files = some t ↔ ∃ i p, FirstFile files paths i p ∧ t = p.toString :=
    resolveBy?_eq_some_iff hroot habs hplain
  have hread : ∀ p ∈ paths, Path.ofString p.toString = p.shown := fun p hp =>
    Path.ofString_toString (candidate_spec habs hp).1
  have hown : ∀ p ∈ paths,
      r.identifyBy? isFile p.shown = if isFile p.shown then some p.toString else none :=
    fun p hp => identifyBy?_shown hroot habs hplain hp
  refine ⟨fun fs => ⟨resolve?_eq_resolveBy? fs _ _, identify?_eq_identifyBy? fs⟩, hsome isFile,
    fun p hp => ⟨hread p hp, Path.shown_eq_iff (candidate_spec habs hp).1, hown p hp⟩, ?_,
    resolveBy?_eq_none_iff habs, fun isFile' => ⟨fun hsame => ?_, ?_⟩⟩
  · rintro ⟨s, rfl⟩ ⟨s', rfl⟩ t ht
    obtain ⟨i, p, hfirst, rfl⟩ := (hsome isFile t).mp ht
    have hmem := List.mem_of_getElem? hfirst.get
    have hshown : p.shown = p :=
      shown_candidate habs (hroot ▸ Path.shown_ofString s) (Path.shown_ofString s') hmem
    have hpath : Path.ofString p.toString = p := (hread p hmem).trans hshown
    have htarget := hown p hmem
    rw [hshown, if_pos hfirst.file] at htarget
    rw [hpath]
    exact ⟨⟨i, hfirst⟩, hfirst.file, htarget⟩
  · have hfind : paths.find? isFile' = paths.find? isFile := List.find?_congr hsame
    dsimp only [target?]
    rw [resolveBy?_eq habs, resolveBy?_eq habs, hfind]
  · intro hmore i p hfirst
    obtain ⟨j, hj, q, hq⟩ := hfirst.exists_le hmore
    exact ⟨j, hj, q, hq, (hsome isFile' _).mpr ⟨j, q, hq, rfl⟩⟩

end

/-- A directory is imported, and its index file is the sixth candidate. With another file, which is the
third candidate, that one is the target. -/
theorem resolveBy?_of_index_file :
    let r := Query.ofProject
    let origin := Text.encode "/p/src/x.spec.ts"
    let paths := r.candidates (.ofBytes origin) "./utils"
    let files := fun p => decide (p = .ofString "/p/src/utils/index.ts")
    let more := fun p => files p || decide (p = .ofString "/p/src/utils.tsx")
    (r.root.isAbsolute = true ∧ Backslashless r (Text.encode "/p") origin "./utils") ∧
      r.resolveBy? files (.ofBytes origin) "./utils" = some "/p/src/utils/index.ts" ∧
      r.identifyBy? files (.ofString "/p/src/utils/index.ts") = some "/p/src/utils/index.ts" ∧
      ∃ j ≤ 5, ∃ q, FirstFile more paths j q ∧
        r.resolveBy? more (.ofBytes origin) "./utils" = some q.toString := by
  intro r origin paths files more
  have habs : r.root.isAbsolute = true := by decide +kernel
  have hplain : Backslashless r (Text.encode "/p") origin "./utils" :=
    ⟨by decide, by decide, by decide, by decide, by decide⟩
  have hbefore : ∀ j < 5, (paths[j]?.all fun q => !files q) = true := by decide +kernel
  have hfirst : FirstFile files paths 5 (.ofString "/p/src/utils/index.ts") :=
    ⟨by decide +kernel, by decide +kernel, fun j hj q hq => by simpa [hq] using hbefore j hj⟩
  obtain ⟨-, hsome, -, htext, -, hother⟩ := resolveBy?_spec rfl habs hplain files
  have htarget := (hsome "/p/src/utils/index.ts").mpr ⟨5, _, hfirst, by decide +kernel⟩
  refine ⟨⟨habs, hplain⟩, htarget, (htext ⟨_, rfl⟩ ⟨_, rfl⟩ _ htarget).2.2, ?_⟩
  exact (hother more).2 (fun p _ hp => by simp [more, hp]) 5 _ hfirst

/-- The project root ends in a byte that is no text. The target of a dependency is shown with a
replacement character in its place, and names no file. -/
theorem target_names_no_file :
    let root := Text.encode "/p" ++ [0xff]
    let origin := root ++ Text.encode "/src/x.spec.ts"
    let r : Resolver := ⟨.ofBytes root, {}⟩
    let file := Node.file [] 0
    let files : FileSystem :=
      ⟨.directory none [(⟨[0x70, 0xff]⟩, .directory none
        [("src", .directory none [("utils.ts", file)])])], []⟩
    let t := "/p\ufffd/src/utils.ts"
    (r.root.isAbsolute = true ∧ Backslashless r root origin "./utils") ∧
      r.resolve? files (.ofBytes origin) "./utils" = some t ∧
      files.isFile (.ofString t) = false ∧ r.identify? files (.ofString t) = none := by
  intro root origin r file files t
  refine ⟨⟨by decide +kernel, by decide, by decide, by decide, by decide, by decide⟩, ?_⟩
  decide +kernel

end Resolver

end SuiteScope
