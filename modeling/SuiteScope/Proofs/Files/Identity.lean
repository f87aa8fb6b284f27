import SuiteScope.Proofs.Files.Bytes
import SuiteScope.Proofs.Files.Location
import SuiteScope.Target

/-!
# Identities of targets

A target is identified from the path of a file, or from a dependency (`Resolver.Query`). Either way
some path is accepted, one whose location is the place of a file (`Resolver.Query.file_at_location`), and
the identity is the text of its normal form. So identities are canonical
(`Resolver.Query.canonical_iff`) : two accepted paths that lead to one location have one identity,
without dots, if both of them go up from the top an even number of times, and in no other case. Of
the spellings `/a.ts` and `/../a.ts`, which name one file, the second has an identity of its own
(`Resolver.Query.two_identities`).

The paths come from bytes, so no segment holds a slash (`Path.Written`), and the text of a path can
be cut into the names that it shows (`Path.segments_ofString_toSlashes`).
-/

namespace SuiteScope

namespace Path

/-! ## Paths and their texts -/

/-- A path is shown with a backslash if one of its segments holds one. -/
theorem backslash_mem_toString {p : Path} :
    '\\' ∈ p.toString.toList ↔ ∃ s ∈ p.segments, 0x5c ∈ s.bytes :=
  (Text.mem_decodeLossy_iff (by decide) _).trans (mem_toBytes (by decide))

/-- The text of a path without backslashes is its identity as it is. -/
theorem toSlashes_eq_toString {p : Path} (h : '\\' ∉ p.toString.toList) :
    p.toSlashes = p.toString := by
  rw [toSlashes, ← String.toList_inj, String.toList_map]
  refine (List.map_congr_left fun c hc => if_neg ?_).trans (List.map_id' _)
  rintro rfl
  exact h hc

/-- What is joined to an absolute path keeps it absolute. -/
theorem isAbsolute_join {p q : Path} (hp : p.isAbsolute = true) (hq : q.segments ≠ []) :
    (p.join q).isAbsolute = true := by
  unfold join
  split
  next habs => exact habs
  next =>
    obtain ⟨s, rest, hsegments⟩ := isAbsolute_iff.mp hp
    obtain ⟨t, tail, htail⟩ := List.exists_cons_of_ne_nil hq
    rw [hsegments, htail, isAbsolute_iff]
    split
    · cases rest with
      | nil => exact ⟨t, tail, rfl⟩
      | cons u rest => exact ⟨s, (u :: rest).dropLast ++ t :: tail, rfl⟩
    · exact ⟨s, rest ++ t :: tail, rfl⟩

theorem isAbsolute_ofLead (segments : List FileName) :
    (ofLead (some .root) segments).isAbsolute = true := by
  unfold ofLead
  cases dropIdleTail segments with
  | nil => rfl
  | cons s rest => rfl

/-- The parent of an absolute path is absolute. -/
theorem isAbsolute_parent? {p dir : Path} (h : p.isAbsolute = true) (hdir : p.parent? = some dir) :
    dir.isAbsolute = true := by
  obtain ⟨segments⟩ := p
  obtain ⟨s, rest, rfl⟩ := isAbsolute_iff.mp h
  have hlead : lead ⟨.empty :: s :: rest⟩ = (some .root, s :: rest) := rfl
  rw [parent?, hlead] at hdir
  dsimp only at hdir
  cases htail : dropIdleTail (s :: rest) with
  | nil => rw [htail] at hdir; cases hdir
  | cons t tail =>
    rw [htail] at hdir
    obtain rfl := Option.some_inj.mp hdir
    exact isAbsolute_ofLead _

/-! ## The text of a normal form -/

/-- Normalizing brings in no segment but dots and the empty one. -/
theorem mem_segments_normalize {p : Path} (h : p.isAbsolute = true) {s : FileName}
    (hs : s ∈ p.normalize.segments) : s = .empty ∨ s = .dots ∨ s ∈ p.segments := by
  rw [segments_normalize h] at hs
  rcases mem_normalSegments hs with rfl | ⟨rfl, -⟩ | hs
  · exact .inl rfl
  · exact .inr (.inl rfl)
  · exact .inr (.inr (mem_location hs).1)

/-- Normalizing brings no slash into a name. -/
theorem Written.normalize {p : Path} (hp : p.Written) (h : p.isAbsolute = true) :
    p.normalize.Written := by
  refine ⟨by rw [segments_normalize h]; exact List.cons_ne_nil _ _, fun s hs => ?_⟩
  rcases mem_segments_normalize h hs with rfl | rfl | hs
  · decide
  · decide
  · exact hp.slash_not_mem s hs

/-- The text of a normal form can be cut into its segments, as they are shown. -/
theorem segments_ofString_toSlashes {p : Path} (hp : p.Written) (h : p.isAbsolute = true)
    (hbackslash : '\\' ∉ p.toString.toList) :
    (ofString p.normalize.toSlashes).segments =
      (normalSegments p.climbs p.location).map FileName.shown := by
  have hnormal : '\\' ∉ p.normalize.toString.toList := by
    rw [backslash_mem_toString] at hbackslash ⊢
    rintro ⟨s, hs, hc⟩
    rcases mem_segments_normalize h hs with rfl | rfl | hs
    · exact absurd hc (by decide)
    · exact absurd hc (by decide)
    · exact hbackslash ⟨s, hs, hc⟩
  rw [toSlashes_eq_toString hnormal, ofString_toString (hp.normalize h), shown,
    segments_normalize h]

end Path

namespace Resolver

variable {r : Resolver} {fs : FileSystem}

/-! ## The path of a dependency -/

/-- A path that is made absolute has no slash in a name. -/
theorem written_absolute {root : List UInt8} (hroot : r.root = .ofBytes root) {p : Path}
    (hp : p.Written) : (r.absolute p).Written := by
  unfold absolute
  split
  · exact hp
  · exact (hroot ▸ Path.written_ofBytes root).join hp

/-- It is absolute if the root is. -/
theorem isAbsolute_absolute (habs : r.root.isAbsolute = true) {p : Path} (hp : p.Written) :
    (r.absolute p).isAbsolute = true := by
  unfold absolute
  split
  next h => exact h
  next => exact Path.isAbsolute_join habs hp.ne_nil

/-- The path of a dependency as it is written, before it is brought to its normal form. -/
def spelled? (r : Resolver) (origin : Path) (dependency : String) : Option Path :=
  match r.classify dependency with
  | .external => none
  | .relative => (r.absolute origin).parent?.map (·.join (.ofString dependency))
  | .aliased base rest => some ((r.root.join (.ofString base)).join (.ofString rest))

/-- The base of a dependency is its spelling, normalized. -/
theorem base?_eq_map_normalize (origin : Path) (dependency : String) :
    r.base? origin dependency = (r.spelled? origin dependency).map Path.normalize := by
  unfold base? spelled?
  cases r.classify dependency with
  | relative =>
    dsimp only
    rw [Option.map_map]
    rfl
  | aliased base rest => rfl
  | external => rfl

/-- A dependency of the project is spelled as an absolute path. -/
theorem isAbsolute_of_spelled? (habs : r.root.isAbsolute = true) {origin p : Path}
    {dependency : String} (horigin : origin.Written) (h : r.spelled? origin dependency = some p) :
    p.isAbsolute = true := by
  unfold spelled? at h
  split at h
  · cases h
  · obtain ⟨dir, hdir, rfl⟩ := Option.map_eq_some_iff.mp h
    exact Path.isAbsolute_join (Path.isAbsolute_parent? (isAbsolute_absolute habs horigin) hdir)
      (Path.written_ofString dependency).ne_nil
  next base rest _ =>
    cases h
    exact Path.isAbsolute_join
      (Path.isAbsolute_join habs (Path.written_ofString base).ne_nil)
      (Path.written_ofString rest).ne_nil

/-! ## Identities -/

/-- What a target may be identified from. -/
inductive Query
  /-- The path of a file. -/
  | file (path : List UInt8)
  /-- A dependency, as it is written in the file `origin`. -/
  | imported (origin : List UInt8) (dependency : String)

namespace Query

/-- The target that is identified. -/
def answer? (r : Resolver) (fs : FileSystem) : Query → Option String
  | .file path => r.identify? fs (.ofBytes path)
  | .imported origin dependency => r.resolve? fs (.ofBytes origin) dependency

/-- The paths that are tried, in order. -/
def candidates (r : Resolver) : Query → List Path
  | .file path => [.ofBytes path]
  | .imported origin dependency =>
    (r.base? (.ofBytes origin) dependency).elim [] fun base =>
      r.settings.extensions.map base.extend

/-- The absolute path that is accepted : the first of those tried that is a file's. -/
def accepted? (r : Resolver) (fs : FileSystem) (q : Query) : Option Path :=
  ((q.candidates r).find? fun p => (r.identify? fs p).isSome).map r.absolute

/-- A query is answered by the first candidate that is a file. -/
theorem answer?_eq (q : Query) :
    q.answer? r fs = (q.candidates r).findSome? (r.identify? fs) := by
  cases q with
  | file path => simp [answer?, candidates]
  | imported origin dependency =>
    rw [answer?, candidates, resolve?]
    cases r.base? (.ofBytes origin) dependency with
    | none => rfl
    | some base => rw [Option.bind_some, Option.elim_some, List.findSome?_map]; rfl

/-- No candidate has a slash in a name. -/
theorem written_of_mem_candidates {q : Query} {p : Path} (h : p ∈ q.candidates r) :
    p.Written := by
  cases q with
  | file path =>
    obtain rfl := List.mem_singleton.mp h
    exact Path.written_ofBytes path
  | imported origin dependency =>
    rw [candidates] at h
    cases hbase : r.base? (.ofBytes origin) dependency with
    | none => rw [hbase] at h; cases h
    | some base =>
      rw [hbase] at h
      obtain ⟨extension, -, rfl⟩ := List.mem_map.mp h
      exact Path.written_ofBytes _

theorem findSome?_eq_of_find? {α β : Type} {f : α → Option β} {l : List α} {a : α}
    (h : l.find? (fun x => (f x).isSome) = some a) : l.findSome? f = f a := by
  induction l with
  | nil => cases h
  | cons x l ih =>
    rw [List.find?_cons] at h
    rw [List.findSome?_cons]
    cases hx : f x with
    | some b =>
      rw [hx] at h
      cases h
      exact hx.symm
    | none =>
      rw [hx] at h
      exact ih h

/-- The identity is the text of the normal form of the path that is accepted. -/
theorem text_of_answer? {root : List UInt8} (hroot : r.root = .ofBytes root)
    (habs : r.root.isAbsolute = true) {q : Query} {t : String} {p : Path}
    (ht : q.answer? r fs = some t) (hp : q.accepted? r fs = some p) :
    p.Written ∧ p.isAbsolute = true ∧ t = p.normalize.toSlashes := by
  obtain ⟨candidate, hfind, rfl⟩ := Option.map_eq_some_iff.mp hp
  have hcandidate := written_of_mem_candidates (List.mem_of_find?_eq_some hfind)
  rw [answer?_eq, findSome?_eq_of_find? hfind, identify?] at ht
  refine ⟨written_absolute hroot hcandidate, isAbsolute_absolute habs hcandidate, ?_⟩
  split at ht
  · exact (Option.some_inj.mp ht).symm
  · cases ht

/-- The location of a path that is accepted is the place of a file. -/
theorem file_at_location (habs : r.root.isAbsolute = true) {q : Query} {p : Path} (h : q.accepted? r fs = some p) :
    ∃ n, fs.top.at? p.location = some n ∧ n.isFile = true := by
  obtain ⟨candidate, hfind, rfl⟩ := Option.map_eq_some_iff.mp h
  have hcandidate := written_of_mem_candidates (List.mem_of_find?_eq_some hfind)
  have hnormal := (Path.isAbsolute_normalize _).trans (isAbsolute_absolute habs hcandidate)
  have hfile : fs.isFile (r.absolute candidate).normalize = true := by
    have hsome := List.find?_some hfind
    rw [identify?] at hsome
    split at hsome
    next hfile => exact hfile
    next => cases hsome
  rw [FileSystem.isFile] at hfile
  split at hfile
  next n hnode =>
    obtain ⟨reached, hplace, hat⟩ := FileSystem.node_eq_ok_iff.mp hnode
    rw [FileSystem.place_eq_location hnormal hplace, Path.location_normalize] at hat
    exact ⟨n, hat, hfile⟩
  · cases hfile

/-- A `..` is shown in a normal form exactly if it goes up. -/
theorem dots_mem_map_shown {climbs : Nat} {place : List FileName} (h : .dots ∉ place) :
    .dots ∈ (Path.normalSegments climbs place).map FileName.shown ↔ climbs % 2 = 1 := by
  rw [← Path.up_mem_normalSegments h, List.mem_map]
  constructor
  · rintro ⟨s, hs, hshown⟩
    exact FileName.shown_eq_dots_iff.mp hshown ▸ hs
  · exact fun hmem => ⟨.dots, hmem, FileName.shown_eq_dots_iff.mpr rfl⟩

/-- Two accepted paths that lead to one location have one identity, and one without dots, exactly if
each of them goes up from the top an even number of times. -/
theorem canonical_iff {root : List UInt8} (hroot : r.root = .ofBytes root)
    (habs : r.root.isAbsolute = true) {q₁ q₂ : Query} {t₁ t₂ : String} {p₁ p₂ : Path}
    (ht₁ : q₁.answer? r fs = some t₁) (ht₂ : q₂.answer? r fs = some t₂)
    (hp₁ : q₁.accepted? r fs = some p₁) (hp₂ : q₂.accepted? r fs = some p₂)
    (hbackslash₁ : '\\' ∉ p₁.toString.toList) (hbackslash₂ : '\\' ∉ p₂.toString.toList)
    (hlocation : p₁.location = p₂.location) :
    (t₁ = t₂ ∧ ∀ s ∈ (Path.ofString t₁).segments, s ≠ .dot ∧ s ≠ .dots) ↔
      p₁.climbs % 2 = 0 ∧ p₂.climbs % 2 = 0 := by
  obtain ⟨hwritten₁, habs₁, htext₁⟩ := text_of_answer? hroot habs ht₁ hp₁
  obtain ⟨hwritten₂, habs₂, htext₂⟩ := text_of_answer? hroot habs ht₂ hp₂
  have hpieces₁ := Path.segments_ofString_toSlashes hwritten₁ habs₁ hbackslash₁
  have hpieces₂ := Path.segments_ofString_toSlashes hwritten₂ habs₂ hbackslash₂
  rw [← htext₁] at hpieces₁
  rw [← htext₂, ← hlocation] at hpieces₂
  have hup : .dots ∉ p₁.location := fun h => (Path.mem_location h).2.2 rfl
  constructor
  · rintro ⟨heq, hdots⟩
    have hnone : .dots ∉ (Path.ofString t₁).segments := fun h => (hdots .dots h).2 rfl
    have hnone₂ := hnone
    rw [heq, hpieces₂, dots_mem_map_shown hup] at hnone₂
    rw [hpieces₁, dots_mem_map_shown hup] at hnone
    exact ⟨Nat.mod_two_ne_one.mp hnone, Nat.mod_two_ne_one.mp hnone₂⟩
  · rintro ⟨heven₁, heven₂⟩
    refine ⟨?_, fun s hs => ?_⟩
    · have hnormal : p₁.normalize.segments = p₂.normalize.segments := by
        rw [Path.segments_normalize habs₁, Path.segments_normalize habs₂, hlocation,
          Path.normalSegments, Path.normalSegments, heven₁, heven₂]
      have hpath : p₁.normalize = p₂.normalize := congrArg Path.mk hnormal
      rw [htext₁, htext₂, hpath]
    · rw [hpieces₁] at hs
      obtain ⟨n, hn, rfl⟩ := List.mem_map.mp hs
      rw [ne_eq, ne_eq, FileName.shown_eq_dot_iff, FileName.shown_eq_dots_iff]
      rcases Path.mem_normalSegments hn with rfl | ⟨-, hodd⟩ | hn
      · decide
      · omega
      · obtain ⟨-, hidle, hname⟩ := Path.mem_location hn
        refine ⟨?_, hname⟩
        rintro rfl
        cases hidle

/-- A project at `/p`, with the settings that hold where none are given. -/
def ofProject : Resolver :=
  ⟨.ofString "/p", {}⟩

/-- The files of that project : there is one, `/p/src/a.ts`. -/
def projectFiles : FileSystem :=
  let file := Node.file [] 0
  ⟨.directory none [("p", .directory none [("src", .directory none [("a.ts", file)])])], []⟩

/-- Two ways to one file : a path that goes up from the top twice, and an import of a test. -/
theorem canonical_of_import :
    let q₁ := file (Text.encode "/../../p/./test/../src/a.ts")
    let q₂ := imported (Text.encode "/p/test/x.ts") "../src/a"
    ∃ t₁ t₂, q₁.answer? ofProject projectFiles = some t₁ ∧
      q₂.answer? ofProject projectFiles = some t₂ ∧
      t₁ = t₂ ∧ ∀ s ∈ (Path.ofString t₁).segments, s ≠ .dot ∧ s ≠ .dots := by
  intro q₁ q₂
  have hanswers : q₁.answer? ofProject projectFiles = some "/p/src/a.ts" ∧
      q₂.answer? ofProject projectFiles = some "/p/src/a.ts" := by
    decide +kernel
  have haccepted : q₁.accepted? ofProject projectFiles =
        some (.ofString "/../../p/./test/../src/a.ts") ∧
      q₂.accepted? ofProject projectFiles = some (.ofString "/p/src/a.ts") := by
    decide +kernel
  refine ⟨_, _, hanswers.1, hanswers.2, (canonical_iff rfl ?_ hanswers.1 hanswers.2 haccepted.1
    haccepted.2 ?_ ?_ ?_).mpr ?_⟩
  all_goals decide +kernel

/-- A path that goes up from the top once gives its file a second identity, with a `..` in it. -/
theorem two_identities :
    let q₁ := file (Text.encode "/p/src/a.ts")
    let q₂ := file (Text.encode "/../p/src/a.ts")
    ∃ t₁ t₂ p₁ p₂, ofProject.root.isAbsolute = true ∧
      (q₁.answer? ofProject projectFiles = some t₁ ∧
        q₂.answer? ofProject projectFiles = some t₂) ∧
      (q₁.accepted? ofProject projectFiles = some p₁ ∧
        q₂.accepted? ofProject projectFiles = some p₂) ∧
      '\\' ∉ p₁.toString.toList ∧ '\\' ∉ p₂.toString.toList ∧ p₁.location = p₂.location ∧
      t₁ ≠ t₂ ∧ .dots ∈ (Path.ofString t₂).segments := by
  intro q₁ q₂
  refine ⟨"/p/src/a.ts", "/../p/src/a.ts", .ofString "/p/src/a.ts", .ofString "/../p/src/a.ts",
    ?_, ?_, ?_, ?_⟩
  all_goals decide +kernel

end Query

end Resolver

end SuiteScope
