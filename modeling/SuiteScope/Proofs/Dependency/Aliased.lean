import SuiteScope.Proofs.Dependency.Candidates

/-!
# Targets behind an alias

An alias stands for a directory of the project. Where names are left of the dependency behind the alias
(`NamesBehind`), its target lies below that directory : its components are those of the directory and the
names, with an extension behind the last one (`Resolver.aliased_below_iff`). This fails for an alias that
is written without the slash at its end, since then a slash is left in front of the names. Joined to the
directory such a path is an absolute one, which leads from the top (`Resolver.aliased_target_outside`).
-/

namespace SuiteScope

namespace Resolver

open SuiteScope.Path

/-- What is left of a dependency behind an alias : names between slashes, behind one more slash if
`rooted`. -/
structure NamesBehind (rooted : Bool) (names : List String) (rest : String) : Prop where
  ne_nil : names ≠ []
  isName : ∀ s ∈ names, IsName (.ofString s)
  text : rest = (if rooted then "/" else "") ++ "/".intercalate names

/-- The names of a path behind an alias, with an extension behind the last one. -/
def namesWith (names : List String) (e : String) : List FileName :=
  extended (names.map .ofString) e

variable {r : Resolver} {rooted : Bool} {names : List String} {rest : String}

/-! ## Joining the names -/

/-- Names with slashes between them are the text of a path. -/
theorem encode_intercalate (names : List String) :
    Text.encode ("/".intercalate names) = toBytes ⟨names.map .ofString⟩ := by
  induction names with
  | nil => rfl
  | cons s names ih =>
    cases names with
    | nil => rw [String.intercalate_singleton, List.map_singleton, toBytes_singleton]; rfl
    | cons t names =>
      rw [String.intercalate_cons_cons, Text.encode_append, Text.encode_append, ih]
      simp only [List.map_cons]
      rw [toBytes_cons_cons, List.append_assoc]
      rfl

/-- The names behind an alias are proper names. -/
theorem NamesBehind.forall_isName (h : NamesBehind rooted names rest) :
    ∀ s ∈ names.map .ofString, IsName s := by
  intro s hs
  obtain ⟨name, hname, rfl⟩ := List.mem_map.mp hs
  exact h.isName name hname

theorem NamesBehind.map_ne_nil (h : NamesBehind rooted names rest) :
    names.map FileName.ofString ≠ [] :=
  fun hnil => h.ne_nil (List.map_eq_nil_iff.mp hnil)

/-- The rest of an aliased dependency is written with these names, behind a slash or not. -/
theorem NamesBehind.segments (h : NamesBehind rooted names rest) :
    (ofString rest).segments =
      (if rooted then [.empty] else []) ++ names.map .ofString := by
  have hread (segments : List String) (hne : segments ≠ [])
      (hslash : ∀ s ∈ segments.map FileName.ofString, slash ∉ s.bytes) :
      (ofString ("/".intercalate segments)).segments = segments.map .ofString := by
    rw [ofString, encode_intercalate]
    exact congrArg Path.segments
      (ofBytes_toBytes ⟨fun hnil => hne (List.map_eq_nil_iff.mp hnil), hslash⟩)
  have hnames : ∀ s ∈ names.map FileName.ofString, slash ∉ s.bytes := fun s hs =>
    (h.forall_isName s hs).slash_not_mem
  rw [h.text]
  cases rooted with
  | false => simpa using hread names h.ne_nil hnames
  | true =>
    obtain ⟨s, rest, rfl⟩ := List.exists_cons_of_ne_nil h.ne_nil
    have hroot := hread ("" :: s :: rest) (List.cons_ne_nil _ _)
      (List.forall_mem_cons.mpr ⟨by decide, hnames⟩)
    rw [String.intercalate_cons_cons, String.empty_append] at hroot
    exact hroot

/-- Names lead from the directory on, but from the top with a slash in front. -/
theorem NamesBehind.location_join (h : NamesBehind rooted names rest) (dir : Path) :
    (dir.join (ofString rest)).location =
        (if rooted then [] else dir.location) ++ names.map .ofString ∧
      (dir.join (ofString rest)).climbs = if rooted then 0 else dir.climbs := by
  have hnames : ∀ s ∈ names.map .ofString, isIdle s = false ∧ s ≠ .dots := fun s hs =>
    ⟨(h.forall_isName s hs).idle, (h.forall_isName s hs).ne_up⟩
  have hclimbs := climbsFrom_names fun hup => (hnames .dots hup).2 rfl
  have hsegments := h.segments
  cases rooted with
  | false =>
    have hrelative : (ofString rest).isAbsolute = false := by
      rw [← Bool.not_eq_true, isAbsolute_iff]
      rintro ⟨s, tail, heq⟩
      have hfirst : names.map .ofString = .empty :: s :: tail := hsegments.symm.trans heq
      have hidle := (hnames .empty (hfirst ▸ List.mem_cons_self)).1
      cases hidle
    obtain ⟨hplace, hup⟩ := Path.location_join hrelative dir
    rw [hplace, hup, hsegments]
    exact ⟨foldl_enter_names hnames _, by simp [hclimbs]⟩
  | true =>
    have habs : (ofString rest).isAbsolute = true := by
      obtain ⟨s, tail, hcons⟩ := List.exists_cons_of_ne_nil h.map_ne_nil
      exact isAbsolute_iff.mpr ⟨s, tail, by rw [hsegments, hcons]; rfl⟩
    have hjoin : dir.join (ofString rest) = ofString rest := if_pos habs
    rw [hjoin, location, climbs, hsegments]
    exact ⟨foldl_enter_names hnames _, (Nat.zero_add _).trans (hclimbs _)⟩

/-- The usual endings bring in proper names only. -/
theorem isName_tail_of_default :
    ∀ e ∈ MiningSettings.extensions {}, ∀ s ∈ (ofString e).segments.tail, IsName s := by
  decide +kernel

/-! ## Targets -/

/-- A target behind an alias lies below the directory of the alias exactly if no slash is left in front of
the names, or if that directory is the top. Otherwise the target lies where the names lead from the
top. -/
theorem aliased_below_iff {isFile : Path → Bool} {root origin : List UInt8}
    {dependency base t : String} (habs : r.root.isAbsolute = true) (hroot : r.root = .ofBytes root)
    (hextensions : r.settings.extensions = MiningSettings.extensions {})
    (hkind : r.classify dependency = .aliased base rest) (hrest : NamesBehind rooted names rest)
    (htarget : r.resolveBy? isFile (.ofBytes origin) dependency = some t) :
    let dir := (r.root.join (.ofString base)).normalize
    (∀ fs : FileSystem, r.resolve? fs (.ofBytes origin) dependency =
      r.resolveBy? fs.isFile (.ofBytes origin) dependency) ∧
    ∃ p, ∃ e ∈ r.settings.extensions, isFile p = true ∧ t = p.toSlashes ∧
      (p.Plain → .ofString t = p.shown) ∧ ((∃ s, root = Text.encode s) → p.shown = p) ∧
      namesWith names e ≠ [] ∧
      p.components = (if rooted then [.root] else dir.components) ++
        (namesWith names e).map .name ∧
      (p.components = dir.components ++ (namesWith names e).map .name ↔
        rooted = false ∨ dir.components = [.root]) := by
  intro dir
  have hdir : (r.root.join (.ofString base)).isAbsolute = true :=
    isAbsolute_join habs (written_ofString base).ne_nil
  let whole := (r.root.join (.ofString base)).join (ofString rest)
  have hspelled : r.spelled? (.ofBytes origin) dependency = some whole := by
    rw [spelled?, hkind]
  have hwhole : whole.isAbsolute = true := isAbsolute_join hdir (written_ofString rest).ne_nil
  have hwritten : whole.Written :=
    ((hroot ▸ written_ofBytes root).join (written_ofString base)).join (written_ofString rest)
  rw [resolveBy?_eq habs] at htarget
  obtain ⟨p, hfind, rfl⟩ := Option.map_eq_some_iff.mp htarget
  have hmem := List.mem_of_find?_eq_some hfind
  have hcandidate := candidate_spec habs hmem
  obtain ⟨_, hread, e, he, rfl⟩ := mem_candidates_iff.mp hmem
  obtain rfl := Option.some.inj (hspelled.symm.trans hread)
  obtain ⟨hplace, hclimbs⟩ := hrest.location_join (r.root.join (.ofString base))
  have hcomponents := components_normalize_extend hwhole hwritten hplace hrest.map_ne_nil
    hrest.forall_isName (isName_extended hrest.map_ne_nil hrest.forall_isName
      (isName_tail_of_default e (hextensions ▸ he)))
  have hexact : (whole.normalize.extend e).normalize.components =
      (if rooted then [.root] else dir.components) ++ (namesWith names e).map .name := by
    rw [hcomponents, hclimbs, List.map_append]
    cases rooted with
    | false =>
      simp only [Bool.false_eq_true, if_false]
      rw [components_normalize hdir, List.append_assoc]
      rfl
    | true => rfl
  have hshown : (∃ s, root = Text.encode s) →
      (whole.normalize.extend e).normalize.shown = (whole.normalize.extend e).normalize := by
    rintro ⟨s, rfl⟩
    have hbase := shown_normalize hwhole (shown_aliased (hroot ▸ shown_ofString s) base rest)
    exact shown_normalize (isAbsolute_extend ((isAbsolute_normalize whole).trans hwhole) e)
      (shown_extend hbase e)
  refine ⟨fun fs => resolve?_eq_resolveBy? fs _ _, _, e, he, List.find?_some hfind, rfl,
    fun hplain => hplain.ofString_toSlashes hcandidate.1, hshown, extended_ne_nil _ e, hexact, ?_⟩
  rw [hexact, List.append_cancel_right_eq]
  cases rooted with
  | false => simp
  | true => simp [eq_comm]

/-- An alias with its slash, and a target below its directory. -/
theorem aliased_below_of_slash :
    let r := Query.ofProject
    let origin := Path.ofBytes (Text.encode "/p/x.spec.ts")
    let files := fun p => decide (p = .ofString "/p/src/hooks/search.ts")
    (r.root.isAbsolute = true ∧ r.settings.extensions = MiningSettings.extensions {} ∧
      r.classify "@/hooks/search" = .aliased "src" "hooks/search" ∧
      NamesBehind false ["hooks", "search"] "hooks/search" ∧
      r.resolveBy? files origin "@/hooks/search" = some "/p/src/hooks/search.ts") ∧
      ∃ p : Path, ∃ e ∈ r.settings.extensions, "/p/src/hooks/search.ts" = p.toSlashes ∧
        p.components = (r.root.join (.ofString "src")).normalize.components ++
          (namesWith ["hooks", "search"] e).map .name := by
  intro r origin files
  have habs : r.root.isAbsolute = true := by decide +kernel
  have hkind : r.classify "@/hooks/search" = .aliased "src" "hooks/search" := by decide +kernel
  have hrest : NamesBehind false ["hooks", "search"] "hooks/search" :=
    ⟨by decide, by decide, by decide +kernel⟩
  have htarget : r.resolveBy? files origin "@/hooks/search" = some "/p/src/hooks/search.ts" := by
    decide +kernel
  obtain ⟨-, p, e, he, -, htext, -, -, -, -, hiff⟩ :=
    aliased_below_iff habs rfl rfl hkind hrest htarget
  exact ⟨⟨habs, rfl, hkind, hrest, htarget⟩, p, e, he, htext, hiff.mpr (.inl rfl)⟩

/-- An alias without its slash, and a target outside its directory : the file `/p/lib/a.ts` of a project
at `/p` is taken for one of `/p/src`. -/
theorem aliased_target_outside :
    let r : Resolver := ⟨.ofString "/p", { aliases := [("@", "src")] }⟩
    let file := Node.file [] 0
    let files : FileSystem :=
      ⟨.directory none [("p", .directory none [("lib", .directory none [("a.ts", file)])])], []⟩
    (r.root.isAbsolute = true ∧ r.settings.extensions = MiningSettings.extensions {} ∧
      (∀ entry ∈ r.settings.aliases, (ofString entry.2).isAbsolute = false ∧
        .dots ∉ (ofString entry.2).segments) ∧
      r.classify "@/p/lib/a" = .aliased "src" "/p/lib/a" ∧
      NamesBehind true ["p", "lib", "a"] "/p/lib/a") ∧
      r.resolve? files (.ofString "/p/x.spec.ts") "@/p/lib/a" = some "/p/lib/a.ts" ∧
      ¬(r.root.join (.ofString "src")).normalize.components <+:
        (Path.ofString "/p/lib/a.ts").components := by
  intro r file files
  refine ⟨⟨by decide +kernel, rfl, by decide +kernel, by decide +kernel,
    by decide, by decide, by decide +kernel⟩, ?_⟩
  decide +kernel

end Resolver

end SuiteScope
