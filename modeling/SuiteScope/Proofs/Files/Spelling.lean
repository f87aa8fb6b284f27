import SuiteScope.FileTree

/-!
# Spellings of a path

Two paths with the same components may be written differently, and the shortest spelling
(`Path.shortest`) is one of all of them. What a path names, its shortest spelling names as well
(`FileSystem.node_shortest`). The converse fails : a spelling may be too long, or end in a slash
behind the name of a file.
-/

namespace SuiteScope

namespace Path

/-- The shortest path with the components of `p`. -/
def shortest (p : Path) : Path :=
  ofComponents p.components

theorem shortest_eq_of_same {p q : Path} (h : p.same q = true) : p.shortest = q.shortest := by
  unfold shortest
  rw [beq_iff_eq.mp h]

/-! ## Segments that name something -/

/-- The segments that are not idle. -/
def named (segments : List FileName) : List FileName :=
  segments.filter (!isIdle ·)

/-- A component is written as the segment it comes from. -/
theorem segment_of_component? {s : FileName} {c : Component} (h : component? s = some c) :
    c.segment = s := by
  unfold component? at h
  split at h
  · cases h
  · split at h
    next heq => cases h; exact (beq_iff_eq.mp heq).symm
    next => cases h; rfl

/-- The segments without a component are those that mean nothing. -/
theorem component?_eq_none_iff {s : FileName} : component? s = none ↔ isIdle s = true := by
  unfold component?
  split
  next hidle => exact ⟨fun _ => hidle, fun _ => rfl⟩
  next hidle =>
    refine ⟨fun h => ?_, fun h => absurd h hidle⟩
    split at h <;> cases h

/-- The components of segments are written as the named ones among them. -/
theorem map_segment_filterMap (segments : List FileName) :
    (segments.filterMap component?).map Component.segment = named segments := by
  induction segments with
  | nil => rfl
  | cons s segments ih =>
    unfold named at ih ⊢
    cases h : component? s with
    | none =>
      have hs := component?_eq_none_iff.mp h
      rw [List.filterMap_cons_none h, List.filter_cons_of_neg (by simp [hs]), ih]
    | some c =>
      have hs : ¬isIdle s = true := fun hidle => by
        rw [component?_eq_none_iff.mpr hidle] at h
        cases h
      rw [List.filterMap_cons_some h, List.filter_cons_of_pos (by simp [hs]), List.map_cons,
        segment_of_component? h, ih]

theorem ne_empty_of_mem_named {s : FileName} {segments : List FileName} (h : s ∈ named segments) :
    s ≠ .empty := by
  rintro rfl
  have := (List.mem_filter.mp h).2
  simp [isIdle] at this

/-- A path is absolute if something follows an empty first segment. -/
theorem isAbsolute_iff {p : Path} :
    p.isAbsolute = true ↔ ∃ s rest, p.segments = .empty :: s :: rest := by
  unfold isAbsolute
  split
  next s rest heq => exact ⟨fun _ => ⟨s, rest, heq⟩, fun _ => rfl⟩
  next hne => exact ⟨nofun, fun ⟨s, rest, heq⟩ => (hne s rest heq).elim⟩

/-- The path of the empty text. -/
def isVoid (p : Path) : Bool :=
  p.segments.all (· == .empty) && !p.isAbsolute

/-- A path starts with a slash, with a dot or with a name. Its shortest spelling starts the same
way, and goes on with the segments that name something. -/
theorem segments_shortest {p : Path} (h : p.isVoid = false) :
    (∃ s rest, p.segments = .empty :: s :: rest ∧
      p.shortest.segments = .empty :: if named (s :: rest) = [] then [.empty] else named (s :: rest)) ∨
    (∃ rest, p.segments = .dot :: rest ∧ p.shortest.segments = .dot :: named rest) ∨
    (p.isAbsolute = false ∧ named p.segments ≠ [] ∧ p.shortest.segments = named p.segments) := by
  obtain ⟨segments⟩ := p
  unfold shortest components
  cases segments with
  | nil => cases h
  | cons s rest =>
    by_cases hdot : s = .dot
    · subst hdot
      refine .inr (.inl ⟨rest, rfl, ?_⟩)
      simp only [lead, Option.toList_some, List.singleton_append]
      rw [← map_segment_filterMap]
      rfl
    · by_cases hempty : s = .empty
      · subst hempty
        cases rest with
        | nil => cases h
        | cons s rest =>
          refine .inl ⟨s, rest, rfl, ?_⟩
          simp only [lead, Option.toList_some, List.singleton_append]
          rw [← map_segment_filterMap]
          cases (s :: rest).filterMap component? <;> rfl
      · have hlead : lead ⟨s :: rest⟩ = (none, s :: rest) := by
          unfold lead
          split <;> simp_all
        have hnamed : named (s :: rest) = s :: named rest :=
          List.filter_cons_of_pos (by simp [isIdle, hempty, hdot])
        refine .inr (.inr ⟨?_, by simp [hnamed], ?_⟩)
        · rw [← Bool.not_eq_true, isAbsolute_iff]
          rintro ⟨t, l, heq⟩
          exact hempty (List.cons.inj heq).1
        · simp only [hlead, Option.toList_none, List.nil_append]
          rw [← map_segment_filterMap]
          cases hcs : (s :: rest).filterMap component? with
          | nil => simp [← map_segment_filterMap, hcs] at hnamed
          | cons c cs =>
            have hc : c ≠ .root := by
              rintro rfl
              rw [← map_segment_filterMap, hcs, List.map_cons] at hnamed
              exact hempty (List.cons.inj hnamed).1.symm
            unfold ofComponents
            split <;> simp_all

/-- The shortest spelling is as absolute as the path. -/
theorem isAbsolute_shortest {p : Path} (h : p.isVoid = false) :
    p.shortest.isAbsolute = p.isAbsolute := by
  rw [Bool.eq_iff_iff, isAbsolute_iff]
  rcases segments_shortest h with ⟨s, rest, hp, hq⟩ | ⟨rest, hp, hq⟩ | ⟨hp, -, hq⟩
  · refine ⟨fun _ => isAbsolute_iff.mpr ⟨s, rest, hp⟩, fun _ => ?_⟩
    rw [hq]
    split
    · exact ⟨.empty, [], rfl⟩
    next hne =>
      obtain ⟨t, l, htl⟩ := List.exists_cons_of_ne_nil hne
      exact ⟨t, l, by rw [htl]⟩
  · rw [isAbsolute_iff]
    constructor
    · rintro ⟨t, l, heq⟩
      rw [hq] at heq
      exact absurd (List.cons.inj heq).1 (by decide)
    · rintro ⟨t, l, heq⟩
      rw [hp] at heq
      exact absurd (List.cons.inj heq).1 (by decide)
  · rw [hp]
    refine ⟨fun ⟨t, l, heq⟩ => ?_, nofun⟩
    rw [hq] at heq
    have hmem : .empty ∈ named p.segments := by simp [heq]
    exact absurd rfl (ne_empty_of_mem_named hmem)

/-- It names something if the path does. -/
theorem isVoid_shortest {p : Path} (h : p.isVoid = false) : p.shortest.isVoid = false := by
  unfold isVoid
  rw [isAbsolute_shortest h, Bool.and_eq_false_iff]
  rcases segments_shortest h with ⟨s, rest, hp, hq⟩ | ⟨rest, hp, hq⟩ | ⟨-, hne, hq⟩
  · rw [isAbsolute_iff.mpr ⟨s, rest, hp⟩]
    exact .inr rfl
  · rw [hq]
    exact .inl rfl
  · obtain ⟨t, l, htl⟩ := List.exists_cons_of_ne_nil hne
    have hmem : t ∈ named p.segments := by simp [htl]
    have ht := ne_empty_of_mem_named hmem
    rw [hq, htl]
    exact .inl (by simp [ht])

/-- It brings in no segment but the empty one. -/
theorem mem_segments_of_mem_shortest {p : Path} (h : p.isVoid = false) {s : FileName}
    (hs : s ∈ p.shortest.segments) : s ∈ p.segments ∨ s = .empty := by
  have hmem : ∀ {l : List FileName}, s ∈ named l → s ∈ l := fun h => (List.mem_filter.mp h).1
  rcases segments_shortest h with ⟨t, rest, hp, hq⟩ | ⟨rest, hp, hq⟩ | ⟨-, -, hq⟩
  · rw [hq, List.mem_cons] at hs
    rw [hp]
    rcases hs with rfl | hs
    · exact .inr rfl
    · split at hs
      · exact .inr (by simpa using hs)
      · exact .inl (List.mem_cons_of_mem _ (hmem hs))
  · rw [hq, List.mem_cons] at hs
    rw [hp]
    rcases hs with rfl | hs
    · exact .inl (by simp)
    · exact .inl (List.mem_cons_of_mem _ (hmem hs))
  · exact .inl (hmem (hq ▸ hs))

/-! ## Sizes -/

theorem toBytes_singleton (s : FileName) : toBytes ⟨[s]⟩ = s.bytes := by
  simp [toBytes, List.intercalate]

/-- The bytes of a path are those of its first segment, a slash, and those of the others. -/
theorem toBytes_cons_cons (s t : FileName) (segments : List FileName) :
    toBytes ⟨s :: t :: segments⟩ = s.bytes ++ slash :: toBytes ⟨t :: segments⟩ := by
  simp [toBytes, List.intercalate]

/-- A path has the bytes of its segments and of the slashes between them. -/
theorem length_toBytes_cons (s : FileName) (segments : List FileName) :
    (toBytes ⟨s :: segments⟩).length =
      s.bytes.length + if segments = [] then 0 else 1 + (toBytes ⟨segments⟩).length := by
  cases segments with
  | nil => rw [toBytes_singleton, if_pos rfl, Nat.add_zero]
  | cons t segments =>
    rw [toBytes_cons_cons, List.length_append, List.length_cons, if_neg (by simp), Nat.add_comm 1]

/-- Leaving out segments makes a path no longer. -/
theorem length_toBytes_le {segments segments' : List FileName} (h : segments.Sublist segments') :
    (toBytes ⟨segments⟩).length ≤ (toBytes ⟨segments'⟩).length := by
  induction h with
  | slnil => exact Nat.le_refl _
  | @cons l l' s h ih =>
    rw [length_toBytes_cons]
    cases l' with
    | nil => rw [List.sublist_nil.mp h]; simp [toBytes, List.intercalate]
    | cons => rw [if_neg (by simp)]; omega
  | @cons_cons l l' s h ih =>
    rw [length_toBytes_cons, length_toBytes_cons]
    split
    · omega
    next hne =>
      rw [if_neg (by rintro rfl; exact hne (List.sublist_nil.mp h))]
      omega

/-- The shortest spelling is the shortest. -/
theorem length_toBytes_shortest_le {p : Path} (h : p.isVoid = false) :
    p.shortest.toBytes.length ≤ p.toBytes.length := by
  have hsub := fun l : List FileName => List.filter_sublist (l := l) (p := (!isIdle ·))
  have hpath (q : Path) : q = ⟨q.segments⟩ := rfl
  rw [hpath p, hpath p.shortest]
  rcases segments_shortest h with ⟨s, rest, hp, hq⟩ | ⟨rest, hp, hq⟩ | ⟨-, -, hq⟩
  · rw [hp, hq]
    split
    · rw [length_toBytes_cons .empty (s :: rest), if_neg (List.cons_ne_nil s rest),
        toBytes_cons_cons, toBytes_singleton, List.length_append, List.length_singleton]
      omega
    · exact length_toBytes_le ((hsub _).cons_cons _)
  · rw [hp, hq]
    exact length_toBytes_le ((hsub _).cons_cons _)
  · rw [hq]
    exact length_toBytes_le (hsub _)

end Path

/-! ## What the spellings name -/

namespace FileSystem

/-- A walk that arrives does so without its idle segments. -/
theorem walk_named {top : Node} {place reached : List FileName} {segments : List FileName}
    (h : walk top place segments = .ok reached) :
    walk top place (Path.named segments) = .ok reached := by
  unfold Path.named
  induction segments generalizing place with
  | nil => exact h
  | cons s segments ih =>
    rw [walk] at h
    split at h
    next modified entries hdir =>
      by_cases hs : Path.isIdle s = true
      · rw [List.filter_cons_of_neg (by simp [hs])]
        rw [if_pos hs] at h
        exact ih h
      · rw [List.filter_cons_of_pos (by simpa using hs), walk, hdir]
        simp only [if_neg hs] at h ⊢
        split at h
        next hup => rw [if_pos hup]; exact ih h
        next hup =>
          rw [if_neg hup]
          split at h
          · cases h
          next hlimit =>
            rw [if_neg hlimit]
            split at h
            next hsome => rw [if_pos hsome]; exact ih h
            · cases h
    · cases h

/-- An idle segment in front changes nothing, if the walk arrives at all. -/
theorem walk_idle_cons {top : Node} {place reached : List FileName} {s : FileName}
    {segments : List FileName} (hs : Path.isIdle s = true)
    (h : walk top place (s :: segments) = .ok reached) :
    walk top place (s :: Path.named segments) = .ok reached := by
  rw [walk] at h ⊢
  split at h
  next =>
    rw [if_pos hs] at h
    simp only [if_pos hs]
    exact walk_named h
  · cases h

/-- Walking along an idle segment twice is walking along it once. -/
theorem walk_idle_idle {top : Node} {place reached : List FileName} {s : FileName}
    {segments : List FileName} (hs : Path.isIdle s = true)
    (h : walk top place (s :: segments) = .ok reached) :
    walk top place (s :: s :: segments) = .ok reached := by
  have h' := h
  rw [walk] at h' ⊢
  split at h'
  · simpa only [if_pos hs] using h
  · cases h'

/-- A path names a place exactly if it is well written and may be walked. -/
theorem place_eq_ok_iff {fs : FileSystem} {p : Path} {reached : List FileName} :
    fs.place p = .ok reached ↔
      p.segments.any (·.bytes.contains 0) = false ∧ p.isVoid = false ∧
        p.toBytes.length < pathLimit ∧
        walk fs.top (if p.isAbsolute then [] else fs.here) p.segments = .ok reached := by
  unfold place Path.isVoid
  split
  next h =>
    exact ⟨nofun, fun ⟨hnul, _⟩ => by rw [h] at hnul; cases hnul⟩
  next hnul =>
    split
    next h =>
      exact ⟨nofun, fun ⟨_, hvoid, _⟩ => by rw [h] at hvoid; cases hvoid⟩
    next hvoid =>
      split
      next h => exact ⟨nofun, fun ⟨_, _, hlt, _⟩ => by omega⟩
      next hlt =>
        exact ⟨fun h => ⟨by simpa using hnul, by simpa using hvoid, by omega, h⟩, fun h => h.2.2.2⟩

/-- A path names what is at its place. -/
theorem node_eq_ok_iff {fs : FileSystem} {p : Path} {n : Node} :
    fs.node p = .ok n ↔ ∃ reached, fs.place p = .ok reached ∧ fs.top.at? reached = some n := by
  unfold node
  constructor
  · intro h
    split at h
    · cases h
    next reached hplace =>
      split at h
      next heq => cases h; exact ⟨reached, hplace, heq⟩
      · cases h
  · rintro ⟨reached, hplace, hat⟩
    rw [hplace]
    dsimp only
    rw [hat]

/-- The shortest spelling leads to the same place. -/
theorem walk_shortest {top : Node} {place reached : List FileName} {p : Path}
    (hvoid : p.isVoid = false) (h : walk top place p.segments = .ok reached) :
    walk top place p.shortest.segments = .ok reached := by
  rcases Path.segments_shortest hvoid with ⟨s, rest, hp, hq⟩ | ⟨rest, hp, hq⟩ | ⟨-, -, hq⟩
  · rw [hp] at h
    have hnamed := walk_idle_cons rfl h
    rw [hq]
    split
    next heq =>
      rw [heq] at hnamed
      exact walk_idle_idle rfl hnamed
    next => exact hnamed
  · rw [hp] at h
    rw [hq]
    exact walk_idle_cons rfl h
  · rw [hq]
    exact walk_named h

/-- The shortest spelling reaches what the path reaches. -/
theorem place_shortest {fs : FileSystem} {p : Path} {reached : List FileName}
    (h : fs.place p = .ok reached) : fs.place p.shortest = .ok reached := by
  rw [place_eq_ok_iff] at h ⊢
  obtain ⟨hnul, hvoid, hlt, hwalk⟩ := h
  have hle := Path.length_toBytes_shortest_le hvoid
  refine ⟨?_, Path.isVoid_shortest hvoid, by omega, ?_⟩
  · rw [List.any_eq_false] at hnul ⊢
    intro s hs
    rcases Path.mem_segments_of_mem_shortest hvoid hs with hs | rfl
    · exact hnul s hs
    · simp
  · rw [Path.isAbsolute_shortest hvoid]
    exact walk_shortest hvoid hwalk

/-- What a path names, its shortest spelling names. -/
theorem node_shortest {fs : FileSystem} {p : Path} {n : Node} (h : fs.node p = .ok n) :
    fs.node p.shortest = .ok n := by
  unfold node at h ⊢
  split at h
  · cases h
  next hplace => rw [place_shortest hplace]; exact h

end FileSystem

end SuiteScope
