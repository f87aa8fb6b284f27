import Mathlib.Data.List.Infix
import SuiteScope.Proofs.Files.Descent
import SuiteScope.Proofs.Files.Identity

/-!
# Composed paths

A path is composed of a directory and what is joined to it, and of an extension behind its bytes, which
may bring segments of its own (`Path.segments_extend`). The joined path leads from the place of the
directory on (`Path.location_join`). The extension changes the last name of the place that a path leads
to, and goes down from there if it brings further names (`Path.components_normalize_extend`).

The normal form of a path is its own normal form (`Path.normalize_normalize`). What holds of the names of
some paths holds of the names of those that are composed of them (`Path.forall_mem_join`,
`Path.forall_mem_normalize`, `Path.forall_mem_parent?`). Two such properties are told by the text of a
path : whether it is `Path.Plain`, without a backslash, and whether it is shown as it is. Of a path without
backslashes the text is read as the path that it shows (`Path.Plain.ofString_toSlashes`).
-/

namespace SuiteScope

namespace Path

variable {p q : Path}

/-! ## Extensions -/

/-- The extension goes on where the last segment ends. -/
theorem segments_extend {segments : List FileName} {last : FileName}
    (h : (⟨segments ++ [last]⟩ : Path).Written) (e : String) :
    (extend ⟨segments ++ [last]⟩ e).segments =
      segments ++ (ofBytes (last.bytes ++ Text.encode e)).segments := by
  have hread := congrArg Path.segments (ofBytes_toBytes h)
  obtain ⟨init, piece, hs, hst⟩ := splitAt_append_left slash
    (toBytes ⟨segments ++ [last]⟩) (Text.encode e)
  rw [ofBytes, hs, List.map_append, List.map_singleton] at hread
  obtain ⟨rfl, hlast⟩ := List.append_inj' hread rfl
  obtain rfl := List.singleton_inj.mp hlast
  rw [extend, ofBytes, ofBytes, hst, List.map_append]

/-- A path with an ending is as absolute as without. -/
theorem isAbsolute_extend (h : p.isAbsolute = true) (e : String) :
    (p.extend e).isAbsolute = true := by
  obtain ⟨segments⟩ := p
  obtain ⟨s, rest, rfl⟩ := isAbsolute_iff.mp h
  obtain ⟨piece, pieces, heq⟩ := List.exists_cons_of_ne_nil
    (splitAt_ne_nil slash (toBytes ⟨s :: rest⟩ ++ Text.encode e))
  rw [isAbsolute_iff, extend, ofBytes, toBytes_cons_cons, List.nil_append, List.cons_append,
    splitAt, if_pos rfl, heq]
  exact ⟨_, _, rfl⟩

/-! ## Normal forms -/

/-- A normal form is its own normal form. -/
theorem normalize_normalize (p : Path) : p.normalize.normalize = p.normalize :=
  normalize_congr (isAbsolute_normalize p) (by rw [climbs_normalize, Nat.mod_mod])
    (location_normalize p)

/-- Proper names are their own components. -/
theorem filterMap_component?_names {place : List FileName}
    (h : ∀ s ∈ place, isIdle s = false ∧ s ≠ .dots) :
    place.filterMap component? = place.map .name := by
  induction place with
  | nil => rfl
  | cons s place ih =>
    obtain ⟨hs, hplace⟩ := List.forall_mem_cons.mp h
    have hname : component? s = some (.name s) := by
      rw [component?, if_neg (by simp [hs.1]), if_neg (by simpa using hs.2)]
    rw [List.filterMap_cons_some hname, ih hplace, List.map_cons]

/-- The components of a normal form : one for each name of its place, behind the top and a `..` if the
path goes up from the top an odd number of times. -/
theorem components_normalize (h : p.isAbsolute = true) :
    p.normalize.components =
      (.root :: if p.climbs % 2 = 1 then [.up] else []) ++ p.location.map .name := by
  have hplace := filterMap_component?_names fun s (hs : s ∈ p.location) => (mem_location hs).2
  have hnormal : p.normalize = ⟨normalSegments p.climbs p.location⟩ :=
    congrArg Path.mk (segments_normalize h)
  rw [hnormal, normalSegments]
  split
  · have hlead : lead ⟨.empty :: .dots :: p.location⟩ = (some .root, .dots :: p.location) := rfl
    have hup : (.dots :: p.location).filterMap component? = .up :: p.location.map .name := by
      rw [List.filterMap_cons_some (rfl : component? .dots = some .up), hplace]
    rw [components, hlead]
    exact congrArg (Component.root :: ·) hup
  · split
    next hempty => rw [hempty]; rfl
    next hne =>
      obtain ⟨s, rest, hsegments⟩ := List.exists_cons_of_ne_nil hne
      have hlead : lead ⟨.empty :: p.location⟩ = (some .root, p.location) := by rw [hsegments]; rfl
      rw [components, hlead, hplace]
      rfl

/-- The components of a normal form are what is left after cancelling. -/
theorem components_normalize_eq (p : Path) : p.normalize.components = p.normalComponents := by
  rw [normalComponents_eq_append]
  cases habs : p.isAbsolute with
  | true =>
    rw [components_normalize habs]
    rfl
  | false =>
    have hplace := filterMap_component?_names fun s (hs : s ∈ p.location) => (mem_location hs).2
    have hnormal : p.normalize = ⟨(normalSegments p.climbs p.location).tail⟩ :=
      congrArg Path.mk (segments_normalize_of_relative habs)
    rw [hnormal, normalSegments, List.tail_cons, if_neg Bool.false_ne_true, List.nil_append]
    split
    · have hlead : lead ⟨.dots :: p.location⟩ = (none, .dots :: p.location) := rfl
      rw [components, hlead, List.filterMap_cons_some (rfl : component? .dots = some .up), hplace]
      rfl
    · split
      next hempty => rw [hempty]; rfl
      next hne =>
        obtain ⟨s, rest, hsegments⟩ := List.exists_cons_of_ne_nil hne
        have hidle := (mem_location (hsegments ▸ List.mem_cons_self : s ∈ p.location)).2.1
        rw [components, hsegments, lead_of_not_isIdle hidle, ← hsegments, hplace]
        rfl

/-! ## Where composed paths lead -/

/-- A walk climbs as often as its two parts do. -/
theorem climbsFrom_append (place segments segments' : List FileName) :
    climbsFrom place (segments ++ segments') =
      climbsFrom place segments + climbsFrom (segments.foldl enter place) segments' := by
  induction segments generalizing place with
  | nil => simp [climbsFrom]
  | cons s segments ih => rw [List.cons_append, climbsFrom, ih, climbsFrom, Nat.add_assoc]; rfl

/-- An empty segment at the end leads nowhere. -/
theorem lead_of_dropLast_empty {segments : List FileName}
    (h : segments.getLast?.all (· == .empty) = true) (place : List FileName) :
    segments.dropLast.foldl enter place = segments.foldl enter place ∧
      climbsFrom place segments.dropLast = climbsFrom place segments := by
  rcases List.eq_nil_or_concat segments with rfl | ⟨init, last, rfl⟩
  · exact ⟨rfl, rfl⟩
  · rw [List.concat_eq_append] at h ⊢
    obtain rfl : last = .empty := by simpa using h
    rw [List.dropLast_concat, List.foldl_concat, climbsFrom_append]
    exact ⟨rfl, rfl⟩

/-- What is joined to a path leads from its place on. -/
theorem location_join (hq : q.isAbsolute = false) (p : Path) :
    (p.join q).location = q.segments.foldl enter p.location ∧
      (p.join q).climbs = p.climbs + climbsFrom p.location q.segments := by
  unfold join location climbs
  rw [if_neg (by simp [hq])]
  split
  next hlast =>
    obtain ⟨hplace, hclimbs⟩ := lead_of_dropLast_empty hlast []
    dsimp only
    rw [List.foldl_append, climbsFrom_append, hplace, hclimbs]
    exact ⟨rfl, rfl⟩
  next =>
    dsimp only
    rw [List.foldl_append, climbsFrom_append]
    exact ⟨rfl, rfl⟩

/-- What is joined to a path does not make it absolute unless it is so itself. -/
theorem isAbsolute_join_of_relative (hq : q.isAbsolute = false) (hne : q.segments ≠ []) (p : Path) :
    (p.join q).isAbsolute = p.isAbsolute := by
  cases hp : p.isAbsolute with
  | true => exact isAbsolute_join hp hne
  | false =>
    obtain ⟨segments⟩ := p
    rw [← Bool.not_eq_true, isAbsolute_iff] at hp hq ⊢
    unfold join
    rw [if_neg (by rwa [isAbsolute_iff])]
    rintro ⟨s, rest, heq⟩
    cases segments with
    | nil => exact hq ⟨s, rest, heq⟩
    | cons t tail =>
      -- A relative path that starts with an empty segment has no other one.
      by_cases ht : t = .empty
      · subst ht
        cases tail with
        | nil => exact hq ⟨s, rest, heq⟩
        | cons u tail => exact hp ⟨u, tail, rfl⟩
      · split at heq
        next hlast =>
          cases tail with
          | nil => exact absurd (by simpa using hlast) ht
          | cons u tail => exact ht (List.cons.inj heq).1
        next => exact ht (List.cons.inj heq).1

/-- What is joined to the normal form of a path may as well be joined to the path. -/
theorem normalize_join (p : Path) (hne : q.segments ≠ []) :
    (p.normalize.join q).normalize = (p.join q).normalize := by
  cases hq : q.isAbsolute with
  | true => rw [join, join, if_pos hq, if_pos hq]
  | false =>
    obtain ⟨hlocation, hclimbs⟩ := location_join hq p
    obtain ⟨hlocation', hclimbs'⟩ := location_join hq p.normalize
    rw [location_normalize] at hlocation' hclimbs'
    refine normalize_congr ?_ ?_ (hlocation'.trans hlocation.symm)
    · rw [isAbsolute_join_of_relative hq hne, isAbsolute_join_of_relative hq hne,
        isAbsolute_normalize]
    · rw [hclimbs, hclimbs', climbs_normalize, Nat.mod_add_mod]

/-! ## Names with an extension -/

/-- The names of a path with an extension behind its text. -/
def extended (names : List FileName) (e : String) : List FileName :=
  ((⟨names⟩ : Path).extend e).segments

/-- A name without slashes only changes the first segment of what stands behind it. -/
theorem segments_ofBytes_append {s : FileName} (hs : slash ∉ s.bytes) (e : String) :
    ∃ first others, (ofString e).segments = first :: others ∧ slash ∉ first.bytes ∧
      (ofBytes (s.bytes ++ Text.encode e)).segments = ⟨s.bytes ++ first.bytes⟩ :: others := by
  obtain ⟨first, others, hsplit⟩ := List.exists_cons_of_ne_nil (splitAt_ne_nil slash (Text.encode e))
  have hfirst : slash ∉ first := not_mem_of_mem_splitAt (hsplit ▸ List.mem_cons_self)
  refine ⟨⟨first⟩, others.map .mk, ?_, hfirst, ?_⟩
  · rw [ofString, ofBytes, hsplit, List.map_cons]
  · rw [ofBytes, splitAt_append_of_not_mem hs hsplit, List.map_cons]

/-- A name with bytes other than slashes behind it is a name. -/
theorem IsName.append {s t : FileName} (h : IsName s) (ht : slash ∉ t.bytes) :
    IsName ⟨s.bytes ++ t.bytes⟩ := by
  have hdots : ¬s.bytes <+: FileName.dots.bytes := by
    rw [← List.mem_inits]
    intro hmem
    have hidle := h.idle
    simp only [List.inits, List.map_cons, List.map_nil, List.mem_cons, List.not_mem_nil,
      or_false] at hmem
    rcases hmem with hs | hs | hs
    · obtain rfl : s = .empty := FileName.ext hs
      cases hidle
    · obtain rfl : s = .dot := FileName.ext hs
      cases hidle
    · exact h.ne_up (FileName.ext hs)
  have hne {u : FileName} (hu : u.bytes <+: FileName.dots.bytes) :
      (⟨s.bytes ++ t.bytes⟩ : FileName) ≠ u := fun heq =>
    hdots (List.IsPrefix.trans ⟨t.bytes, congrArg FileName.bytes heq⟩ hu)
  refine ⟨?_, hne (by decide), ?_⟩
  · simp only [isIdle, Bool.or_eq_false_iff, beq_eq_false_iff_ne]
    exact ⟨hne (by decide), hne (by decide)⟩
  · rw [List.mem_append, not_or]
    exact ⟨h.slash_not_mem, ht⟩

/-- An ending goes to the last name. -/
theorem extended_concat {names : List FileName} {last : FileName}
    (h : ∀ s ∈ names ++ [last], IsName s) (e : String) :
    extended (names ++ [last]) e = names ++ (ofBytes (last.bytes ++ Text.encode e)).segments :=
  segments_extend ⟨by simp, fun s hs => (h s hs).slash_not_mem⟩ e

/-- Names with an ending are still there. -/
theorem extended_ne_nil (names : List FileName) (e : String) : extended names e ≠ [] :=
  (written_ofBytes _).ne_nil

/-- The extension changes the last name, and goes on behind it with names of its own. -/
theorem isName_extended {names : List FileName} (hne : names ≠ []) (hnames : ∀ s ∈ names, IsName s)
    {e : String} (he : ∀ s ∈ (ofString e).segments.tail, IsName s) :
    ∀ s ∈ extended names e, IsName s := by
  rcases List.eq_nil_or_concat names with rfl | ⟨above, last, rfl⟩
  · exact absurd rfl hne
  · rw [List.concat_eq_append] at hnames ⊢
    have hlast := hnames last (by simp)
    obtain ⟨first, others, hsegments, hfirst, happend⟩ :=
      segments_ofBytes_append hlast.slash_not_mem e
    rw [hsegments, List.tail_cons] at he
    rw [extended_concat hnames, happend]
    intro s hs
    simp only [List.mem_append, List.mem_cons] at hs
    rcases hs with hs | rfl | hs
    · exact hnames s (List.mem_append_left _ hs)
    · exact hlast.append hfirst
    · exact he s hs

/-- What is put behind the text of a path goes on from the last name of its place. -/
theorem location_extend (h : p.isAbsolute = true) (hp : p.Written) {above : List FileName}
    {last : FileName} (hplace : p.location = above ++ [last]) (e : String) :
    (p.normalize.extend e).location = (ofBytes (last.bytes ++ Text.encode e)).segments.foldl enter above ∧
      (p.normalize.extend e).climbs =
        p.climbs % 2 + climbsFrom above (ofBytes (last.bytes ++ Text.encode e)).segments := by
  let top : List FileName := .empty :: if p.climbs % 2 = 1 then [.dots] else []
  have hnormal : p.normalize = ⟨top ++ above ++ [last]⟩ := by
    refine congrArg Path.mk ((segments_normalize h).trans ?_)
    rcases Nat.mod_two_eq_zero_or_one p.climbs with hk | hk <;> simp [top, hplace, normalSegments, hk]
  have habove : ∀ s ∈ above, isIdle s = false ∧ s ≠ .dots := fun s hs =>
    (mem_location (hplace ▸ List.mem_append_left _ hs)).2
  have htop : top.foldl enter [] = [] ∧ climbsFrom [] top = p.climbs % 2 := by
    rcases Nat.mod_two_eq_zero_or_one p.climbs with hk | hk
    all_goals
      simp only [top, hk]
      decide
  have hwalk : (top ++ above).foldl enter [] = above ∧
      climbsFrom [] (top ++ above) = p.climbs % 2 := by
    rw [List.foldl_append, climbsFrom_append, htop.1, htop.2, foldl_enter_names habove,
      climbsFrom_names fun hup => (habove .dots hup).2 rfl]
    exact ⟨rfl, rfl⟩
  have hsegments : (p.normalize.extend e).segments =
      top ++ above ++ (ofBytes (last.bytes ++ Text.encode e)).segments := by
    have hwritten := hp.normalize h
    rw [hnormal] at hwritten ⊢
    exact segments_extend hwritten e
  rw [location, climbs, hsegments, List.foldl_append, climbsFrom_append, hwalk.1, hwalk.2]
  exact ⟨rfl, rfl⟩

/-- A path that leads to names, with an extension behind it : it leads to the names with the extension
behind them. -/
theorem components_normalize_extend (h : p.isAbsolute = true) (hp : p.Written)
    {above names : List FileName} (hplace : p.location = above ++ names) (hne : names ≠ [])
    (hnames : ∀ s ∈ names, IsName s) {e : String} (he : ∀ s ∈ extended names e, IsName s) :
    (p.normalize.extend e).normalize.components =
      (.root :: if p.climbs % 2 = 1 then [.up] else []) ++
        (above ++ extended names e).map .name := by
  rcases List.eq_nil_or_concat names with rfl | ⟨init, last, rfl⟩
  · exact absurd rfl hne
  · rw [List.concat_eq_append] at hplace hnames he ⊢
    rw [← List.append_assoc] at hplace
    obtain ⟨hlocation, hclimbs⟩ := location_extend h hp hplace e
    rw [extended_concat hnames] at he ⊢
    have hpieces : ∀ s ∈ (ofBytes (last.bytes ++ Text.encode e)).segments, IsName s := fun s hs =>
      he s (List.mem_append_right _ hs)
    rw [foldl_enter_names fun s hs => ⟨(hpieces s hs).idle, (hpieces s hs).ne_up⟩] at hlocation
    rw [climbsFrom_names fun hup => (hpieces .dots hup).ne_up rfl, Nat.add_zero] at hclimbs
    rw [components_normalize (isAbsolute_extend ((isAbsolute_normalize p).trans h) e), hlocation, hclimbs,
      Nat.mod_mod, List.append_assoc]

/-! ## What holds of every name -/

section

variable {P : FileName → Prop}

/-- What is true of the segments of two paths is true of those of the joined path. -/
theorem forall_mem_join (hp : ∀ s ∈ p.segments, P s) (hq : ∀ s ∈ q.segments, P s) :
    ∀ s ∈ (p.join q).segments, P s := by
  unfold Path.join
  split
  · exact hq
  · split
    · exact List.forall_mem_append.mpr ⟨fun s hs => hp s (List.dropLast_subset _ hs), hq⟩
    · exact List.forall_mem_append.mpr ⟨hp, hq⟩

/-- What is true of the segments of an absolute path stays true, if it is true of dots and of the
empty segment. -/
theorem forall_mem_normalize (hempty : P .empty) (hdots : P .dots) (h : p.isAbsolute = true)
    (hp : ∀ s ∈ p.segments, P s) : ∀ s ∈ p.normalize.segments, P s := by
  intro s hs
  rcases mem_segments_normalize h hs with rfl | rfl | hs
  · exact hempty
  · exact hdots
  · exact hp s hs

theorem mem_dropIdleTail {segments : List FileName} {s : FileName} (h : s ∈ dropIdleTail segments) :
    s ∈ segments := by
  have hmem := (List.dropWhile_suffix isIdle).mem (List.mem_reverse.mp h)
  exact List.mem_reverse.mp hmem

theorem mem_ofLead {first : Option Component} {segments : List FileName} {s : FileName}
    (h : s ∈ (ofLead first segments).segments) :
    s = .empty ∨ (∃ c ∈ first, s = c.segment) ∨ s ∈ segments := by
  unfold ofLead at h
  split at h
  · exact .inl (by simpa using h)
  next c _ =>
    rcases List.mem_cons.mp h with rfl | h
    · exact .inr (.inl ⟨c, rfl, rfl⟩)
    · exact .inr (.inr (mem_dropIdleTail h))
  · exact .inl (List.mem_singleton.mp h)
  · exact .inr (.inr (mem_dropIdleTail h))

/-- What is true of the segments of an absolute path is true of those of its parent. -/
theorem forall_mem_parent? (hempty : P .empty) {dir : Path} (h : p.isAbsolute = true)
    (hdir : p.parent? = some dir) (hp : ∀ s ∈ p.segments, P s) : ∀ s ∈ dir.segments, P s := by
  obtain ⟨segments⟩ := p
  obtain ⟨s, rest, rfl⟩ := isAbsolute_iff.mp h
  have hlead : lead ⟨.empty :: s :: rest⟩ = (some .root, s :: rest) := rfl
  rw [Path.parent?, hlead] at hdir
  dsimp only at hdir
  cases htail : dropIdleTail (s :: rest) with
  | nil => rw [htail] at hdir; cases hdir
  | cons t tail =>
    rw [htail] at hdir
    obtain rfl := Option.some_inj.mp hdir
    intro u hu
    rcases mem_ofLead hu with rfl | ⟨c, hc, rfl⟩ | hu
    · exact hempty
    · cases hc
      exact hempty
    · have hmem := mem_dropIdleTail (htail ▸ List.dropLast_subset _ hu)
      exact hp u (List.mem_cons_of_mem _ hmem)

end

/-! ## Paths without backslashes -/

/-- No backslash in any segment. -/
def Plain (p : Path) : Prop :=
  ∀ s ∈ p.segments, 0x5c ∉ s.bytes

theorem plain_iff : p.Plain ↔ '\\' ∉ p.toString.toList := by
  rw [backslash_mem_toString, Plain]
  simp only [not_exists, not_and]

/-- Bytes without a backslash are the bytes of a plain path. -/
theorem plain_ofBytes {bytes : List UInt8} (h : 0x5c ∉ bytes) : (ofBytes bytes).Plain := by
  intro s hs hmem
  refine h (toBytes_ofBytes bytes ▸ (mem_toBytes (by decide)).mpr ⟨s, hs, hmem⟩)

theorem plain_ofString {s : String} (h : '\\' ∉ s.toList) : (ofString s).Plain :=
  plain_ofBytes fun hmem => h ((Text.mem_encode_iff (by decide) s).mp hmem)

/-- An ending without backslashes keeps a path plain. -/
theorem Plain.extend (hp : p.Plain) {e : String} (he : '\\' ∉ e.toList) : (p.extend e).Plain := by
  refine plain_ofBytes ?_
  rw [List.mem_append, not_or, mem_toBytes (by decide)]
  refine ⟨fun ⟨s, hs, hmem⟩ => hp s hs hmem, fun hmem => he ?_⟩
  exact (Text.mem_encode_iff (by decide) e).mp hmem

/-- Plain paths are joined to a plain one. -/
theorem Plain.join (hp : p.Plain) (hq : q.Plain) : (p.join q).Plain :=
  forall_mem_join hp hq

/-- Normalizing brings in no backslash. -/
theorem Plain.normalize (hp : p.Plain) (h : p.isAbsolute = true) : p.normalize.Plain :=
  forall_mem_normalize (by decide) (by decide) h hp

/-- Neither does the way to the parent. -/
theorem Plain.parent? {dir : Path} (hp : p.Plain) (h : p.isAbsolute = true)
    (hdir : p.parent? = some dir) : dir.Plain :=
  forall_mem_parent? (by decide) h hdir hp

/-- From its identity, a path without backslashes is read as it is shown. -/
theorem Plain.ofString_toSlashes (hp : p.Plain) (h : p.Written) :
    ofString p.toSlashes = p.shown := by
  rw [toSlashes_eq_toString (plain_iff.mp hp), ofString_toString h]

/-! ## Paths that are shown as they are -/

/-- A path is shown as itself exactly if all its names are. -/
theorem shown_eq_self_iff : p.shown = p ↔ ∀ s ∈ p.segments, s.shown = s := by
  obtain ⟨segments⟩ := p
  rw [shown, Path.mk.injEq]
  induction segments with
  | nil => simp
  | cons s segments ih => rw [List.map_cons, List.cons.injEq, List.forall_mem_cons, ih]

/-- The path of a text is shown as itself. -/
theorem shown_ofString (s : String) : (ofString s).shown = ofString s :=
  (shown_eq_iff (written_ofString s)).mpr ⟨s, rfl⟩

/-- A segment means nothing exactly if it is shown as one that does. -/
theorem isIdle_shown (s : FileName) : isIdle s.shown = isIdle s := by
  rw [Bool.eq_iff_iff]
  simp only [isIdle, Bool.or_eq_true, beq_iff_eq, FileName.shown_eq_empty_iff,
    FileName.shown_eq_dot_iff]

/-- Entering a segment and showing it may change places. -/
theorem enter_shown (place : List FileName) (s : FileName) :
    enter (place.map FileName.shown) s.shown = (enter place s).map FileName.shown := by
  unfold enter
  rw [isIdle_shown]
  split
  · rfl
  · by_cases hup : s = .dots
    · rw [if_pos hup, if_pos (FileName.shown_eq_dots_iff.mpr hup), List.map_dropLast]
    · rw [if_neg hup, if_neg (FileName.shown_eq_dots_iff.not.mpr hup), List.map_append]
      rfl

/-- A path as it is shown leads to the place that its names show. -/
theorem location_shown (p : Path) : p.shown.location = p.location.map FileName.shown := by
  have hwalk (place segments : List FileName) :
      (segments.map FileName.shown).foldl enter (place.map FileName.shown) =
        (segments.foldl enter place).map FileName.shown := by
    induction segments generalizing place with
    | nil => rfl
    | cons s segments ih => rw [List.map_cons, List.foldl_cons, List.foldl_cons, enter_shown, ih]
  exact hwalk [] p.segments

/-- A path climbs as often as the path that is shown. -/
theorem climbs_shown (p : Path) : p.shown.climbs = p.climbs := by
  have hwalk (place segments : List FileName) :
      climbsFrom (place.map FileName.shown) (segments.map FileName.shown) =
        climbsFrom place segments := by
    induction segments generalizing place with
    | nil => rfl
    | cons s segments ih =>
      simp only [List.map_cons, climbsFrom, enter_shown, ih, FileName.shown_eq_dots_iff,
        List.map_eq_nil_iff]
  exact hwalk [] p.segments

/-- It is as absolute. -/
theorem isAbsolute_shown (p : Path) : p.shown.isAbsolute = p.isAbsolute := by
  rw [Bool.eq_iff_iff, isAbsolute_iff, isAbsolute_iff]
  constructor
  · rintro ⟨s, rest, heq⟩
    obtain ⟨first, others, hsegments, hfirst, hothers⟩ := List.map_eq_cons_iff.mp heq
    obtain ⟨t, tail, rfl, -, -⟩ := List.map_eq_cons_iff.mp hothers
    exact ⟨t, tail, by rw [hsegments, FileName.shown_eq_empty_iff.mp hfirst]⟩
  · rintro ⟨s, rest, heq⟩
    refine ⟨s.shown, rest.map FileName.shown, ?_⟩
    rw [shown, heq, List.map_cons, List.map_cons, FileName.shown_eq_empty_iff.mpr rfl]

/-- Dots are shown as themselves, so the normal form of what is shown is the normal form that is
shown. -/
theorem normalize_shown (h : p.isAbsolute = true) : p.shown.normalize = p.normalize.shown := by
  have hempty : FileName.empty.shown = .empty := FileName.shown_eq_empty_iff.mpr rfl
  have hdots : FileName.dots.shown = .dots := FileName.shown_eq_dots_iff.mpr rfl
  have hsegments : normalSegments p.climbs (p.location.map FileName.shown) =
      (normalSegments p.climbs p.location).map FileName.shown := by
    rw [normalSegments, normalSegments]
    split
    · simp only [List.map_cons, hempty, hdots]
    · cases p.location <;> simp [hempty]
  have hshown := segments_normalize ((isAbsolute_shown p).trans h)
  rw [climbs_shown, location_shown, hsegments, ← segments_normalize h] at hshown
  exact congrArg Path.mk hshown

/-- Showing a path once more changes no text. -/
theorem toString_shown (p : Path) : p.shown.toString = p.toString := by
  rw [toString, toBytes_shown, Text.decodeLossy_encode]

/-- Joining keeps paths that are shown as themselves. -/
theorem shown_join (hp : p.shown = p) (hq : q.shown = q) : (p.join q).shown = p.join q := by
  rw [shown_eq_self_iff] at hp hq ⊢
  exact forall_mem_join hp hq

/-- So does normalizing. -/
theorem shown_normalize (h : p.isAbsolute = true) (hp : p.shown = p) :
    p.normalize.shown = p.normalize := by
  rw [shown_eq_self_iff] at hp ⊢
  exact forall_mem_normalize (FileName.shown_eq_empty_iff.mpr rfl)
    (FileName.shown_eq_dots_iff.mpr rfl) h hp

/-- So does the way to the parent. -/
theorem shown_parent? {dir : Path} (h : p.isAbsolute = true) (hdir : p.parent? = some dir)
    (hp : p.shown = p) : dir.shown = dir := by
  rw [shown_eq_self_iff] at hp ⊢
  have hempty : FileName.empty.shown = .empty := FileName.shown_eq_empty_iff.mpr rfl
  exact forall_mem_parent? (P := fun s => s.shown = s) hempty h hdir hp

/-- A text behind the text of a path is the text of another path. -/
theorem shown_extend (hp : p.shown = p) (e : String) : (p.extend e).shown = p.extend e := by
  have hextend : p.extend e = ofString (p.toString ++ e) := by
    rw [extend, ofString, Text.encode_append, ← toBytes_shown, hp]
  rw [hextend, shown_ofString]

end Path

end SuiteScope
