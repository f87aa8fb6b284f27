import SuiteScope.Proofs.Files.Spelling

/-!
# Locations

The location of a path (`Path.location`) is the place that a file system without links reads it as :
a dot stays, a `..` goes up and stays at the top, and any other segment goes down. Where a path
names something, it names what is at its location (`FileSystem.place_eq_location`).

The normal form of a path is made of its location and of one more thing. A `..` at the top is kept,
and the next one there takes it away again. So `..` leads the normal form when the path goes up from
the top an odd number of times (`Path.normalComponents_eq_append`), and only the location matters
when that number is even. A relative path is cancelled as if it stood behind a slash
(`Path.foldl_cancel_append_root`).
-/

namespace SuiteScope

namespace Path

variable {p : Path}

/-- The place that is reached from `place` by one segment. -/
def enter (place : List FileName) (segment : FileName) : List FileName :=
  if isIdle segment then place
  else if segment = .dots then place.dropLast
  else place ++ [segment]

/-- The place that an absolute path leads to, as a list of names from the top down. -/
def location (p : Path) : List FileName :=
  p.segments.foldl enter []

/-- How many of the segments go up from the top, on the way from `place`. -/
def climbsFrom : (place : List FileName) → (segments : List FileName) → Nat
  | _, [] => 0
  | place, s :: segments =>
    (if s = .dots ∧ place = [] then 1 else 0) + climbsFrom (enter place s) segments

/-- How many segments of an absolute path go up from the top. -/
def climbs (p : Path) : Nat :=
  climbsFrom [] p.segments

/-- The segments of a normal form : the names of a place, behind a `..` if `climbs` is odd. -/
def normalSegments (climbs : Nat) (place : List FileName) : List FileName :=
  .empty :: if climbs % 2 = 1 then .dots :: place else if place = [] then [.empty] else place

/-! ## Locations name places -/

/-- A walk brings in proper names only. -/
theorem mem_foldl_enter {place segments : List FileName} {s : FileName}
    (h : s ∈ segments.foldl enter place) :
    s ∈ place ∨ s ∈ segments ∧ isIdle s = false ∧ s ≠ .dots := by
  induction segments generalizing place with
  | nil => exact .inl h
  | cons t segments ih =>
    rcases ih h with hmem | ⟨hmem, hname⟩
    · unfold enter at hmem
      split at hmem
      · exact .inl hmem
      next hidle =>
        split at hmem
        · exact .inl (List.dropLast_subset place hmem)
        next hup =>
          rcases List.mem_append.mp hmem with hmem | hmem
          · exact .inl hmem
          · obtain rfl := List.mem_singleton.mp hmem
            exact .inr ⟨List.mem_cons_self, by simpa using hidle, hup⟩
    · exact .inr ⟨List.mem_cons_of_mem t hmem, hname⟩

/-- A location is made of names alone. -/
theorem mem_location {p : Path} {s : FileName} (h : s ∈ p.location) :
    s ∈ p.segments ∧ isIdle s = false ∧ s ≠ .dots := by
  rcases mem_foldl_enter h with hmem | hname
  · cases hmem
  · exact hname

theorem enter_name {s : FileName} (h : isIdle s = false ∧ s ≠ .dots) (place : List FileName) :
    enter place s = place ++ [s] := by
  rw [enter, if_neg (by simp [h.1]), if_neg h.2]

/-- Proper names are entered one after another. -/
theorem foldl_enter_names {segments : List FileName}
    (h : ∀ s ∈ segments, isIdle s = false ∧ s ≠ .dots) (place : List FileName) :
    segments.foldl enter place = place ++ segments := by
  induction segments generalizing place with
  | nil => exact (List.append_nil place).symm
  | cons s segments ih =>
    obtain ⟨hs, hsegments⟩ := List.forall_mem_cons.mp h
    rw [List.foldl_cons, enter_name hs, ih hsegments, List.append_assoc, List.singleton_append]

/-- A path without dots does not climb. -/
theorem climbsFrom_names {segments : List FileName} (h : .dots ∉ segments) (place : List FileName) :
    climbsFrom place segments = 0 := by
  induction segments generalizing place with
  | nil => rfl
  | cons s segments ih =>
    rw [List.mem_cons, not_or] at h
    rw [climbsFrom, ih h.2, if_neg fun hup => h.1 hup.1.symm]

/-! ## Normal forms -/

/-- The components of a normal form, last one first. -/
def stack (climbs : Nat) (place : List FileName) : List Component :=
  (place.map .name).reverse ++ if climbs % 2 = 1 then [.up, .root] else [.root]

theorem cancel_name (done : List Component) (s : FileName) :
    cancel done (.name s) = .name s :: done := by
  cases done with
  | nil => rfl
  | cons c done => cases c <;> rfl

/-- One component takes the stack to the place that its segment leads to. -/
theorem cancel_stack {s : FileName} {c : Component} (hc : component? s = some c) (k : Nat)
    (place : List FileName) : cancel (stack k place) c =
      stack (k + if s = .dots ∧ place = [] then 1 else 0) (enter place s) := by
  unfold component? at hc
  unfold enter
  split at hc
  · cases hc
  next hidle =>
    rw [if_neg hidle]
    split at hc
    next hup =>
      cases hc
      rw [beq_iff_eq] at hup
      rcases List.eq_nil_or_concat place with rfl | ⟨above, name, rfl⟩
      · -- At the top, `..` comes on the stack or takes the one that is there away.
        rw [if_pos ⟨hup, rfl⟩, if_pos hup]
        rcases Nat.mod_two_eq_zero_or_one k with hk | hk
        · have hk' : (k + 1) % 2 = 1 := by omega
          simp [stack, hk, hk', cancel]
        · have hk' : (k + 1) % 2 = 0 := by omega
          simp [stack, hk, hk', cancel]
      · rw [List.concat_eq_append, if_neg (by simp), if_pos hup, List.dropLast_concat]
        simp [stack, cancel]
    next hup =>
      cases hc
      rw [beq_iff_eq] at hup
      rw [if_neg fun h => hup h.1, if_neg hup, cancel_name]
      simp [stack]

/-- The stack of a normalization has the climbs at its bottom and the place above them, by induction
on the segments. -/
theorem foldl_cancel (k : Nat) (place segments : List FileName) :
    (segments.filterMap component?).foldl cancel (stack k place) =
      stack (k + climbsFrom place segments) (segments.foldl enter place) := by
  induction segments generalizing k place with
  | nil => rfl
  | cons s segments ih =>
    rw [climbsFrom, List.foldl_cons, ← Nat.add_assoc]
    cases hc : component? s with
    | some c => rw [List.filterMap_cons_some hc, List.foldl_cons, cancel_stack hc, ih]
    | none =>
      have hidle := component?_eq_none_iff.mp hc
      have hup : s ≠ .dots := by
        rintro rfl
        cases hidle
      rw [List.filterMap_cons_none hc, enter, if_pos hidle, if_neg fun h => hup h.1, Nat.add_zero,
        ih]

/-- An absolute path is normalized to its climbs and its location. -/
theorem normalComponents_eq {p : Path} (h : p.isAbsolute = true) :
    p.normalComponents = (stack p.climbs p.location).reverse := by
  obtain ⟨s, rest, hp⟩ := isAbsolute_iff.mp h
  obtain ⟨segments⟩ := p
  subst hp
  have hfold := foldl_cancel 0 [] (s :: rest)
  have hclimbs : climbs ⟨.empty :: s :: rest⟩ = 0 + climbsFrom [] (s :: rest) := rfl
  rw [normalComponents, hclimbs]
  exact congrArg List.reverse hfold

/-- What stands before the components that cancel one another. -/
theorem components_eq (p : Path) :
    p.components = p.lead.1.toList ++ p.segments.filterMap component? := by
  unfold components lead
  split
  next s rest heq => rw [heq]; rfl
  next rest heq => rw [heq]; rfl
  next => rfl

/-- A path starts with the root only if it is absolute. -/
theorem lead_cases (p : Path) :
    p.lead.1 = none ∨ p.lead.1 = some .current ∨ p.isAbsolute = true ∧ p.lead.1 = some .root := by
  unfold lead
  split
  next s rest heq => exact .inr (.inr ⟨isAbsolute_iff.mpr ⟨s, rest, heq⟩, rfl⟩)
  next => exact .inr (.inl rfl)
  next => exact .inl rfl

theorem root_not_mem_filterMap (segments : List FileName) :
    .root ∉ segments.filterMap component? := by
  rw [List.mem_filterMap]
  rintro ⟨s, -, hs⟩
  unfold component? at hs
  split at hs
  · cases hs
  · split at hs <;> cases hs

/-- A root at the bottom of the stack stays there, and nothing else depends on it. -/
theorem cancel_append_root {done : List Component} {c : Component} (hdone : .root ∉ done)
    (hc : c ≠ .root) :
    cancel (done ++ [.root]) c = cancel done c ++ [.root] ∧ .root ∉ cancel done c := by
  cases done with
  | nil =>
    cases c with
    | root => exact absurd rfl hc
    | _ => exact ⟨rfl, by simp [cancel]⟩
  | cons d done =>
    rw [List.mem_cons, not_or] at hdone
    cases d with
    | root => exact absurd rfl hdone.1
    | _ =>
      cases c with
      | root => exact absurd rfl hc
      | _ => exact ⟨rfl, by simp [cancel, hdone.2]⟩

/-- The root at the bottom of the stack is not touched. -/
theorem foldl_cancel_append_root {done cs : List Component} (hdone : .root ∉ done)
    (hcs : .root ∉ cs) :
    cs.foldl cancel (done ++ [.root]) = cs.foldl cancel done ++ [.root] := by
  induction cs generalizing done with
  | nil => rfl
  | cons c cs ih =>
    rw [List.mem_cons, not_or] at hcs
    obtain ⟨heq, hroot⟩ := cancel_append_root hdone (Ne.symm hcs.1)
    rw [List.foldl_cons, heq, ih hroot hcs.2, List.foldl_cons]

/-- The components of a normal form : the root if there is one, a `..` if the path goes up from the
top an odd number of times, and the names of the location. -/
theorem normalComponents_eq_append (p : Path) :
    p.normalComponents = (if p.isAbsolute then [.root] else []) ++
      ((if p.climbs % 2 = 1 then [.up] else []) ++ p.location.map .name) := by
  cases habs : p.isAbsolute with
  | true =>
    rw [normalComponents_eq habs, stack, List.reverse_append, List.reverse_reverse]
    split <;> rfl
  | false =>
    have hlead : p.components.foldl cancel [] =
        (p.segments.filterMap component?).foldl cancel [] := by
      rw [components_eq, List.foldl_append]
      rcases lead_cases p with h | h | ⟨h, -⟩
      · rw [h]; rfl
      · rw [h]; rfl
      · rw [habs] at h; cases h
    have hstack : (p.segments.filterMap component?).foldl cancel [] ++ [.root] =
        stack p.climbs p.location := by
      rw [← foldl_cancel_append_root List.not_mem_nil (root_not_mem_filterMap p.segments)]
      have hfold := foldl_cancel 0 [] p.segments
      rw [Nat.zero_add] at hfold
      exact hfold
    have hsplit : stack p.climbs p.location = ((p.location.map .name).reverse ++
        if p.climbs % 2 = 1 then [.up] else []) ++ [.root] := by
      rw [stack, List.append_assoc]
      split <;> rfl
    rw [normalComponents, hlead, List.append_cancel_right (hstack.trans hsplit),
      List.reverse_append, List.reverse_reverse]
    split <;> rfl

theorem map_segment_name (place : List FileName) :
    (place.map Component.name).map Component.segment = place := by
  induction place with
  | nil => rfl
  | cons s place ih => rw [List.map_cons, List.map_cons, ih]; rfl

/-- What the normal form of an absolute path is made of. -/
theorem segments_normalize {p : Path} (h : p.isAbsolute = true) :
    p.normalize.segments = normalSegments p.climbs p.location := by
  rw [normalize, normalComponents_eq h, stack, normalSegments, List.reverse_append,
    List.reverse_reverse]
  split
  · exact congrArg (.empty :: .dots :: ·) (map_segment_name p.location)
  · cases p.location with
    | nil => rfl
    | cons s place => exact congrArg (.empty :: ·) (map_segment_name (s :: place))

/-- What the normal form of a relative path is made of. -/
theorem segments_normalize_of_relative (h : p.isAbsolute = false) :
    p.normalize.segments = (normalSegments p.climbs p.location).tail := by
  rw [normalize, normalComponents_eq_append, h, if_neg Bool.false_ne_true, List.nil_append,
    normalSegments, List.tail_cons]
  split
  · exact congrArg (.dots :: ·) (map_segment_name p.location)
  · cases p.location with
    | nil => rfl
    | cons s place => exact map_segment_name (s :: place)

/-- A normalized path has the names of its place, and dots only if it climbs an odd number of times.
-/
theorem mem_normalSegments {climbs : Nat} {place : List FileName} {s : FileName}
    (h : s ∈ normalSegments climbs place) :
    s = .empty ∨ s = .dots ∧ climbs % 2 = 1 ∨ s ∈ place := by
  rw [normalSegments, List.mem_cons] at h
  split at h
  next hodd => simpa [hodd] using h
  next hodd =>
    rcases h with rfl | h
    · exact .inl rfl
    · split at h
      · exact .inl (List.mem_singleton.mp h)
      · exact .inr (.inr h)

/-- The normal form goes up if the path goes up from the top an odd number of times. -/
theorem up_mem_normalSegments {climbs : Nat} {place : List FileName} (h : .dots ∉ place) :
    .dots ∈ normalSegments climbs place ↔ climbs % 2 = 1 := by
  refine ⟨fun hmem => ?_, fun hodd => by simp [normalSegments, hodd]⟩
  rcases mem_normalSegments hmem with heq | ⟨-, hodd⟩ | hmem
  · exact absurd heq (by decide)
  · exact hodd
  · exact absurd hmem h

/-- The normal form of a path leads to where the path leads. -/
theorem location_normalize (p : Path) : p.normalize.location = p.location := by
  have hnames : p.location.foldl enter [] = p.location := by
    rw [foldl_enter_names (fun s hs => (mem_location hs).2), List.nil_append]
  have hnormal : (normalSegments p.climbs p.location).tail.foldl enter [] = p.location := by
    rw [normalSegments, List.tail_cons]
    split
    · exact hnames
    · split
      next hempty => rw [hempty]; rfl
      next => exact hnames
  rw [location]
  cases habs : p.isAbsolute with
  | true => rw [segments_normalize habs]; exact hnormal
  | false => rw [segments_normalize_of_relative habs]; exact hnormal

/-- Of the segments that go up from the top, the normal form has at most one left. -/
theorem climbs_normalize (p : Path) : p.normalize.climbs = p.climbs % 2 := by
  have hup : .dots ∉ p.location := fun hmem => (mem_location hmem).2.2 rfl
  have hnormal : climbsFrom [] (normalSegments p.climbs p.location).tail = p.climbs % 2 := by
    rw [normalSegments, List.tail_cons]
    split
    next hodd => rw [climbsFrom, climbsFrom_names hup, if_pos ⟨rfl, rfl⟩, hodd]
    next hodd =>
      rw [Nat.mod_two_ne_one.mp hodd]
      split
      · rfl
      · exact climbsFrom_names hup []
  rw [climbs]
  cases habs : p.isAbsolute with
  | true => rw [segments_normalize habs]; exact (Nat.zero_add _).trans hnormal
  | false => rw [segments_normalize_of_relative habs]; exact hnormal

/-- A path is absolute if and only if its normal form is. -/
theorem isAbsolute_normalize (p : Path) : p.normalize.isAbsolute = p.isAbsolute := by
  cases habs : p.isAbsolute with
  | true =>
    rw [isAbsolute_iff, segments_normalize habs, normalSegments]
    split
    · exact ⟨_, _, rfl⟩
    · split
      · exact ⟨_, _, rfl⟩
      next hne =>
        obtain ⟨s, rest, hplace⟩ := List.exists_cons_of_ne_nil hne
        exact ⟨s, rest, by rw [hplace]⟩
  | false =>
    rw [← Bool.not_eq_true, isAbsolute_iff, segments_normalize_of_relative habs, normalSegments,
      List.tail_cons]
    rintro ⟨s, rest, heq⟩
    split at heq
    · exact absurd (List.cons.inj heq).1 (by decide)
    · split at heq
      · exact absurd (List.cons.inj heq).2 (List.cons_ne_nil _ _).symm
      · have hidle := (mem_location (heq ▸ List.mem_cons_self : .empty ∈ p.location)).2.1
        exact absurd hidle (by decide)

/-- A normal form depends on whether the path is absolute, where it leads, and whether it goes up
from the top an even number of times. -/
theorem normalize_congr {q : Path} (habs : p.isAbsolute = q.isAbsolute)
    (hclimbs : p.climbs % 2 = q.climbs % 2) (hlocation : p.location = q.location) :
    p.normalize = q.normalize := by
  rw [normalize, normalize, normalComponents_eq_append, normalComponents_eq_append, habs, hclimbs,
    hlocation]

end Path

namespace FileSystem

/-- A walk that arrives comes to the place that its segments lead to. -/
theorem eq_of_walk {top : Node} {place reached segments : List FileName}
    (h : walk top place segments = .ok reached) : reached = segments.foldl Path.enter place := by
  induction segments generalizing place with
  | nil => exact (Except.ok.inj h).symm
  | cons s segments ih =>
    rw [List.foldl_cons, Path.enter]
    rw [walk] at h
    split at h
    · split at h
      next hidle => rw [if_pos hidle]; exact ih h
      next hidle =>
        rw [if_neg hidle]
        split at h
        next hup => rw [if_pos hup]; exact ih h
        next hup =>
          rw [if_neg hup]
          split at h
          · cases h
          · split at h
            · exact ih h
            · cases h
    · cases h

/-- An absolute path that names something names what is at its location. -/
theorem place_eq_location {fs : FileSystem} {p : Path} {reached : List FileName}
    (habs : p.isAbsolute = true) (h : fs.place p = .ok reached) : reached = p.location := by
  obtain ⟨-, -, -, hwalk⟩ := place_eq_ok_iff.mp h
  rw [if_pos habs] at hwalk
  exact eq_of_walk hwalk

end FileSystem

end SuiteScope
