import SuiteScope.Proofs.Files.Composition

/-!
# Names that are not cancelled

Each `..` among the components of a path cancels the nearest name before it that is not cancelled
yet (`cancelledBy`). The names that no component cancels are the survivors. They are the place that
the path leads to (`survivors_components`), since one more component does to the survivors before it
what one segment does to a place (`survivorsBefore_succ`).

`normalize_laws` : taking normal forms is idempotent, may be done before joining, and keeps a path
absolute or relative. If at no point of the path there have been more `..` than names, the normal
form lists the survivors. Without this, a `..` that finds nothing to cancel may be left in it.
-/

namespace SuiteScope

/-- The name of a component that is one. -/
def Component.name? : Component → Option FileName
  | .name s => some s
  | _ => none

@[simp]
theorem Component.name?_name (s : FileName) : (Component.name s).name? = some s :=
  rfl

@[simp]
theorem Component.name?_root : Component.root.name? = none :=
  rfl

@[simp]
theorem Component.name?_current : Component.current.name? = none :=
  rfl

@[simp]
theorem Component.name?_up : Component.up.name? = none :=
  rfl

namespace Path

variable {cs : List Component} {c : Component} {n i : Nat}

/-- The name at a place, if there is one. -/
def nameAt? (cs : List Component) (i : Nat) : Option FileName :=
  cs[i]?.bind Component.name?

/-- The place of the name that the component at place `n` cancels. Only `..` cancels a name : the
nearest one before it that no component before it cancels. -/
def cancelledBy (cs : List Component) (n : Nat) : Option Nat :=
  if cs[n]? = some .up then
    ((List.range n).filter fun i =>
      (nameAt? cs i).isSome && decide (∀ k : Fin n, cancelledBy cs k ≠ some i)).getLast?
  else none
termination_by n

/-- The places of the names before place `n` that no component before `n` cancels. -/
def uncancelled (cs : List Component) (n : Nat) : List Nat :=
  (List.range n).filter fun i =>
    (nameAt? cs i).isSome && decide (∀ k : Fin n, cancelledBy cs k ≠ some i)

/-- The names that survive the cancelling of the first `n` components. -/
def survivorsBefore (cs : List Component) (n : Nat) : List FileName :=
  (uncancelled cs n).filterMap (nameAt? cs)

/-- The names that no component cancels. -/
def survivors (cs : List Component) : List FileName :=
  survivorsBefore cs cs.length

/-- At no point of a list of components there have been more `..` than names. -/
def Grounded (cs : List Component) : Prop :=
  ∀ front, front <+: cs → front.count .up ≤ (front.filterMap Component.name?).length

instance (cs : List Component) : Decidable (Grounded cs) :=
  decidable_of_iff (∀ front ∈ cs.inits, front.count .up ≤ (front.filterMap Component.name?).length)
    (by simp only [List.mem_inits, Grounded])

/-! ## One more component -/

/-- Two dots cancel the last name that has not been cancelled, and nothing else cancels. -/
theorem cancelledBy_eq (cs : List Component) (n : Nat) :
    cancelledBy cs n = if cs[n]? = some .up then (uncancelled cs n).getLast? else none := by
  rw [cancelledBy, uncancelled]

/-- A name is cancelled by what comes behind it. -/
theorem lt_of_cancelledBy (h : cancelledBy cs n = some i) : i < n := by
  rw [cancelledBy_eq] at h
  split at h
  · have hmem := List.mem_of_getLast? h
    exact List.mem_range.mp (List.mem_filter.mp hmem).1
  · cases h

/-- The names left up to a component are those that no component before it cancels. -/
theorem mem_uncancelled :
    i ∈ uncancelled cs n ↔
      i < n ∧ (nameAt? cs i).isSome = true ∧ ∀ k < n, cancelledBy cs k ≠ some i := by
  rw [uncancelled, List.mem_filter, List.mem_range, Bool.and_eq_true, decide_eq_true_iff,
    Fin.forall_iff]

/-- One more component may cancel a name before it, and may be a name that is not cancelled. -/
theorem uncancelled_succ (cs : List Component) (n : Nat) :
    uncancelled cs (n + 1) = (uncancelled cs n).filter (fun i => cancelledBy cs n ≠ some i) ++
      if (nameAt? cs n).isSome then [n] else [] := by
  have hlater (k : Fin (n + 1)) : cancelledBy cs k ≠ some n := fun h => by
    have := lt_of_cancelledBy h
    omega
  rw [uncancelled, uncancelled, List.range_succ, List.filter_append, List.filter_filter]
  congr 1
  · refine List.filter_congr fun i _ => ?_
    have hsplit : (∀ k : Fin (n + 1), cancelledBy cs k ≠ some i) ↔
        (∀ k : Fin n, cancelledBy cs k ≠ some i) ∧ cancelledBy cs n ≠ some i := by
      rw [Fin.forall_iff, Fin.forall_iff]
      exact Nat.forall_lt_succ_right (p := fun k => cancelledBy cs k ≠ some i)
    rw [Bool.eq_iff_iff, Bool.and_eq_true, Bool.and_eq_true, Bool.and_eq_true, decide_eq_true_iff,
      decide_eq_true_iff, decide_eq_true_iff, hsplit, ← and_assoc, and_comm]
  · rw [List.filter_singleton, decide_eq_true hlater, Bool.and_true]
    cases (nameAt? cs n).isSome <;> rfl

/-- Only the last one is left out of a list without repetitions. -/
theorem filter_getLast?_ne {l : List Nat} (h : l.Nodup) :
    l.filter (fun i => l.getLast? ≠ some i) = l.dropLast := by
  rcases List.eq_nil_or_concat l with rfl | ⟨init, last, rfl⟩
  · rfl
  · rw [List.concat_eq_append] at h ⊢
    rw [List.getLast?_concat, List.dropLast_concat, List.filter_append]
    obtain ⟨-, -, hne⟩ := List.nodup_append.mp h
    have hinit : init.filter (fun i => some last ≠ some i) = init :=
      List.filter_eq_self.mpr fun i hi => by
        simpa using Ne.symm (hne i hi last (List.mem_singleton_self last))
    rw [hinit]
    simp

/-- No place is left twice. -/
theorem nodup_uncancelled (cs : List Component) (n : Nat) : (uncancelled cs n).Nodup :=
  List.nodup_range.filter _

/-! ## Survivors -/

/-- What one component does to the names before it. -/
def follow (place : List FileName) : Component → List FileName
  | .name s => place ++ [s]
  | .up => place.dropLast
  | _ => place

theorem nameAt?_of_getElem? (h : cs[n]? = some c) : nameAt? cs n = c.name? := by
  rw [nameAt?, h, Option.bind_some]

/-- What is left out last has a name of its own. -/
theorem filterMap_dropLast {α β : Type*} {f : α → Option β} {l : List α}
    (h : ∀ a ∈ l, (f a).isSome = true) : l.dropLast.filterMap f = (l.filterMap f).dropLast := by
  rcases List.eq_nil_or_concat l with rfl | ⟨init, last, rfl⟩
  · rfl
  · rw [List.concat_eq_append] at h ⊢
    obtain ⟨b, hb⟩ := Option.isSome_iff_exists.mp (h last (by simp))
    rw [List.dropLast_concat, List.filterMap_append, List.filterMap_cons_some hb,
      List.filterMap_nil, List.dropLast_concat]

/-- One more component changes what is left as it changes a place that is walked. -/
theorem survivorsBefore_succ (h : cs[n]? = some c) :
    survivorsBefore cs (n + 1) = follow (survivorsBefore cs n) c := by
  have hname := nameAt?_of_getElem? h
  have hkept (hc : c ≠ .up) : survivorsBefore cs (n + 1) =
      survivorsBefore cs n ++ (if c.name?.isSome then [n] else []).filterMap (nameAt? cs) := by
    have hall : (uncancelled cs n).filter (fun i => cancelledBy cs n ≠ some i) =
        uncancelled cs n := by
      refine List.filter_eq_self.mpr fun i _ => ?_
      rw [cancelledBy_eq, h, if_neg (by simpa using hc)]
      rfl
    rw [survivorsBefore, uncancelled_succ, hall, List.filterMap_append, hname]
    rfl
  cases c with
  | name s =>
    rw [hkept nofun, Component.name?_name, Option.isSome_some, if_pos rfl,
      List.filterMap_cons_some hname]
    rfl
  | up =>
    have hlast : cancelledBy cs n = (uncancelled cs n).getLast? := by
      rw [cancelledBy_eq, if_pos h]
    have hsome : ∀ i ∈ uncancelled cs n, (nameAt? cs i).isSome = true := fun i hi =>
      (mem_uncancelled.mp hi).2.1
    rw [survivorsBefore, uncancelled_succ, hname, hlast,
      filter_getLast?_ne (nodup_uncancelled cs n)]
    exact (congrArg _ (List.append_nil _)).trans (filterMap_dropLast hsome)
  | root => rw [hkept nofun]; exact List.append_nil _
  | current => rw [hkept nofun]; exact List.append_nil _

/-- The survivors are what is left when the components are followed one by one. -/
theorem survivorsBefore_eq (cs : List Component) (n : Nat) (hn : n ≤ cs.length) :
    survivorsBefore cs n = (cs.take n).foldl follow [] := by
  induction n with
  | zero => rfl
  | succ n ih =>
    have h : cs[n]? = some cs[n] := List.getElem?_eq_getElem hn
    rw [survivorsBefore_succ h, ih (by omega), List.take_add_one, h, Option.toList_some,
      List.foldl_append]
    rfl

/-- A segment is entered as its component is followed. -/
theorem enter_eq_follow {s : FileName} (h : component? s = some c) (place : List FileName) :
    enter place s = follow place c := by
  unfold component? at h
  unfold enter
  split at h
  · cases h
  next hidle =>
    rw [if_neg hidle]
    split at h
    next hup =>
      cases h
      rw [if_pos (beq_iff_eq.mp hup)]
      rfl
    next hup =>
      cases h
      rw [if_neg (by simpa using hup)]
      rfl

/-- Segments are entered as their components are followed, and those without one do nothing. -/
theorem foldl_enter_eq (place segments : List FileName) :
    segments.foldl enter place = (segments.filterMap component?).foldl follow place := by
  induction segments generalizing place with
  | nil => rfl
  | cons s segments ih =>
    rw [List.foldl_cons]
    cases h : component? s with
    | none =>
      rw [enter, if_pos (component?_eq_none_iff.mp h), List.filterMap_cons_none h, ih]
    | some c =>
      rw [enter_eq_follow h, List.filterMap_cons_some h, List.foldl_cons, ih]

/-- The names of a path that survive are the place that it leads to. -/
theorem survivors_components (p : Path) : survivors p.components = p.location := by
  have hlead : p.lead.1.toList.foldl follow [] = [] := by
    rcases lead_cases p with h | h | ⟨-, h⟩ <;> rw [h] <;> rfl
  rw [survivors, survivorsBefore_eq _ _ (Nat.le_refl _), List.take_length, components_eq,
    List.foldl_append, hlead, location, foldl_enter_eq]

example : survivors [.root, .name "a", .current, .name "b", .up, .up, .up, .name "c"] =
    [.ofString "c"] := by
  decide +kernel

/-! ## Paths that stay below where they start -/

/-- Where every `..` finds a name to cancel, nothing goes up from the top. -/
theorem climbsFrom_eq_zero {place segments : List FileName}
    (h : ∀ front, front <+: segments.filterMap component? →
      front.count .up ≤ place.length + (front.filterMap Component.name?).length) :
    climbsFrom place segments = 0 := by
  induction segments generalizing place with
  | nil => rfl
  | cons s segments ih =>
    rw [climbsFrom]
    cases hc : component? s with
    | none =>
      have hidle := component?_eq_none_iff.mp hc
      have hup : s ≠ .dots := by
        rintro rfl
        cases hidle
      rw [List.filterMap_cons_none hc] at h
      rw [if_neg fun h => hup h.1, enter, if_pos hidle, ih h]
    | some c =>
      rw [List.filterMap_cons_some hc] at h
      have hclimb : ¬(s = .dots ∧ place = []) := by
        rintro ⟨rfl, rfl⟩
        obtain rfl : Component.up = c := Option.some.inj hc
        exact absurd (h [Component.up] (List.prefix_append [Component.up] _)) (by decide)
      rw [if_neg hclimb, enter_eq_follow hc, ih fun front hfront => ?_]
      have hcount := h (c :: front) (List.cons_prefix_cons.mpr ⟨rfl, hfront⟩)
      cases c with
      | name s =>
        have hne : Component.name s ≠ .up := Component.noConfusion
        rw [List.count_cons_of_ne hne, List.filterMap_cons_some (Component.name?_name s),
          List.length_cons] at hcount
        rw [follow, List.length_append, List.length_singleton]
        omega
      | up =>
        rw [List.count_cons_self, List.filterMap_cons_none Component.name?_up] at hcount
        rw [follow, List.length_dropLast]
        omega
      | root => exact hcount
      | current => exact hcount

/-- A path that is grounded does not climb. -/
theorem climbs_eq_zero {p : Path} (h : Grounded p.components) : p.climbs = 0 := by
  refine climbsFrom_eq_zero fun front hfront => ?_
  rw [components_eq] at h
  have hcount := h _ ((List.prefix_append_right_inj p.lead.1.toList).mpr hfront)
  rcases lead_cases p with hlead | hlead | ⟨-, hlead⟩ <;> rw [hlead] at hcount <;>
    simpa [List.filterMap_cons, Component.name?_root, Component.name?_current] using hcount

/-! ## Laws of normal forms -/

/-- The laws of normal forms, for the paths of any bytes. -/
theorem normalize_laws (s t : List UInt8) :
    (ofBytes s).normalize.normalize = (ofBytes s).normalize ∧
      ((ofBytes s).join (ofBytes t)).normalize =
        ((ofBytes s).normalize.join (ofBytes t)).normalize ∧
      (ofBytes s).normalize.isAbsolute = (ofBytes s).isAbsolute ∧
      (Grounded (ofBytes s).components →
        .current ∉ (ofBytes s).normalize.components ∧
          .up ∉ (ofBytes s).normalize.components ∧
          (ofBytes s).normalize.components =
            (if (ofBytes s).isAbsolute then [.root] else []) ++
              (survivors (ofBytes s).components).map .name) := by
  refine ⟨normalize_normalize _, (normalize_join _ (written_ofBytes t).ne_nil).symm,
    isAbsolute_normalize _, fun h => ?_⟩
  have hcomponents : (ofBytes s).normalize.components =
      (if (ofBytes s).isAbsolute then [.root] else []) ++
        (survivors (ofBytes s).components).map .name := by
    rw [components_normalize_eq, normalComponents_eq_append, climbs_eq_zero h, survivors_components]
    rfl
  rw [hcomponents]
  refine ⟨?_, ?_, rfl⟩ <;> split <;> simp

/-- Two `..` in a row cancel the two names before them, behind a dot. -/
theorem normalize_of_detour :
    Grounded (ofString "/a/./b/../../c//d").components ∧
      (ofString "/a/./b/../../c//d").normalize.components = [.root, .name "c", .name "d"] := by
  have hgrounded : Grounded (ofString "/a/./b/../../c//d").components := by decide +kernel
  obtain ⟨-, -, -, hsurvivors⟩ := normalize_laws (Text.encode "/a/./b/../../c//d") (Text.encode "e")
  obtain ⟨-, -, hcomponents⟩ := hsurvivors hgrounded
  rw [survivors_components] at hcomponents
  exact ⟨hgrounded, hcomponents.trans (by decide +kernel)⟩

end Path

end SuiteScope
