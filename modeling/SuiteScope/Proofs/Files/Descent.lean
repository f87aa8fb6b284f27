import SuiteScope.Proofs.Files.Bytes
import SuiteScope.Proofs.Keys

/-!
# Descending through directories

From a path that names a directory, `Path.descend` leads to a place below it, name by name. Such a
path has the components of the directory and one component for each name
(`Path.components_descend`), so that different places have different paths
(`Path.eq_of_same_descend`).

This needs names that can stand between slashes (`Path.IsName`). A tree is `Node.Proper` if its
entries have such names, and no two entries of a directory share one. Then `Node.child?` finds every
entry (`Node.Proper.child?_eq_some_iff`).
-/

namespace SuiteScope

namespace Path

/-- A name of an entry of a directory. -/
structure IsName (s : FileName) : Prop where
  idle : isIdle s = false
  ne_up : s ≠ .dots
  slash_not_mem : slash ∉ s.bytes

instance (s : FileName) : Decidable (IsName s) :=
  decidable_of_iff (isIdle s = false ∧ s ≠ .dots ∧ slash ∉ s.bytes)
    ⟨fun ⟨idle, up, slash⟩ => ⟨idle, up, slash⟩, fun ⟨idle, up, slash⟩ => ⟨idle, up, slash⟩⟩

/-- The path of a place below what `p` names. -/
def descend (p : Path) (place : List FileName) : Path :=
  place.foldl (fun p name => p.join ⟨[name]⟩) p

/-- Whether a path is short enough for the system to look at what it names. -/
def isShort (p : Path) : Bool :=
  p.toBytes.length < FileSystem.pathLimit

variable {p : Path} {s : FileName} {place place' : List FileName}

/-! ## One name -/

/-- A proper name is a component of its own. -/
theorem IsName.component? (h : IsName s) : component? s = some (.name s) := by
  unfold Path.component?
  rw [if_neg (by simp [h.idle]), if_neg (by simpa using h.ne_up)]

/-- A segment is joined in place of an empty last one, and behind any other. -/
theorem join_singleton (p : Path) (s : FileName) :
    p.join ⟨[s]⟩ =
      if p.segments.getLast?.all (· == .empty) then ⟨p.segments.dropLast ++ [s]⟩
      else ⟨p.segments ++ [s]⟩ := by
  have hrelative : ¬isAbsolute ⟨[s]⟩ = true := by
    rw [isAbsolute_iff]
    rintro ⟨t, rest, heq⟩
    cases heq
  rw [Path.join, if_neg hrelative]

theorem lead_of_not_isIdle (hs : isIdle s = false) (rest : List FileName) :
    lead ⟨s :: rest⟩ = (none, s :: rest) := by
  unfold isIdle at hs
  unfold lead
  split <;> simp_all

/-- A segment at the end does not change how a path starts. -/
theorem lead_concat {segments : List FileName} (hne : segments ≠ []) (hne' : segments ≠ [.empty])
    (s : FileName) :
    lead ⟨segments ++ [s]⟩ = ((lead ⟨segments⟩).1, (lead ⟨segments⟩).2 ++ [s]) := by
  cases segments with
  | nil => exact absurd rfl hne
  | cons t rest =>
    by_cases ht : isIdle t = true
    · rcases (by simpa [isIdle] using ht : t = .empty ∨ t = .dot) with rfl | rfl
      · cases rest with
        | nil => exact absurd rfl hne'
        | cons => rfl
      · rfl
    · rw [Bool.not_eq_true] at ht
      rw [List.cons_append, lead_of_not_isIdle ht, lead_of_not_isIdle ht, List.cons_append]

/-- A segment at the end adds its component, if it has one. -/
theorem components_concat {segments : List FileName} (hne : segments ≠ []) (hne' : segments ≠ [.empty])
    (s : FileName) :
    components ⟨segments ++ [s]⟩ = components ⟨segments⟩ ++ (Path.component? s).toList := by
  have hlast : [s].filterMap Path.component? = (Path.component? s).toList := by
    rw [List.filterMap_cons]
    cases Path.component? s <;> rfl
  rw [components, lead_concat hne hne', List.filterMap_append, hlast, components,
    List.append_assoc]

/-- A name adds one component. -/
theorem IsName.components_join (h : IsName s) (p : Path) :
    (p.join ⟨[s]⟩).components = p.components ++ [.name s] := by
  have hs : (Path.component? s).toList = [.name s] := by rw [h.component?]; rfl
  have hsingle : components ⟨[s]⟩ = [.name s] := by
    rw [components, lead_of_not_isIdle h.idle, List.filterMap_cons_some h.component?]
    rfl
  rw [join_singleton]
  obtain ⟨segments⟩ := p
  rcases List.eq_nil_or_concat segments with rfl | ⟨init, last, hsegments⟩
  · exact hsingle
  · rw [List.concat_eq_append] at hsegments
    subst hsegments
    by_cases hlast : last = .empty
    · subst hlast
      rw [if_pos (by simp), List.dropLast_concat]
      by_cases hinit : init = [] ∨ init = [.empty]
      · rcases hinit with rfl | rfl
        · exact hsingle
        · have hroot : components ⟨[.empty, .empty]⟩ = [.root] := rfl
          have hlead : lead ⟨[.empty, s]⟩ = (some .root, [s]) := rfl
          rw [List.singleton_append, List.singleton_append, hroot, components, hlead,
            List.filterMap_cons_some h.component?]
          rfl
      · rw [not_or] at hinit
        rw [components_concat hinit.1 hinit.2, components_concat hinit.1 hinit.2, hs]
        simp [Path.component?, isIdle]
    · have hne : init ++ [last] ≠ [] ++ [.empty] := fun heq =>
        hlast (List.singleton_inj.mp (List.append_inj_right' heq rfl))
      rw [if_neg (by simpa using hlast), components_concat (by simp) hne, hs]

/-- The bytes of a path grow with every name. -/
theorem length_toBytes_le_join (p : Path) (s : FileName) :
    p.toBytes.length ≤ (p.join ⟨[s]⟩).toBytes.length := by
  obtain ⟨segments⟩ := p
  rw [join_singleton]
  split
  next hlast =>
    rcases List.eq_nil_or_concat segments with rfl | ⟨init, last, hsegments⟩
    · simp [toBytes, List.intercalate]
    · rw [List.concat_eq_append] at hsegments
      subst hsegments
      obtain rfl : last = .empty := by simpa using hlast
      dsimp only
      rw [List.dropLast_concat]
      clear hlast
      induction init with
      | nil => simp [toBytes_singleton]
      | cons t init ih =>
        rw [List.cons_append, List.cons_append, length_toBytes_cons, length_toBytes_cons,
          if_neg (by simp), if_neg (by simp)]
        omega
  next => exact length_toBytes_le (List.sublist_append_left _ _)

/-! ## Places -/

theorem descend_cons (p : Path) (s : FileName) (place : List FileName) :
    p.descend (s :: place) = (p.join ⟨[s]⟩).descend place :=
  rfl

/-- Descending through names adds them to the components. -/
theorem components_descend (h : ∀ s ∈ place, IsName s) (p : Path) :
    (p.descend place).components = p.components ++ place.map .name := by
  induction place generalizing p with
  | nil => exact (List.append_nil _).symm
  | cons s place ih =>
    obtain ⟨hs, hplace⟩ := List.forall_mem_cons.mp h
    rw [descend_cons, ih hplace, hs.components_join, List.map_cons, List.append_assoc]
    rfl

/-- Paths of two places below one path are the same only if the places are. -/
theorem eq_of_same_descend (h : ∀ s ∈ place, IsName s) (h' : ∀ s ∈ place', IsName s)
    (heq : (p.descend place).components = (p.descend place').components) : place = place' := by
  rw [components_descend h, components_descend h'] at heq
  exact (List.map_inj_right fun _ _ => Component.name.inj).mp (List.append_cancel_left heq)

/-- The last name of a path is the one that was joined last. -/
theorem fileName?_join (h : IsName s) (p : Path) : (p.join ⟨[s]⟩).fileName? = some s := by
  rw [fileName?, h.components_join, List.getLast?_concat]

/-- A path is short if it is with one more name. -/
theorem isShort_of_join (hshort : (p.join ⟨[s]⟩).isShort = true) :
    p.isShort = true := by
  rw [isShort, decide_eq_true_iff] at hshort ⊢
  exact Nat.lt_of_le_of_lt (length_toBytes_le_join p s) hshort

/-- A path is short if it is with more names. -/
theorem isShort_of_descend (hshort : (p.descend place).isShort = true) : p.isShort = true := by
  induction place generalizing p with
  | nil => exact hshort
  | cons s place ih => exact isShort_of_join (ih hshort)

end Path

namespace Node

/-! ## Trees with proper names -/

/-- The entries of every directory have names, and no name is there twice. -/
structure Proper (n : Node) : Prop where
  nodup : ∀ {place m}, n.at? place = some m → (m.entries.map Prod.fst).Nodup
  isName : ∀ {place m}, n.at? place = some m → ∀ entry ∈ m.entries, Path.IsName entry.1

variable {n m : Node} {name : FileName} {place rest : List FileName}

theorem at?_cons : n.at? (name :: place) = (n.child? name).bind (·.at? place) :=
  rfl

/-- A place may be reached in two parts. -/
theorem at?_append : n.at? (place ++ rest) = (n.at? place).bind (·.at? rest) := by
  induction place generalizing n with
  | nil => rfl
  | cons name place ih =>
    rw [List.cons_append, at?_cons, at?_cons]
    cases n.child? name with
    | none => rfl
    | some c => exact ih

theorem at?_of_at? {k : Node} (hm : n.at? place = some m) (hk : m.at? rest = some k) :
    n.at? (place ++ rest) = some k := by
  rw [at?_append, hm]
  exact hk

theorem at?_singleton : n.at? [name] = n.child? name := by
  rw [at?_cons]
  cases n.child? name <;> rfl

theorem mem_entries_of_child? (h : n.child? name = some m) : (name, m) ∈ n.entries :=
  mem_of_lookup_eq_some h

/-- Only directories have entries. -/
theorem isDirectory_of_mem_entries {entry : FileName × Node} (h : entry ∈ n.entries) :
    n.isDirectory = true := by
  cases n with
  | directory => rfl
  | file => cases h
  | device => cases h

/-- Something lies below directories only. -/
theorem isDirectory_of_at? (h : n.at? place = some m) (hne : place ≠ []) :
    n.isDirectory = true := by
  cases place with
  | nil => exact absurd rfl hne
  | cons name place =>
    obtain ⟨c, hc, -⟩ := Option.bind_eq_some_iff.mp h
    exact isDirectory_of_mem_entries (mem_entries_of_child? hc)

/-- In a node without entries there is only the node itself. -/
theorem eq_of_at? (hnil : n.entries = []) (h : n.at? place = some m) : m = n := by
  cases place with
  | nil => exact (Option.some_inj.mp h).symm
  | cons name place =>
    obtain ⟨c, hc, -⟩ := Option.bind_eq_some_iff.mp h
    have hmem := mem_entries_of_child? hc
    rw [hnil] at hmem
    cases hmem

namespace Proper

/-- What lies in a proper tree is a proper tree. -/
theorem at_place (h : n.Proper) (hm : n.at? place = some m) : m.Proper where
  nodup hk := h.nodup (at?_of_at? hm hk)
  isName hk := h.isName (at?_of_at? hm hk)

theorem nodup_entries (h : n.Proper) : (n.entries.map Prod.fst).Nodup :=
  h.nodup (show n.at? [] = some n from rfl)

theorem isName_of_mem (h : n.Proper) {entry : FileName × Node} (hentry : entry ∈ n.entries) :
    Path.IsName entry.1 :=
  h.isName (show n.at? [] = some n from rfl) entry hentry

/-- Every entry of a directory is found by its name. -/
theorem child?_eq_some_iff (h : n.Proper) : n.child? name = some m ↔ (name, m) ∈ n.entries :=
  lookup_eq_some_iff_mem h.nodup_entries

theorem isName_of_at? (h : n.Proper) (hm : n.at? place = some m) : ∀ s ∈ place, Path.IsName s := by
  induction place generalizing n with
  | nil => exact nofun
  | cons name place ih =>
    obtain ⟨c, hc, hcm⟩ := Option.bind_eq_some_iff.mp hm
    have hmem := mem_entries_of_child? hc
    exact List.forall_mem_cons.mpr
      ⟨h.isName_of_mem hmem, ih (h.at_place (at?_singleton.trans hc)) hcm⟩

theorem of_entries (hnodup : (n.entries.map Prod.fst).Nodup)
    (h : ∀ entry ∈ n.entries, Path.IsName entry.1 ∧ entry.2.Proper) : n.Proper := by
  have hchild : ∀ {name place m}, n.at? (name :: place) = some m →
      ∃ c : Node, c.Proper ∧ c.at? place = some m := by
    intro name place m hm
    obtain ⟨c, hc, hcm⟩ := Option.bind_eq_some_iff.mp hm
    exact ⟨c, (h _ (mem_entries_of_child? hc)).2, hcm⟩
  constructor
  · rintro (_ | ⟨name, place⟩) m hm
    · obtain rfl := Option.some_inj.mp hm
      exact hnodup
    · obtain ⟨c, hc, hcm⟩ := hchild hm
      exact hc.nodup hcm
  · rintro (_ | ⟨name, place⟩) m hm
    · obtain rfl := Option.some_inj.mp hm
      exact fun entry hentry => (h entry hentry).1
    · obtain ⟨c, hc, hcm⟩ := hchild hm
      exact hc.isName hcm

theorem of_perm {modified : Option Nat} {entries entries' : List (FileName × Node)}
    (h : (directory modified entries).Proper) (hperm : entries.Perm entries') :
    (directory modified entries').Proper := by
  refine of_entries ((hperm.map Prod.fst).nodup_iff.mp h.nodup_entries) ?_
  intro entry hentry
  have hmem := hperm.mem_iff.mpr hentry
  exact ⟨h.isName_of_mem hmem, h.at_place (at?_singleton.trans (h.child?_eq_some_iff.mpr hmem))⟩

theorem of_entries_eq_nil (h : n.entries = []) : n.Proper :=
  of_entries (by simp [h]) (by simp [h])

end Proper

/-! ## Induction over a tree -/

/-- A property of trees that passes from the entries of a directory to the directory. -/
theorem induction {P : Node → Prop} (step : ∀ n, (∀ entry ∈ n.entries, P entry.2) → P n) :
    ∀ n, P n := by
  intro n
  refine step n fun entry hentry => ?_
  have hlt : sizeOf entry.2 < sizeOf n := by
    cases n with
    | directory modified entries =>
      obtain ⟨name, m⟩ := entry
      have h : sizeOf (name, m) < sizeOf entries := List.sizeOf_lt_of_mem hentry
      rw [Prod.mk.sizeOf_spec] at h
      rw [directory.sizeOf_spec]
      dsimp only
      omega
    | file => cases hentry
    | device => cases hentry
  exact induction step entry.2
termination_by n => sizeOf n

end Node

end SuiteScope
