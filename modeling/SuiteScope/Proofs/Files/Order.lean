import Mathlib.Data.List.Lex
import Mathlib.Data.List.Sort
import Mathlib.Data.Prod.Lex
import SuiteScope.Path

/-!
# The order of paths

Paths are compared component by component. With a key for each component this is the lexicographic
order of lists (`Path.before_iff_lt`), so it is a linear order up to the spelling of paths
(`Path.same_iff`).

`Path.sortUnique` sorts paths and keeps one spelling of each, the one that comes first in the list.
Its members are told by that alone (`Path.mem_sortUnique`), and its order by their keys
(`Path.pairwise_sortUnique`), so two lists with the same first spellings give the same result
(`Path.sortUnique_congr`).
-/

namespace SuiteScope

/-- What components are compared by : their kind, then the bytes of their name. -/
def Component.key : Component → ℕ ×ₗ List ℕ
  | .name s => toLex (3, s.bytes.map UInt8.toNat)
  | c => toLex (c.rank, [])

theorem Component.key_injective : Function.Injective Component.key := by
  intro c d h
  have hbytes : Function.Injective (List.map UInt8.toNat) :=
    List.map_injective_iff.mpr fun _ _ => UInt8.toNat_inj.mp
  cases c <;> cases d <;> simp_all [key, rank, hbytes.eq_iff, FileName.ext_iff]

/-- Bytes are in the order of their numbers. -/
theorem map_toNat_lt_iff (s t : List UInt8) :
    s.map UInt8.toNat < t.map UInt8.toNat ↔ s < t := by
  induction s generalizing t with
  | nil => cases t <;> simp
  | cons b s ih =>
    cases t with
    | nil => simp
    | cons c t =>
      rw [List.map_cons, List.map_cons, List.cons_lt_cons_iff, List.cons_lt_cons_iff, ih,
        UInt8.lt_iff_toNat_lt, UInt8.toNat_inj]

/-- Components are in the order of their keys. -/
theorem Component.before_iff_lt (c d : Component) : c.before d = true ↔ c.key < d.key := by
  cases c <;> cases d <;>
    simp [before, key, rank, Prod.Lex.toLex_lt_toLex, map_toNat_lt_iff]

namespace Path

/-- What paths are compared by. -/
def key (p : Path) : List (ℕ ×ₗ List ℕ) :=
  p.components.map Component.key

/-- Lists of components are in the order of dictionaries. -/
theorem componentsBefore_iff_lt (cs ds : List Component) :
    componentsBefore cs ds = true ↔ cs.map Component.key < ds.map Component.key := by
  induction cs generalizing ds with
  | nil => cases ds <;> simp [componentsBefore]
  | cons c cs ih =>
    cases ds with
    | nil => simp [componentsBefore]
    | cons d ds =>
      rw [componentsBefore, List.map_cons, List.map_cons, List.cons_lt_cons_iff]
      by_cases hcd : c = d
      · rw [if_pos hcd, ih]
        simp [hcd]
      · have hkey : c.key ≠ d.key := fun h => hcd (Component.key_injective h)
        rw [if_neg hcd, Component.before_iff_lt]
        simp [hkey]

/-- Paths are in the order of their keys. -/
theorem before_iff_lt (p q : Path) : p.before q = true ↔ p.key < q.key :=
  componentsBefore_iff_lt p.components q.components

/-- Two paths are the same if neither goes before the other. -/
theorem same_iff (p q : Path) : p.same q = true ↔ p.key = q.key := by
  rw [same, beq_iff_eq, key, key, (List.map_injective_iff.mpr Component.key_injective).eq_iff]

/-- A path that does not come before another one comes behind it or is the same. -/
theorem not_before_iff_le (p q : Path) : (!q.before p) = true ↔ p.key ≤ q.key := by
  rw [Bool.not_eq_true', ← Bool.not_eq_true, before_iff_lt, not_lt]

/-! ## Sorting -/

/-- The paths in order, those with the same components in the order of the list. -/
def sorted (l : List Path) : List Path :=
  l.mergeSort fun p q => !q.before p

theorem not_before_trans (p q r : Path) (hpq : (!q.before p) = true) (hqr : (!r.before q) = true) :
    (!r.before p) = true := by
  rw [not_before_iff_le] at hpq hqr ⊢
  exact hpq.trans hqr

theorem not_before_total (p q : Path) : (!q.before p || !p.before q) = true := by
  rw [Bool.or_eq_true, not_before_iff_le, not_before_iff_le]
  exact le_total _ _

/-- Sorted paths are in order. -/
theorem pairwise_sorted (l : List Path) : (sorted l).Pairwise fun p q => p.key ≤ q.key :=
  (List.pairwise_mergeSort not_before_trans not_before_total l).imp (not_before_iff_le _ _).mp

/-- Sorting leaves the spellings of one path in their order. -/
theorem filter_sorted (l : List Path) (q : Path) :
    (sorted l).filter (q.same ·) = l.filter (q.same ·) := by
  have hpairwise : (l.filter (q.same ·)).Pairwise fun a b => (!b.before a) = true := by
    rw [List.pairwise_iff_forall_sublist]
    intro a b hab
    have ha := (List.mem_filter.mp (hab.subset (by simp : a ∈ [a, b]))).2
    have hb := (List.mem_filter.mp (hab.subset (by simp : b ∈ [a, b]))).2
    rw [not_before_iff_le, ← (same_iff q a).mp ha, ← (same_iff q b).mp hb]
  have hsub : (l.filter (q.same ·)).Sublist ((sorted l).filter (q.same ·)) := by
    have h := (List.sublist_mergeSort not_before_trans not_before_total hpairwise
      List.filter_sublist).filter (q.same ·)
    simpa [List.filter_filter, sorted] using h
  have hlength := ((List.mergeSort_perm l fun p q => !q.before p).filter (q.same ·)).length_eq
  exact (hsub.eq_of_length hlength.symm).symm

/-- Of paths that are the same, sorting keeps the first one first. -/
theorem find?_sorted (l : List Path) (q : Path) :
    (sorted l).find? (q.same ·) = l.find? (q.same ·) := by
  rw [← List.head?_filter, ← List.head?_filter, filter_sorted]

/-! ## Keeping the first spelling -/

/-- A list without the paths that are the same as the one before them. -/
def firsts (l : List Path) : List Path :=
  l.foldr (fun p rest => p :: rest.dropWhile (p.same ·)) []

/-- The first paths of their kind are some of all paths. -/
theorem firsts_sublist (l : List Path) : (firsts l).Sublist l := by
  induction l with
  | nil => exact List.Sublist.refl _
  | cons p l ih => exact ((List.dropWhile_sublist _).trans ih).cons_cons p

/-- In a list in order, the spellings of the least path are all in front. -/
theorem dropWhile_same {p : Path} {l : List Path}
    (h : (p :: l).Pairwise fun p q => p.key ≤ q.key) :
    l.dropWhile (p.same ·) = l.filter (!p.same ·) := by
  induction l with
  | nil => rfl
  | cons q l ih =>
    obtain ⟨hp, hl⟩ := List.pairwise_cons.mp h
    by_cases hpq : p.same q = true
    · rw [List.dropWhile_cons_of_pos hpq, List.filter_cons_of_neg (by simp [hpq]),
        ih (h.sublist (List.sublist_cons_self q l |>.cons_cons p))]
    · have hlt : p.key < q.key := lt_of_le_of_ne (hp q List.mem_cons_self)
        fun heq => hpq ((same_iff p q).mpr heq)
      rw [List.dropWhile_cons_of_neg hpq, eq_comm, List.filter_eq_self]
      intro r hr
      have hqr : q.key ≤ r.key := by
        rcases List.mem_cons.mp hr with rfl | hr
        · exact le_refl _
        · exact (List.pairwise_cons.mp hl).1 r hr
      rw [Bool.not_eq_true', ← Bool.not_eq_true, same_iff]
      exact (hlt.trans_le hqr).ne

/-- A first path takes away all that are the same. -/
theorem firsts_cons {p : Path} {l : List Path} (h : (p :: l).Pairwise fun p q => p.key ≤ q.key) :
    firsts (p :: l) = p :: (firsts l).filter (!p.same ·) := by
  rw [← dropWhile_same (h.sublist ((firsts_sublist l).cons_cons p))]
  rfl

/-- A path is among the first ones exactly if it is the first of those that are the same. -/
theorem mem_firsts {l : List Path} (h : l.Pairwise fun p q => p.key ≤ q.key) (q : Path) :
    q ∈ firsts l ↔ l.find? (q.same ·) = some q := by
  induction l with
  | nil => exact ⟨nofun, nofun⟩
  | cons p l ih =>
    have hsame : p.same q = true ↔ q.same p = true := by
      rw [same_iff, same_iff, eq_comm]
    rw [firsts_cons h, List.mem_cons, List.mem_filter, ih (List.pairwise_cons.mp h).2]
    by_cases hqp : q.same p = true
    · rw [List.find?_cons_of_pos hqp, hsame.mpr hqp, Option.some_inj, eq_comm (a := p)]
      simp
    · have hne : q ≠ p := fun heq => hqp ((same_iff q p).mpr (by rw [heq]))
      rw [List.find?_cons_of_neg hqp, Bool.not_eq_true', ← Bool.not_eq_true, hsame]
      simp [hqp, hne]

/-- No two of the first paths are the same. -/
theorem pairwise_firsts {l : List Path} (h : l.Pairwise fun p q => p.key ≤ q.key) :
    (firsts l).Pairwise fun p q => p.key < q.key := by
  induction l with
  | nil => exact .nil
  | cons p l ih =>
    obtain ⟨hp, hl⟩ := List.pairwise_cons.mp h
    rw [firsts_cons h]
    refine List.pairwise_cons.mpr ⟨fun q hq => ?_, (ih hl).sublist List.filter_sublist⟩
    obtain ⟨hmem, hpq⟩ := List.mem_filter.mp hq
    rw [Bool.not_eq_true', ← Bool.not_eq_true, same_iff] at hpq
    exact lt_of_le_of_ne (hp q ((firsts_sublist l).subset hmem)) hpq

/-! ## Paths in order, each once -/

/-- Paths that are sorted with each one kept once stand in strict order. -/
theorem pairwise_sortUnique (l : List Path) :
    (sortUnique l).Pairwise fun p q => p.before q = true :=
  (pairwise_firsts (pairwise_sorted l)).imp (before_iff_lt _ _).mpr

/-- Of the spellings of one path in a list, the first is kept. -/
theorem mem_sortUnique {l : List Path} {q : Path} :
    q ∈ sortUnique l ↔ l.find? (q.same ·) = some q := by
  rw [← find?_sorted]
  exact mem_firsts (pairwise_sorted l) q

/-- A list has some spelling of a path if the sorted list has. -/
theorem exists_mem_sortUnique {l : List Path} {q : Path} :
    (∃ p ∈ sortUnique l, q.same p = true) ↔ ∃ p ∈ l, q.same p = true := by
  constructor
  · rintro ⟨p, hp, hqp⟩
    exact ⟨p, List.mem_of_find?_eq_some (mem_sortUnique.mp hp), hqp⟩
  · rintro ⟨p, hp, hqp⟩
    obtain ⟨first, hfirst⟩ := Option.isSome_iff_exists.mp (List.find?_isSome.mpr ⟨p, hp, hqp⟩)
    have hqf := List.find?_some hfirst
    refine ⟨first, mem_sortUnique.mpr ?_, hqf⟩
    rw [← hfirst]
    congr 1
    funext r
    rw [same, same, beq_iff_eq.mp hqf]

/-- A sorted list tells no more than which spelling of each path came first. -/
theorem sortUnique_congr {l l' : List Path}
    (h : ∀ q : Path, l.find? (q.same ·) = l'.find? (q.same ·)) : sortUnique l = sortUnique l' := by
  have hirrefl : Std.Irrefl fun p q : Path => p.before q = true :=
    ⟨fun p hp => lt_irrefl _ ((before_iff_lt p p).mp hp)⟩
  have hantisymm : Std.Antisymm fun p q : Path => p.before q = true :=
    ⟨fun p q hpq hqp => absurd ((before_iff_lt q p).mp hqp)
      (lt_asymm ((before_iff_lt p q).mp hpq))⟩
  refine (pairwise_sortUnique l).eq_of_mem_iff (pairwise_sortUnique l') fun q => ?_
  rw [mem_sortUnique, mem_sortUnique, h]

end Path

end SuiteScope
