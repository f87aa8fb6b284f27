import SuiteScope.Proofs.Files.Descent

/-!
# Trees that are listed in different orders

A system may list the entries of a directory in any order. Two trees are `Node.Alike` if nodes of
the same kinds stand at the same places, whatever the order. A directory that is listed in another
order is one case (`Node.alike_of_perm`). Paths lead to the same places in file systems that are
alike (`FileSystem.walk_of_alike`), and to nodes that are alike (`FileSystem.Alike.exists_node`).
-/

namespace SuiteScope

namespace Node

/-- Whether a node is a file, and whether it is a directory. -/
def kind (n : Node) : Bool × Bool :=
  (n.isFile, n.isDirectory)

/-- Two trees with nodes of the same kinds at the same places. -/
def Alike (n m : Node) : Prop :=
  ∀ place, (n.at? place).map kind = (m.at? place).map kind

variable {n m : Node}

theorem Alike.symm (h : n.Alike m) : m.Alike n :=
  fun place => (h place).symm

/-- What is at a place of one tree has its like at that place of the other. -/
theorem Alike.exists_at? (h : n.Alike m) {place : List FileName} {k : Node}
    (hk : n.at? place = some k) : ∃ k', m.at? place = some k' ∧ k.Alike k' := by
  have hplace := h place
  rw [hk, Option.map_some, eq_comm, Option.map_eq_some_iff] at hplace
  obtain ⟨k', hk', -⟩ := hplace
  refine ⟨k', hk', fun rest => ?_⟩
  have hrest := h (place ++ rest)
  rwa [at?_append, at?_append, hk, hk'] at hrest

theorem Alike.isFile_eq (h : n.Alike m) : n.isFile = m.isFile :=
  congrArg Prod.fst (Option.some_inj.mp (h []))

theorem Alike.isDirectory_eq (h : n.Alike m) : n.isDirectory = m.isDirectory :=
  congrArg Prod.snd (Option.some_inj.mp (h []))

theorem Alike.refl (n : Node) : n.Alike n :=
  fun _ => rfl

/-- Trees are alike if they are of one kind and their entries are alike by name. -/
theorem alike_of_child? (hkind : n.kind = m.kind)
    (h : ∀ name, Option.Rel Alike (n.child? name) (m.child? name)) : n.Alike m := by
  rintro (_ | ⟨name, place⟩)
  · exact congrArg some hkind
  · rw [at?_cons, at?_cons]
    have hname := h name
    revert hname
    generalize n.child? name = c, m.child? name = c'
    rintro (halike | _)
    · exact halike place
    · rfl

/-- A directory that is listed in another order. -/
theorem alike_of_perm {modified : Option Nat} {entries entries' : List (FileName × Node)}
    (h : (directory modified entries).Proper) (hperm : entries.Perm entries') :
    (directory modified entries).Alike (directory modified entries') := by
  refine alike_of_child? rfl fun name => ?_
  have hchild : (directory modified entries).child? name =
      (directory modified entries').child? name :=
    lookup_eq_of_perm h.nodup_entries hperm
  rw [hchild]
  cases (directory modified entries').child? name with
  | none => exact .none
  | some c => exact .some (.refl c)

end Node

namespace FileSystem

/-- Two file systems with nodes of the same kinds at the same places. -/
structure Alike (fs fs' : FileSystem) : Prop where
  top : fs.top.Alike fs'.top
  here : fs.here = fs'.here

theorem Alike.symm {fs fs' : FileSystem} (h : fs.Alike fs') : fs'.Alike fs :=
  ⟨h.top.symm, h.here.symm⟩

/-- A walk goes on from a directory. -/
theorem walk_cons (top : Node) (place : List FileName) (s : FileName) (segments : List FileName) :
    walk top place (s :: segments) =
      if (top.at? place).any Node.isDirectory then
        if Path.isIdle s then walk top place segments
        else if s = .dots then walk top place.dropLast segments
        else if nameLimit < s.bytes.length then .error .nameTooLong
        else if (top.at? (place ++ [s])).isSome then walk top (place ++ [s]) segments
        else .error .notFound
      else .error .notADirectory := by
  rw [walk]
  cases top.at? place with
  | none => rfl
  | some n => cases n <;> rfl

/-- A path is walked in the same way through trees that are alike. -/
theorem walk_of_alike {top top' : Node} (h : top.Alike top') (place segments : List FileName) :
    walk top place segments = walk top' place segments := by
  induction segments generalizing place with
  | nil => rfl
  | cons s segments ih =>
    have hsome : ∀ place, (top.at? place).isSome = (top'.at? place).isSome := by
      intro place
      have hkind := congrArg Option.isSome (h place)
      rwa [Option.isSome_map, Option.isSome_map] at hkind
    have hdirectory : (top.at? place).any Node.isDirectory =
        (top'.at? place).any Node.isDirectory := by
      have hkind := congrArg (Option.any Prod.snd) (h place)
      rwa [Option.any_map, Option.any_map] at hkind
    rw [walk_cons, walk_cons, hsome, hdirectory, ih, ih, ih]

/-- What a path names in one file system has its like in the other. -/
theorem Alike.exists_node {fs fs' : FileSystem} (h : fs.Alike fs') {p : Path} {n : Node}
    (hn : fs.node p = .ok n) : ∃ n', fs'.node p = .ok n' ∧ n.Alike n' := by
  have hplace : fs.place p = fs'.place p := by
    unfold place
    rw [h.here, walk_of_alike h.top]
  obtain ⟨reached, hreached, hat⟩ := node_eq_ok_iff.mp hn
  obtain ⟨n', hn', halike⟩ := h.top.exists_at? hat
  exact ⟨n', node_eq_ok_iff.mpr ⟨reached, hplace ▸ hreached, hn'⟩, halike⟩

end FileSystem

end SuiteScope
