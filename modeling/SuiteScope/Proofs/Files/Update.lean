import SuiteScope.Proofs.Files.Descent

/-!
# Changes of file trees

After a node has been put at a place it is found there (`at?_put`), and a node that has been removed
is found no more (`at?_erase`). Of two places, neither of which lies above the other, a change at one
is not seen at the other (`at?_put_of_apart`, `at?_erase_of_apart`). Nothing lies below a file, so a
file that is written at a place that a path names changes no other file
(`FileSystem.at?_put_of_placeToWrite`).

`alter` may also start from nothing, and all lemmas on it hold of trees that may be missing.
-/

namespace SuiteScope

namespace Node

variable {n m : Node} {n? : Option Node} {f : Option Node → Option Node} {name other : FileName}
  {place away : List FileName} {entries : List (FileName × Node)} {node : Node}

/-- The node at a place of a tree, if there is a tree. -/
def look (n? : Option Node) (place : List FileName) : Option Node :=
  n?.bind (·.at? place)

@[simp] theorem look_nil : look n? [] = n? := by
  cases n? <;> rfl

@[simp] theorem look_some : look (some n) place = n.at? place :=
  rfl

/-- The entries of a tree, of which a missing one has none. -/
def entriesOf (n? : Option Node) : List (FileName × Node) :=
  (n?.getD (.directory none [])).entries

/-- A step down from nothing leads to nothing, as from a directory without entries. -/
theorem look_cons : look n? (name :: place) = look ((entriesOf n?).lookup name) place := by
  cases n? <;> rfl

/-! ## Entries -/

/-- An entry that is changed to something is found under its name. -/
theorem lookup_alterEntries_self (h : f (entries.lookup name) = some node) :
    (alterEntries f name entries).lookup name = some node := by
  induction entries with
  | nil =>
    rw [List.lookup_nil] at h
    simp [alterEntries, h]
  | cons entry entries ih =>
    obtain ⟨first, old⟩ := entry
    rw [lookup_cons] at h
    rw [alterEntries]
    by_cases heq : name = first
    · subst heq
      rw [if_pos rfl] at h
      simp [h]
    · rw [if_neg heq] at h
      rw [if_neg (Ne.symm heq), lookup_cons, if_neg heq, ih h]

/-- The other entries are found as before. -/
theorem lookup_alterEntries_of_ne (hne : other ≠ name) :
    (alterEntries f name entries).lookup other = entries.lookup other := by
  induction entries with
  | nil => cases h : f none <;> simp [alterEntries, h, lookup_cons, hne]
  | cons entry entries ih =>
    obtain ⟨first, old⟩ := entry
    rw [alterEntries, lookup_cons]
    by_cases heq : first = name
    · subst heq
      rw [if_pos rfl, if_neg hne]
      cases h : f (some old) <;> simp [lookup_cons, hne]
    · rw [if_neg heq, lookup_cons, ih]

/-- An entry that is taken away is gone if its name was there once. -/
theorem lookup_alterEntries_eq_none (hnodup : (entries.map Prod.fst).Nodup)
    (h : f (entries.lookup name) = none) : (alterEntries f name entries).lookup name = none := by
  induction entries with
  | nil =>
    rw [List.lookup_nil] at h
    simp [alterEntries, h]
  | cons entry entries ih =>
    obtain ⟨first, old⟩ := entry
    rw [List.map_cons, List.nodup_cons] at hnodup
    rw [lookup_cons] at h
    rw [alterEntries]
    by_cases heq : name = first
    · subst heq
      rw [if_pos rfl] at h
      simpa [h] using lookup_eq_none_iff.mpr hnodup.1
    · rw [if_neg heq] at h
      rw [if_neg (Ne.symm heq), lookup_cons, if_neg heq, ih hnodup.2 h]

/-! ## Places -/

/-- The entries of a tree that is changed below its top. -/
theorem look_alter_cons : look (alter f (name :: place) n?) (other :: away) =
    look ((alterEntries (alter f place) name (entriesOf n?)).lookup other) away :=
  rfl

/-- What is put at a place is found there. -/
theorem look_alter_self (h : f (look n? place) = some node) :
    look (alter f place n?) place = some node := by
  induction place generalizing n? with
  | nil => simpa [alter] using h
  | cons name place ih =>
    rw [look_cons] at h
    obtain ⟨m, hm⟩ : ∃ m, alter f place ((entriesOf n?).lookup name) = some m := by
      refine Option.ne_none_iff_exists'.mp fun hnone => ?_
      have hlook := ih h
      rw [hnone] at hlook
      exact Option.some_ne_none _ hlook.symm
    rw [look_alter_cons, lookup_alterEntries_self hm, ← hm]
    exact ih h

/-- A change is not seen at a place that is neither above nor below. -/
theorem look_alter_of_apart (habove : ¬place <+: away) (hbelow : ¬away <+: place) :
    look (alter f place n?) away = look n? away := by
  induction place generalizing n? away with
  | nil => exact absurd List.nil_prefix habove
  | cons name place ih =>
    cases away with
    | nil => exact absurd List.nil_prefix hbelow
    | cons other away =>
      rw [look_alter_cons, look_cons]
      by_cases heq : other = name
      · subst heq
        rw [List.cons_prefix_cons] at habove hbelow
        have habove : ¬place <+: away := fun h => habove ⟨rfl, h⟩
        have hbelow : ¬away <+: place := fun h => hbelow ⟨rfl, h⟩
        -- The entry stays, as the change is further down.
        obtain ⟨m, hm⟩ : ∃ m, alter f place ((entriesOf n?).lookup other) = some m := by
          cases place with
          | nil => exact absurd List.nil_prefix habove
          | cons => exact ⟨_, rfl⟩
        rw [lookup_alterEntries_self hm, ← hm]
        exact ih habove hbelow
      · rw [lookup_alterEntries_of_ne heq]

/-- What is taken away from a place is gone if every name is there once. -/
theorem look_alter_eq_none (hf : ∀ old, f old = none)
    (hnodup : ∀ {above m}, look n? above = some m → (m.entries.map Prod.fst).Nodup) :
    look (alter f place n?) place = none := by
  induction place generalizing n? with
  | nil => rw [look_nil, alter, hf]
  | cons name place ih =>
    rw [look_alter_cons]
    have hbelow : ∀ {above m}, look ((entriesOf n?).lookup name) above = some m →
        (m.entries.map Prod.fst).Nodup := by
      intro above m h
      exact hnodup (look_cons.trans h)
    have hentries : ((entriesOf n?).map Prod.fst).Nodup := by
      cases n? with
      | none => exact List.nodup_nil
      | some n => exact hnodup look_nil
    cases hchild : alter f place ((entriesOf n?).lookup name) with
    | none => rw [lookup_alterEntries_eq_none hentries hchild]; rfl
    | some m =>
      rw [lookup_alterEntries_self hchild, ← hchild]
      exact ih hbelow

/-! ## Putting and removing -/

/-- What is at a place after a node has been put there : a directory without entries keeps those
that were there. -/
def merged (node : Node) (old : Option Node) : Node :=
  match node, old with
  | .directory modified [], some (.directory _ entries) => .directory modified entries
  | node, _ => node

/-- Putting a node is a change of the tree that never takes it away. -/
theorem some_put (n : Node) (place : List FileName) (node : Node) :
    some (n.put place node) = alter (fun old => some (merged node old)) place (some n) := by
  have hput : n.put place node =
      (alter (fun old => some (merged node old)) place (some n)).getD n := by
    rw [put]
    congr 2
    funext old
    rcases node with _ | ⟨_, _ | _⟩ | _ <;> rcases old with _ | (_ | _ | _) <;> rfl
  rw [hput]
  cases place <;> rfl

/-- A node that has been put at a place is found there. -/
theorem at?_put (n : Node) (place : List FileName) (node : Node) :
    (n.put place node).at? place = some (merged node (n.at? place)) := by
  rw [← look_some, some_put]
  exact look_alter_self rfl

/-- A node that is put at a place is not seen at places that are neither above nor below. -/
theorem at?_put_of_apart (habove : ¬place <+: away) (hbelow : ¬away <+: place) (node : Node) :
    (n.put place node).at? away = n.at? away := by
  rw [← look_some, some_put, look_alter_of_apart habove hbelow, look_some]

/-- Removing a node does not take the tree away either, unless the node is the tree. -/
theorem some_erase (hplace : place ≠ []) (h : (n.at? place).isSome) :
    some (n.erase place) = alter (fun _ => none) place (some n) := by
  rw [erase, if_pos h]
  cases place with
  | nil => exact absurd rfl hplace
  | cons => rfl

/-- A node that has been removed is found no more, if no directory has a name twice. -/
theorem at?_erase (hplace : place ≠ [])
    (hnodup : ∀ {above m}, n.at? above = some m → (m.entries.map Prod.fst).Nodup) :
    (n.erase place).at? place = none := by
  by_cases h : (n.at? place).isSome
  · rw [← look_some, some_erase hplace h]
    exact look_alter_eq_none (fun _ => rfl) hnodup
  · rw [erase, if_neg h]
    exact Option.not_isSome_iff_eq_none.mp h

/-- A node that is removed is not missed at places that are neither above nor below. -/
theorem at?_erase_of_apart (habove : ¬place <+: away) (hbelow : ¬away <+: place) :
    (n.erase place).at? away = n.at? away := by
  by_cases h : (n.at? place).isSome
  · have hplace : place ≠ [] := by
      rintro rfl
      exact habove List.nil_prefix
    rw [← look_some, some_erase hplace h, look_alter_of_apart habove hbelow, look_some]
  · rw [erase, if_neg h]

/-! ## Files -/

/-- Nothing lies below what is no directory. -/
theorem not_prefix_of_not_isDirectory (hnode : n.at? place = some node)
    (hkind : node.isDirectory = false) (haway : n.at? away = some m) (hne : place ≠ away) :
    ¬place <+: away := by
  rintro ⟨rest, rfl⟩
  rw [at?_append, hnode] at haway
  cases rest with
  | nil => exact hne (List.append_nil place).symm
  | cons name rest =>
    cases node with
    | directory => cases hkind
    | file | device => cases haway

end Node

namespace FileSystem

open Node

variable {fs : FileSystem} {p : Path} {place away : List FileName} {node : Node}

theorem at?_of_map_eq_ok {top : Node} {reached : Except FileError (List FileName)}
    {node? : Option Node} (h : (reached.map fun place => (place, top.at? place)) = .ok (place, node?)) :
    top.at? place = node? := by
  cases reached with
  | error => cases h
  | ok => cases h; rfl

/-- The place that a path names for writing lies in a directory, and is none itself. -/
theorem exists_of_placeToWrite (h : fs.placeToWrite p = .ok place) :
    ∃ above name dir, place = above ++ [name] ∧ fs.top.at? above = some dir ∧
      dir.isDirectory = true ∧ ∀ old, fs.top.at? place = some old → old.isDirectory = false := by
  unfold placeToWrite at h
  split at h
  · cases h
  split at h
  · cases h
  split at h
  · cases h
  dsimp only at h
  split at h
  · cases h
  · rename_i above modified entries hdir
    split at h
    · cases h
    split at h
    · cases h
    split at h
    · cases h
    rename_i hold
    cases h
    refine ⟨above, _, .directory modified entries, rfl, ?_, rfl, fun old hmem => ?_⟩
    · exact at?_of_map_eq_ok hdir
    · simpa [hmem] using hold
  · cases h

/-- A file that is written at a place that a path names changes no other file. -/
theorem at?_put_of_placeToWrite (h : fs.placeToWrite p = .ok place)
    (haway : fs.top.at? away = some node) (hfile : node.isDirectory = false) (hne : place ≠ away)
    (written : Node) :
    (fs.top.put place written).at? away = some node := by
  obtain ⟨above, name, dir, rfl, hdir, hkind, hold⟩ := exists_of_placeToWrite h
  rw [← haway]
  refine at?_put_of_apart (fun hprefix => ?_) (fun hprefix => ?_) written
  · -- Something is below the place, so that something is at it, and it is no directory.
    obtain ⟨old, hplace⟩ : ∃ old, fs.top.at? (above ++ [name]) = some old := by
      obtain ⟨rest, rfl⟩ := hprefix
      rw [at?_append] at haway
      cases hplace : fs.top.at? (above ++ [name]) with
      | none => rw [hplace] at haway; cases haway
      | some old => exact ⟨old, rfl⟩
    exact not_prefix_of_not_isDirectory hplace (hold old hplace) haway hne hprefix
  · -- The directory of the place is below the file.
    have habove : away <+: above := by
      rcases List.prefix_concat_iff.mp hprefix with heq | habove
      · exact absurd heq.symm hne
      · exact habove
    refine not_prefix_of_not_isDirectory haway hfile hdir ?_ habove
    rintro rfl
    rw [haway, Option.some_inj] at hdir
    rw [hdir, hkind] at hfile
    cases hfile

end FileSystem

end SuiteScope
