import SuiteScope.Proofs.Toml.Merge
import SuiteScope.Settings.Decode

/-!
# Members of groups that are laid over each other

A member of a group of settings is read off the value that the group gives it, if it gives one
(`member?_eq`). `Reads read entries name` says that this value can be read. Where the members of two
groups can be read, so can those of the one group laid over the other, and a member is what the
group above gives, or else what the group below gives (`lookup_mergeEntries_bind`). This is so for
members that are read off anything but tables (`ReadsLeaves`).

`group entries name` are the members of a group inside a group. Where groups are tables, laying
groups over each other lays over each other what is inside (`group_mergeEntries`).
-/

namespace SuiteScope.Settings

open SuiteScope.Toml

variable {α : Type} {read : Value → Option α} {entries below above : Entries} {name : String}

/-! ## Members that are no groups -/

/-- The value that is given to a member, if there is one, can be read. -/
def Reads (read : Value → Option α) (entries : Entries) (name : String) : Prop :=
  ∀ v, entries.lookup name = some v → (read v).isSome = true

/-- No table is read. -/
def ReadsLeaves (read : Value → Option α) : Prop :=
  ∀ v, (read v).isSome = true → v.isTable = false

/-- A member that can be read has its value, or the default. -/
theorem member?_eq (h : Reads read entries name) (default : α) :
    member? entries name read default = some (((entries.lookup name).bind read).getD default) := by
  unfold member?
  cases hv : entries.lookup name with
  | none => rfl
  | some v =>
    obtain ⟨a, ha⟩ := Option.isSome_iff_exists.mp (h v hv)
    dsimp only [Option.bind_some]
    rw [ha, Option.getD_some]

/-- A member that has been read can be read. -/
theorem reads_of_member? {default a : α} (h : member? entries name read default = some a) :
    Reads read entries name := by
  intro v hv
  rw [member?, hv] at h
  exact Option.isSome_iff_exists.mpr ⟨a, h⟩

/-- What is given above is read instead of what is given below. -/
theorem overlay_bind (hread : ReadsLeaves read) {below above : Option Value}
    (h : ∀ v, above = some v → (read v).isSome = true) :
    (overlay below above).bind read = (above.bind read).or (below.bind read) := by
  cases above with
  | none => rfl
  | some v =>
    obtain ⟨a, ha⟩ := Option.isSome_iff_exists.mp (h v rfl)
    rw [overlay_of_not_isTable (hread v (h v rfl)), Option.bind_some, ha, Option.some_or]

/-- What is read under a name of merged tables is what the upper one has, or else the lower one. -/
theorem lookup_mergeEntries_bind (hread : ReadsLeaves read) (hkeys : (above.map Prod.fst).Nodup)
    (h : Reads read above name) :
    ((mergeEntries below above).lookup name).bind read =
      ((above.lookup name).bind read).or ((below.lookup name).bind read) := by
  rw [lookup_mergeEntries hkeys]
  exact overlay_bind hread h

/-- What can be read in both tables can be read when they are merged. -/
theorem Reads.mergeEntries (hread : ReadsLeaves read) (hkeys : (above.map Prod.fst).Nodup)
    (hbelow : Reads read below name) (habove : Reads read above name) :
    Reads read (mergeEntries below above) name := by
  intro v hv
  have hbind : (some v).bind read =
      ((above.lookup name).bind read).or ((below.lookup name).bind read) := by
    rw [← hv, lookup_mergeEntries_bind hread hkeys habove]
  rw [← Option.bind_some v read, hbind, Option.isSome_or, Bool.or_eq_true]
  rw [lookup_mergeEntries hkeys] at hv
  cases ha : above.lookup name with
  | some w => exact .inl (habove w ha)
  | none =>
    rw [ha] at hv
    right
    rw [show below.lookup name = some v from hv]
    exact hbelow v hv

/-! ## Groups -/

/-- What is given for a group, if anything, is a table. -/
def IsGroup (entries : Entries) (name : String) : Prop :=
  ∀ v, entries.lookup name = some v → v.isTable = true

/-- The entries of a value, if there is one and it is a table. -/
def entriesOf : Option Value → Entries
  | some (.table entries) => entries
  | _ => []

/-- The members of a group, none if it is not given. -/
def group (entries : Entries) (name : String) : Entries :=
  entriesOf (entries.lookup name)

/-- A group is there as a table, or it is missing and has no members. -/
theorem IsGroup.lookup_eq (h : IsGroup entries name) :
    entries.lookup name = none ∧ group entries name = [] ∨
      entries.lookup name = some (.table (group entries name)) := by
  unfold group
  cases hv : entries.lookup name with
  | none => exact .inl ⟨rfl, rfl⟩
  | some v =>
    have htable := h v hv
    cases v with
    | table entries => exact .inr rfl
    | _ => cases htable

/-- A missing group is read as an empty one. -/
theorem member?_group {default : α} (h : IsGroup entries name)
    (hread : read (.table []) = some default) :
    member? entries name read default = read (.table (group entries name)) := by
  unfold member?
  rcases h.lookup_eq with ⟨hlookup, hgroup⟩ | hlookup
  · rw [hlookup, hgroup, hread]
  · rw [hlookup]

/-- A group of a table with another laid over it. -/
theorem lookup_mergeEntries_group (hbelow : IsGroup below name) (habove : IsGroup above name)
    (hkeys : (above.map Prod.fst).Nodup) (hgroup : ((group above name).map Prod.fst).Nodup) :
    (mergeEntries below above).lookup name = none ∧ below.lookup name = none ∧
        above.lookup name = none ∨
      (mergeEntries below above).lookup name =
        some (.table (mergeEntries (group below name) (group above name))) := by
  rw [lookup_mergeEntries hkeys]
  rcases hbelow.lookup_eq with ⟨hb, hbnil⟩ | hb <;> rcases habove.lookup_eq with ⟨ha, hanil⟩ | ha
  · rw [hb, ha]
    exact .inl ⟨rfl, rfl, rfl⟩
  · rw [hb, ha, hbnil, mergeEntries_nil_left hgroup]
    exact .inr rfl
  · rw [hb, ha, hanil, mergeEntries]
    exact .inr rfl
  · rw [hb, ha, overlay, merge_table]
    exact .inr rfl

/-- Two groups are merged to a group. -/
theorem IsGroup.mergeEntries (hbelow : IsGroup below name) (habove : IsGroup above name)
    (hkeys : (above.map Prod.fst).Nodup) (hgroup : ((group above name).map Prod.fst).Nodup) :
    IsGroup (mergeEntries below above) name := by
  intro v hv
  rcases lookup_mergeEntries_group hbelow habove hkeys hgroup with ⟨hnone, -⟩ | hsome
  · rw [hnone] at hv
    cases hv
  · rw [hsome] at hv
    cases hv
    rfl

/-- Its members are those of both, merged. -/
theorem group_mergeEntries (hbelow : IsGroup below name) (habove : IsGroup above name)
    (hkeys : (above.map Prod.fst).Nodup) (hgroup : ((group above name).map Prod.fst).Nodup) :
    group (mergeEntries below above) name =
      Toml.mergeEntries (group below name) (group above name) := by
  rcases lookup_mergeEntries_group hbelow habove hkeys hgroup with ⟨hnone, hb, ha⟩ | hsome
  · unfold group
    rw [hnone, hb, ha]
    rfl
  · rw [group, hsome, entriesOf]

/-! ## Tables of texts -/

variable {conv : Conventions}

/-- A text is never read from a table. -/
theorem readsLeaves_text? (conv : Conventions) : ReadsLeaves (text? conv) := by
  intro v h
  cases v with
  | table => cases h
  | _ => rfl

/-- A truth value is never read from a table. -/
theorem readsLeaves_truth? : ReadsLeaves truth? := by
  intro v h
  cases v with
  | table => cases h
  | _ => rfl

/-- A list of texts is never read from a table. -/
theorem readsLeaves_texts? (conv : Conventions) : ReadsLeaves (texts? conv) := by
  intro v h
  cases v with
  | table => cases h
  | _ => rfl

/-- A text is a text for documents that are laid over each other as well. -/
theorem isSome_text?_layered {v : Value} (h : (text? conv v).isSome = true) :
    (text? .layered v).isSome = true := by
  cases v with
  | string => rfl
  | datetime => rfl
  | _ => cases h

theorem isSome_mapM {β γ : Type} {f : β → Option γ} {l : List β} :
    (l.mapM f).isSome = true ↔ ∀ a ∈ l, (f a).isSome = true := by
  induction l with
  | nil => simp
  | cons a l ih =>
    rw [List.mapM_cons, List.forall_mem_cons, ← ih]
    cases f a with
    | none => simp
    | some b => cases l.mapM f <;> simp

/-- A list that one reader accepts is accepted where layers are read. -/
theorem isSome_texts?_layered {v : Value} (h : (texts? conv v).isSome = true) :
    (texts? .layered v).isSome = true := by
  cases v with
  | array elements =>
    exact isSome_mapM.mpr fun element helement =>
      isSome_text?_layered (isSome_mapM.mp h element helement)
  | _ => cases h

/-- The texts of a table in the order in which they stand. -/
def textsIn? (conv : Conventions) (entries : Entries) : Option (List (String × String)) :=
  entries.mapM fun entry => (text? conv entry.2).map (entry.1, ·)

theorem textsIn?_cons (key : String) (v : Value) (entries : Entries) :
    textsIn? conv ((key, v) :: entries) =
      (text? conv v).bind fun text => (textsIn? conv entries).map ((key, text) :: ·) := by
  unfold textsIn?
  rw [List.mapM_cons]
  cases text? conv v with
  | none => rfl
  | some text => cases entries.mapM fun entry => (text? conv entry.2).map (entry.1, ·) <;> rfl

/-- A table of texts has the same keys, and under each of them its text. -/
theorem lookup_textsIn? {texts : List (String × String)} (h : textsIn? conv entries = some texts) :
    texts.map Prod.fst = entries.map Prod.fst ∧
      (∀ entry ∈ entries, (text? conv entry.2).isSome = true) ∧
      ∀ key, texts.lookup key = (entries.lookup key).bind (text? conv) := by
  induction entries generalizing texts with
  | nil =>
    cases h
    exact ⟨rfl, nofun, fun _ => rfl⟩
  | cons entry entries ih =>
    obtain ⟨key, v⟩ := entry
    rw [textsIn?_cons] at h
    obtain ⟨text, htext, h⟩ := Option.bind_eq_some_iff.mp h
    obtain ⟨texts', htexts', rfl⟩ := Option.map_eq_some_iff.mp h
    obtain ⟨hkeys, hsome, hlookup⟩ := ih htexts'
    refine ⟨by rw [List.map_cons, hkeys, List.map_cons], List.forall_mem_cons.mpr ⟨?_, hsome⟩, ?_⟩
    · exact Option.isSome_iff_exists.mpr ⟨text, htext⟩
    · intro k
      rw [lookup_cons, lookup_cons, hlookup]
      split
      · exact htext.symm
      · rfl

/-- Pairs with keys of their own, sorted by their keys. -/
theorem pairwise_mergeSort_keys {texts : List (String × String)}
    (hkeys : (texts.map Prod.fst).Nodup) :
    ((texts.mergeSort fun a b => !decide (b.1 < a.1)).map Prod.fst).Pairwise (· < ·) := by
  have hle : ∀ a b : String × String, (!decide (b.1 < a.1)) = true ↔ a.1 ≤ b.1 := by
    intro a b
    rw [Bool.not_eq_true', decide_eq_false_iff_not, String.not_lt]
  have hsorted : (texts.mergeSort fun a b => !decide (b.1 < a.1)).Pairwise fun a b =>
      (!decide (b.1 < a.1)) = true := by
    refine List.pairwise_mergeSort (fun a b c hab hbc => ?_) (fun a b => ?_) texts
    · rw [hle] at hab hbc ⊢
      exact String.le_trans hab hbc
    · rw [Bool.or_eq_true, hle, hle]
      exact String.le_total a.1 b.1
  have hnodup := ((List.mergeSort_perm texts fun a b => !decide (b.1 < a.1)).map
    Prod.fst).nodup_iff.mpr hkeys
  rw [List.Nodup, List.pairwise_map] at hnodup
  rw [List.pairwise_map]
  refine hsorted.imp₂ (fun a b hab hne => ?_) hnodup
  exact String.not_le.mp fun hba => hne (String.le_antisymm ((hle a b).mp hab) hba)

/-- A table whose values are all texts, in the order of its keys. -/
theorem exists_textTable? (hkeys : (entries.map Prod.fst).Nodup)
    (h : ∀ key, Reads (text? conv) entries key) :
    ∃ texts, textTable? conv (.table entries) = some texts ∧
      (texts.map Prod.fst).Pairwise (· < ·) ∧
      ∀ key, texts.lookup key = (entries.lookup key).bind (text? conv) := by
  have hsome : (textsIn? conv entries).isSome = true := by
    refine isSome_mapM.mpr fun entry hentry => ?_
    rw [Option.isSome_map]
    exact h entry.1 entry.2 ((lookup_eq_some_iff_mem hkeys).mpr hentry)
  obtain ⟨texts, htexts⟩ := Option.isSome_iff_exists.mp hsome
  obtain ⟨hkeys', -, hlookup⟩ := lookup_textsIn? htexts
  have hnodup : (texts.map Prod.fst).Nodup := hkeys' ▸ hkeys
  refine ⟨_, congrArg (Option.map _) htexts, pairwise_mergeSort_keys hnodup, fun key => ?_⟩
  rw [← hlookup, lookup_eq_of_perm hnodup (List.mergeSort_perm _ _).symm]

/-- Every entry of a table of texts can be read. -/
theorem reads_of_textTable? {texts : List (String × String)}
    (h : textTable? conv (.table entries) = some texts) (key : String) :
    Reads (text? conv) entries key := by
  rw [textTable?] at h
  obtain ⟨_, htexts, -⟩ := Option.map_eq_some_iff.mp h
  exact fun v hv => (lookup_textsIn? htexts).2.1 (key, v) (mem_of_lookup_eq_some hv)

end SuiteScope.Settings
