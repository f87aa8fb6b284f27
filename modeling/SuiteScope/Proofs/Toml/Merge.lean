import SuiteScope.Proofs.Toml.Distinct

/-!
# Values laid over each other

`overlay` lays what is given above over what is given below, if anything is. In a table with another
laid over it, every key has the values of the two tables laid over each other
(`lookup_mergeEntries`). This needs the keys of the table above to be distinct, as those of a
document are.
-/

namespace SuiteScope.Toml

variable {below above : Entries} {key : String} {v w : Value}

/-- Entries are set as the entries of any list with keys. -/
theorem setEntry_eq_setKey (key : String) (v : Value) (entries : Entries) :
    setEntry key v entries = setKey key v entries := by
  induction entries with
  | nil => rfl
  | cons entry entries ih => rw [setEntry, setKey, ih]

/-- A value that is no table replaces what was there. -/
theorem merge_of_not_isTable (h : w.isTable = false) (v : Value) : merge v w = w := by
  cases w with
  | table => cases h
  | _ => rw [merge]; exact nofun

/-- Two tables are merged entry by entry. -/
theorem merge_table (below above : Entries) :
    merge (.table below) (.table above) = .table (mergeEntries below above) := by
  rw [merge]

/-- A value that is no table is replaced whole. -/
theorem merge_of_not_isTable_left (h : v.isTable = false) (w : Value) : merge v w = w := by
  cases w with
  | table =>
    cases v with
    | table => cases h
    | _ => rw [merge]; exact nofun
  | _ => exact merge_of_not_isTable rfl v

/-- What is given above laid over what is given below. -/
def overlay : (below above : Option Value) → Option Value
  | below, none => below
  | none, some above => some above
  | some below, some above => some (merge below above)

/-- Where nothing was, there is what comes on top. -/
theorem overlay_none_left (w : Option Value) : overlay none w = w := by
  cases w <;> rfl

/-- What is no table hides what is below it. -/
theorem overlay_of_not_isTable (h : w.isTable = false) (below : Option Value) :
    overlay below (some w) = some w := by
  cases below with
  | none => rfl
  | some v => exact congrArg some (merge_of_not_isTable h v)

/-- An entry is merged with the one of its key, or added. -/
theorem mergeEntry_eq_setKey (below : Entries) (key : String) (v : Value) :
    mergeEntry below (key, v) =
      setKey key ((below.lookup key).elim v (merge · v)) below := by
  rw [mergeEntry]
  cases below.lookup key with
  | none => exact setEntry_eq_setKey key v below
  | some old => exact setEntry_eq_setKey key (merge old v) below

/-- Under every key of merged tables there is what the two tables have there, one over the other. -/
theorem lookup_mergeEntries (h : (above.map Prod.fst).Nodup) (key : String) :
    (mergeEntries below above).lookup key = overlay (below.lookup key) (above.lookup key) := by
  induction above generalizing below with
  | nil =>
    rw [mergeEntries]
    rfl
  | cons entry above ih =>
    obtain ⟨k, v⟩ := entry
    obtain ⟨hk, habove⟩ := List.nodup_cons.mp h
    rw [mergeEntries, ih habove, mergeEntry_eq_setKey, lookup_setKey, lookup_cons]
    split
    next heq =>
      -- the key is given once, so nothing more is laid over its value
      rw [heq, lookup_eq_none_iff.mpr hk]
      cases below.lookup k <;> rfl
    next => rfl

/-- Where no key is given twice, laying tables over each other puts one behind the other. -/
theorem mergeEntries_of_nodup (h : ((below ++ above).map Prod.fst).Nodup) :
    mergeEntries below above = below ++ above := by
  induction above generalizing below with
  | nil => rw [mergeEntries, List.append_nil]
  | cons entry above ih =>
    obtain ⟨key, v⟩ := entry
    have hkey : key ∉ below.map Prod.fst := by
      rw [List.map_append, List.nodup_append] at h
      exact fun hmem => h.2.2 key hmem key List.mem_cons_self rfl
    rw [List.append_cons] at h ⊢
    rw [mergeEntries, mergeEntry_eq_setKey, lookup_eq_none_iff.mpr hkey, setKey_of_not_mem hkey]
    exact ih h

/-- A table over an empty one is that table. -/
theorem mergeEntries_nil_left (h : (above.map Prod.fst).Nodup) : mergeEntries [] above = above :=
  mergeEntries_of_nodup h

/-! ## Distinct keys -/

/-- Setting a key keeps keys apart. -/
theorem distinct_setKey (h : (Value.table below).Distinct) (key : String) (hv : v.Distinct) :
    (Value.table (setKey key v below)).Distinct := by
  refine .table (nodup_setKey (keys_of_distinct h) key v) fun entry hentry => ?_
  rcases mem_of_mem_setKey hentry with rfl | hentry
  · exact hv
  · exact distinct_of_mem h hentry

/-- Merging entries keeps keys apart, if merging their values does. -/
theorem distinct_mergeEntries (hbelow : (Value.table below).Distinct)
    (habove : ∀ entry ∈ above, entry.2.Distinct ∧
      ∀ old : Value, old.Distinct → (merge old entry.2).Distinct) :
    (Value.table (mergeEntries below above)).Distinct := by
  induction above generalizing below with
  | nil =>
    rw [mergeEntries]
    exact hbelow
  | cons entry above ih =>
    obtain ⟨key, v⟩ := entry
    obtain ⟨⟨hv, hmerge⟩, habove⟩ := List.forall_mem_cons.mp habove
    rw [mergeEntries, mergeEntry_eq_setKey]
    refine ih (distinct_setKey hbelow key ?_) habove
    cases hold : below.lookup key with
    | none => exact hv
    | some old => exact hmerge old (distinct_of_mem hbelow (mem_of_lookup_eq_some hold))

/-- A value with distinct keys laid over another one. -/
theorem Value.Distinct.merge (hv : v.Distinct) (hw : w.Distinct) : (merge v w).Distinct := by
  induction hw generalizing v with
  | other h =>
    rw [merge_of_not_isTable h]
    exact .other h
  | @table above keys values ih =>
    cases v with
    | table below =>
      rw [merge_table]
      exact distinct_mergeEntries hv fun entry hentry => ⟨values entry hentry, fun _ hold =>
        ih entry hentry hold⟩
    | _ =>
      rw [merge_of_not_isTable_left rfl]
      exact .table keys values

end SuiteScope.Toml
