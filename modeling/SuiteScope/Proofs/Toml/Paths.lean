import SuiteScope.Proofs.Toml.Merge

/-!
# Values at paths of keys

A path of keys leads through tables to a value, if there is one (`Value.at?`). A value on the way
that is no table hides the path (`Value.Hides`).

Laying one value over another is settled path by path (`at?_merge`) : where the value above does not
hide the path, the result has there what the two values have there, laid over each other, and where
it does, the result has nothing there.

`merge_pathwise` : a value above that is no table replaces what is below, two tables that meet are
united, what is given on one side only is kept whole, and laying the same value over the result once
more changes nothing. The value above needs keys of its own in every table, as a document has them
(`distinct_read?`). No such thing is asked of the value below.
-/

namespace SuiteScope.Toml

/-- The value at a path of keys. -/
def Value.at? : (v : Value) → (path : List String) → Option Value
  | v, [] => some v
  | .table entries, key :: path => (entries.lookup key).bind (·.at? path)
  | _, _ :: _ => none

/-- A value that is no table stands on the way to the path, and not at its end. -/
def Value.Hides (v : Value) (path : List String) : Prop :=
  ∃ way rest w, path = way ++ rest ∧ rest ≠ [] ∧ v.at? way = some w ∧ w.isTable = false

variable {v w base above : Value} {key : String} {path way rest : List String}

/-! ## One value -/

theorem at?_nil (v : Value) : v.at? [] = some v := by
  rw [Value.at?]

/-- A path leads into a table through the entry of its first key. -/
theorem at?_table (entries : Entries) (key : String) (path : List String) :
    (Value.table entries).at? (key :: path) = (entries.lookup key).bind (·.at? path) := by
  rw [Value.at?]

/-- No path leads into what is no table. -/
theorem at?_of_not_isTable (h : v.isTable = false) (hpath : path ≠ []) : v.at? path = none := by
  cases path with
  | nil => exact absurd rfl hpath
  | cons key path =>
    cases v with
    | table => cases h
    | _ => rfl

/-- A path may be followed in two parts. -/
theorem at?_append (v : Value) (way rest : List String) :
    v.at? (way ++ rest) = (v.at? way).bind (·.at? rest) := by
  induction way generalizing v with
  | nil => rw [at?_nil, List.nil_append, Option.bind_some]
  | cons key way ih =>
    cases v with
    | table entries =>
      rw [List.cons_append, at?_table, at?_table, Option.bind_assoc]
      exact Option.bind_congr fun w _ => ih w
    | _ => rfl

theorem exists_table (h : v.isTable = true) : ∃ entries, v = .table entries := by
  cases v with
  | table entries => exact ⟨entries, rfl⟩
  | _ => cases h

/-- A path is hidden by what is no table itself, or below its first key. -/
theorem hides_cons_iff :
    v.Hides (key :: path) ↔ v.isTable = false ∨ ∃ w, v.at? [key] = some w ∧ w.Hides path := by
  constructor
  · rintro ⟨way, rest, w, heq, hrest, hw, htable⟩
    cases way with
    | nil =>
      rw [at?_nil, Option.some.injEq] at hw
      exact .inl (hw ▸ htable)
    | cons k way =>
      obtain ⟨rfl, rfl⟩ := List.cons.inj heq
      rw [← List.singleton_append, at?_append] at hw
      obtain ⟨u, hu, hw⟩ := Option.bind_eq_some_iff.mp hw
      exact .inr ⟨u, hu, way, rest, w, rfl, hrest, hw, htable⟩
  · rintro (htable | ⟨u, hu, way, rest, w, rfl, hrest, hw, htable⟩)
    · exact ⟨[], key :: path, v, rfl, List.cons_ne_nil _ _, at?_nil v, htable⟩
    · refine ⟨key :: way, rest, w, rfl, hrest, ?_, htable⟩
      rw [← List.singleton_append, at?_append, hu]
      exact hw

/-- A value has nothing at a path that it hides. -/
theorem at?_of_hides (h : v.Hides path) : v.at? path = none := by
  obtain ⟨way, rest, w, rfl, hrest, hw, htable⟩ := h
  rw [at?_append, hw]
  exact at?_of_not_isTable htable hrest

/-! ## A value laid over another -/

/-- What is given at a path that the value above does not hide. -/
theorem at?_merge (habove : above.Distinct) (h : ¬above.Hides path) (base : Value) :
    (merge base above).at? path = overlay (base.at? path) (above.at? path) := by
  induction path generalizing base above with
  | nil =>
    rw [at?_nil, at?_nil, at?_nil]
    rfl
  | cons key path ih =>
    rw [hides_cons_iff, not_or, not_exists] at h
    obtain ⟨htable, hbelow⟩ := h
    cases hbase : base.isTable with
    | false =>
      rw [merge_of_not_isTable_left hbase, at?_of_not_isTable hbase (List.cons_ne_nil _ _),
        overlay_none_left]
    | true =>
      obtain ⟨below, rfl⟩ := exists_table hbase
      obtain ⟨entries, rfl⟩ := exists_table (Bool.not_eq_false _ ▸ htable)
      rw [merge_table, at?_table, at?_table, at?_table,
        lookup_mergeEntries (keys_of_distinct habove)]
      cases ha : entries.lookup key with
      | none => rfl
      | some w =>
        cases below.lookup key with
        | none =>
          rw [overlay_none_left, Option.bind_none, overlay_none_left]
        | some v =>
          have hw : ¬w.Hides path := fun hhides => hbelow w ⟨by rw [at?_table, ha]; rfl, hhides⟩
          exact ih (distinct_of_mem habove (mem_of_lookup_eq_some ha)) hw v

/-- What hides a path above hides it in the result as well. -/
theorem Value.Hides.merge (habove : above.Distinct) (h : above.Hides path) (base : Value) :
    (merge base above).Hides path := by
  obtain ⟨way, rest, w, rfl, hrest, hw, htable⟩ := h
  have hway : ¬above.Hides way := fun hhides => by
    rw [at?_of_hides hhides] at hw
    cases hw
  refine ⟨way, rest, w, rfl, hrest, ?_, htable⟩
  rw [at?_merge habove hway, hw, overlay_of_not_isTable htable]

/-- What `m` has at a path if it is `above` laid over `base`. -/
structure Merged (base above m : Value) (path : List String) : Prop where
  /-- What is no table replaces what is below. -/
  replaced : ∀ v, above.at? path = some v → v.isTable = false → m.at? path = some v
  /-- Where nothing is given above, everything below stays. -/
  kept : above.at? path = none → ¬above.Hides path → m.at? path = base.at? path
  /-- A table that meets no table stays as it is. -/
  added : ∀ entries, above.at? path = some (.table entries) →
    (∀ v, base.at? path = some v → v.isTable = false) → m.at? path = some (.table entries)
  /-- Where two tables meet, there is a table with the entries of both. -/
  united : ∀ below entries, base.at? path = some (.table below) →
    above.at? path = some (.table entries) → m.at? path = some (.table (mergeEntries below entries))
  /-- Below what is no table there is nothing. -/
  hidden : above.Hides path → m.at? path = none

/-- At every path a merge has what `Merged` asks for. -/
theorem merged_merge (habove : above.Distinct) (base : Value) (path : List String) :
    Merged base above (merge base above) path := by
  have hgiven : ∀ v, above.at? path = some v →
      (merge base above).at? path = overlay (base.at? path) (some v) := fun v hv => by
    rw [at?_merge habove (fun hhides => ?_), hv]
    rw [at?_of_hides hhides] at hv
    cases hv
  constructor
  · intro v hv htable
    rw [hgiven v hv, overlay_of_not_isTable htable]
  · intro hnone hhides
    rw [at?_merge habove hhides, hnone]
    rfl
  · intro entries hentries hbase
    rw [hgiven _ hentries]
    cases hv : base.at? path with
    | none => rfl
    | some v => exact congrArg some (merge_of_not_isTable_left (hbase v hv) _)
  · intro below entries hbelow hentries
    rw [hgiven _ hentries, hbelow, overlay, merge_table]
  · intro hhides
    exact at?_of_hides (hhides.merge habove base)

/-! ## A value laid over another twice -/

/-- Entries are laid over a table without effect if it has a value of every key that takes in the
value of the entry. -/
theorem mergeEntries_eq_self {below entries : Entries}
    (h : ∀ entry ∈ entries, ∃ old, below.lookup entry.1 = some old ∧ merge old entry.2 = old) :
    mergeEntries below entries = below := by
  induction entries with
  | nil => rw [mergeEntries]
  | cons entry entries ih =>
    obtain ⟨key, v⟩ := entry
    obtain ⟨⟨old, hold, hmerge⟩, hentries⟩ := List.forall_mem_cons.mp h
    dsimp only at hold hmerge
    rw [mergeEntries, mergeEntry_eq_setKey, hold, Option.elim_some, hmerge, setKey_of_lookup hold,
      ih hentries]

/-- Laying a value over the result again changes nothing. -/
theorem merge_merge (habove : above.Distinct) (base : Value) :
    merge (merge base above) above = merge base above := by
  induction habove generalizing base with
  | other h => rw [merge_of_not_isTable h, merge_of_not_isTable h]
  | @table entries keys values ih =>
    -- a value that is no table gives way like an empty one
    obtain ⟨below, hbelow⟩ : ∃ below : Entries,
        merge base (.table entries) = .table (mergeEntries below entries) := by
      cases hbase : base.isTable with
      | false => exact ⟨[], by rw [merge_of_not_isTable_left hbase, mergeEntries_nil_left keys]⟩
      | true =>
        obtain ⟨below, rfl⟩ := exists_table hbase
        exact ⟨below, merge_table below entries⟩
    rw [hbelow, merge_table, mergeEntries_eq_self fun entry hentry => ?_]
    rw [lookup_mergeEntries keys, (lookup_eq_some_iff_mem keys).mpr hentry]
    cases below.lookup entry.1 with
    | none =>
      have hself := ih entry hentry (.boolean true)
      rw [merge_of_not_isTable_left (v := .boolean true) rfl] at hself
      exact ⟨entry.2, rfl, hself⟩
    | some old => exact ⟨merge old entry.2, rfl, ih entry hentry old⟩

/-- What one value laid over another has at every path, and that doing so again changes nothing. -/
theorem merge_pathwise (habove : above.Distinct) (base : Value) :
    (∀ path, Merged base above (merge base above) path) ∧
      merge (merge base above) above = merge base above :=
  ⟨merged_merge habove base, merge_merge habove base⟩

/-- A document below : a number and a table with a table in it. -/
def lower : Value :=
  .table [("a", .table [("x", .integer 1), ("y", .table [("z", .integer 2)])]), ("b", .integer 3)]

/-- A document above, which has a number for the inner table and a table for the number. -/
def upper : Value :=
  .table [("b", .table [("c", .boolean true)]), ("a", .table [("y", .integer 5)])]

/-- The upper document has no key twice. -/
theorem distinct_upper : upper.Distinct := by
  refine .table (by decide) (List.forall_mem_cons.mpr ⟨?_, List.forall_mem_singleton.mpr ?_⟩)
  · exact .table (by decide) (List.forall_mem_singleton.mpr (.other rfl))
  · exact .table (by decide) (List.forall_mem_singleton.mpr (.other rfl))

/-- Tables meet numbers in both directions, and the key beside them stays. -/
theorem merge_of_crossed_tables :
    upper.Distinct ∧ (merge lower upper).at? ["a", "y"] = some (.integer 5) ∧
      (merge lower upper).at? ["a", "y", "z"] = none ∧
      (merge lower upper).at? ["a", "x"] = lower.at? ["a", "x"] ∧
      (merge lower upper).at? ["b"] = some (.table [("c", .boolean true)]) ∧
      merge (merge lower upper) upper = merge lower upper := by
  obtain ⟨hpaths, htwice⟩ := merge_pathwise distinct_upper lower
  have hhidden : upper.Hides ["a", "y", "z"] :=
    ⟨["a", "y"], ["z"], .integer 5, rfl, List.cons_ne_nil _ _, rfl, rfl⟩
  have hseen : ¬upper.Hides ["a", "x"] := fun h => by
    obtain htable | ⟨w, hw, h⟩ := hides_cons_iff.mp h
    · cases htable
    · obtain rfl : Value.table [("y", .integer 5)] = w := Option.some.inj hw
      obtain htable | ⟨v, hv, -⟩ := hides_cons_iff.mp h
      · cases htable
      · cases hv
  have hbase : ∀ v, lower.at? ["b"] = some v → v.isTable = false := fun v hv => by
    cases hv
    rfl
  exact ⟨distinct_upper, (hpaths _).replaced _ rfl rfl, (hpaths _).hidden hhidden,
    (hpaths _).kept rfl hseen, (hpaths _).added _ rfl hbase, htwice⟩

end SuiteScope.Toml
