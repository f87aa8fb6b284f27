import SuiteScope.Proofs.Keys
import SuiteScope.Toml.Document
import SuiteScope.Toml.Tagged

/-!
# Keys of a document

A document gives a key no two values. Each change that a line makes in a table under construction
keeps the keys of the table apart (`Change.Keeps`), so this holds of every table of a finished
document (`distinct_read?`), and it is not lost when dates and times are put in the place of tagged
tables (`Value.Distinct.untag?`).

Tables in arrays are left out : nothing is laid over them.
-/

namespace SuiteScope.Toml

/-- Whether a value is a table. -/
def Value.isTable : Value → Bool
  | .table _ => true
  | _ => false

/-- No key is twice in a table, nor in one of the tables below it. -/
inductive Value.Distinct : Value → Prop
  | table {entries : Entries} (keys : (entries.map Prod.fst).Nodup)
    (values : ∀ entry ∈ entries, entry.2.Distinct) : Distinct (.table entries)
  | other {v : Value} (h : v.isTable = false) : Distinct v

/-- No key is twice in a table under construction, nor in one of the tables below it. -/
inductive Item.Distinct : Item → Prop
  | value {v : Value} (h : v.Distinct) : Distinct (.value v)
  | table {origin : Origin} {items : Items} (keys : (items.map Prod.fst).Nodup)
    (values : ∀ entry ∈ items, entry.2.Distinct) : Distinct (.table origin items)
  | tables (elements : List Items) : Distinct (.tables elements)

/-- The entries of a table under construction have keys of their own, at every depth. -/
structure DistinctItems (items : Items) : Prop where
  keys : (items.map Prod.fst).Nodup
  values : ∀ entry ∈ items, entry.2.Distinct

/-- A change that keeps the keys of a table apart. -/
def Change.Keeps (f : Change) : Prop :=
  ∀ ⦃origin items o items'⦄, f origin items = some (o, items') → DistinctItems items →
    DistinctItems items'

variable {items items' : Items} {item : Item} {key : String} {v w : Value} {f : Change}

/-- No key of such a table is there twice. -/
theorem keys_of_distinct {entries : Entries} (h : (Value.table entries).Distinct) :
    (entries.map Prod.fst).Nodup := by
  cases h with
  | table keys => exact keys
  | other h => cases h

/-- The values in such a table are of the same kind. -/
theorem distinct_of_mem {entries : Entries} (h : (Value.table entries).Distinct)
    (hmem : (key, v) ∈ entries) : v.Distinct := by
  cases h with
  | table _ values => exact values _ hmem
  | other h => cases h

/-! ## Tables under construction -/

/-- Items are set as the entries of any list with keys. -/
theorem setItem_eq_setKey (key : String) (item : Item) (items : Items) :
    setItem key item items = setKey key item items := by
  induction items with
  | nil => rfl
  | cons entry items ih => rw [setItem, setKey, ih]

namespace DistinctItems

theorem nil : DistinctItems [] :=
  ⟨List.nodup_nil, nofun⟩

/-- A table is as good as its items. -/
theorem table (h : DistinctItems items) (origin : Origin) : (Item.table origin items).Distinct :=
  .table h.keys h.values

/-- The items of a table are as good as the table. -/
theorem of_table {origin : Origin} (h : (Item.table origin items).Distinct) :
    DistinctItems items := by
  cases h with
  | table keys values => exact ⟨keys, values⟩

/-- What is found under a key is as good as the items it is found in. -/
theorem of_lookup (h : DistinctItems items) (hitem : items.lookup key = some item) :
    item.Distinct :=
  h.values (key, item) (mem_of_lookup_eq_some hitem)

/-- An item may be set, whether its key is there or not. -/
theorem setItem (h : DistinctItems items) (hitem : item.Distinct) (key : String) :
    DistinctItems (setItem key item items) := by
  rw [setItem_eq_setKey]
  refine ⟨nodup_setKey h.keys key item, fun entry hentry => ?_⟩
  rcases mem_of_mem_setKey hentry with rfl | hentry
  · exact hitem
  · exact h.values entry hentry

/-- Items may be left out. -/
theorem filter (h : DistinctItems items) (p : String × Item → Bool) :
    DistinctItems (items.filter p) :=
  ⟨h.keys.sublist (List.filter_sublist.map _), fun entry hentry =>
    h.values entry (List.mem_filter.mp hentry).1⟩

/-- An item may be added at the end under a key that is not there. -/
theorem concat (h : DistinctItems items) (hitem : item.Distinct) (hkey : key ∉ items.map Prod.fst) :
    DistinctItems (items ++ [(key, item)]) := by
  rw [← setKey_of_not_mem hkey, ← setItem_eq_setKey]
  exact h.setItem hitem key

end DistinctItems

/-- A change further down keeps keys apart if it does so in the table that it reaches. The induction
is on the path, one table after another. -/
theorem keeps_changeAt (hf : f.Keeps) (byDots : Bool) (path : List String) :
    (changeAt byDots f path).Keeps := by
  induction path with
  | nil => exact hf
  | cons key path ih =>
    intro origin items o items' h hitems
    rw [changeAt] at h
    split at h
    · obtain ⟨⟨o', inner⟩, hinner, heq⟩ := Option.map_eq_some_iff.mp h
      cases heq
      exact hitems.setItem ((ih hinner .nil).table o') key
    · cases h
    · cases h
    · obtain ⟨⟨o', inner⟩, hinner, heq⟩ := Option.map_eq_some_iff.mp h
      cases heq
      exact hitems.setItem (.tables _) key
    next o inner hlookup =>
      split at h
      · cases h
      · obtain ⟨⟨o', inner'⟩, hinner, heq⟩ := Option.map_eq_some_iff.mp h
        cases heq
        exact hitems.setItem ((ih hinner (.of_table (hitems.of_lookup hlookup))).table o') key

/-- A value is defined under a key that is not there, or not at all. -/
theorem keeps_define (hv : v.Distinct) (afterDots : Bool) (key : String) :
    (define afterDots key v).Keeps := by
  intro origin items o items' h hitems
  unfold define at h
  split at h
  · cases h
  · split at h
    · cases h
    next hlookup =>
      cases h
      rw [Option.not_isSome_iff_eq_none, lookup_eq_none_iff] at hlookup
      exact hitems.concat (.value hv) hlookup

/-- A pair that is written keeps keys apart, wherever its dotted key leads. -/
theorem keeps_assign (hv : v.Distinct) (path : List String) (key : String) :
    (assign path key v).Keeps :=
  keeps_changeAt (keeps_define hv _ key) true path

/-- The header of a table opens a new one, or one that another header has only passed through. -/
theorem keeps_openTable (key : String) : (openTable key).Keeps := by
  intro origin items o items' h hitems
  unfold openTable at h
  dsimp only at h
  split at h
  next hlookup =>
    cases h
    exact hitems.concat (DistinctItems.nil.table _) (lookup_eq_none_iff.mp hlookup)
  next inner hlookup =>
    cases h
    refine (hitems.filter _).concat
      ((DistinctItems.of_table (hitems.of_lookup hlookup)).table _) fun hkey => ?_
    obtain ⟨entry, hentry, rfl⟩ := List.mem_map.mp hkey
    have := (List.mem_filter.mp hentry).2
    simp at this
  · cases h

/-- The header of an element adds it to the list under its key. -/
theorem keeps_openElement (key : String) : (openElement key).Keeps := by
  intro origin items o items' h hitems
  unfold openElement at h
  split at h
  · cases h
    exact hitems.setItem (.tables _) key
  · cases h
    exact hitems.setItem (.tables _) key
  · cases h

/-! ## Finished tables -/

/-- The entries of a table are its items with their values. -/
theorem toEntries_eq_map (items : Items) :
    toEntries items = items.map fun entry => (entry.1, entry.2.toValue) := by
  induction items with
  | nil => rfl
  | cons entry items ih =>
    obtain ⟨key, item⟩ := entry
    rw [toEntries, toEntry, ih, List.map_cons]

/-- The value of an item is as good as the item. -/
theorem Item.Distinct.toValue (h : item.Distinct) : item.toValue.Distinct := by
  induction h with
  | value h => exact h
  | table keys values ih =>
    rw [Item.toValue, toEntries_eq_map]
    refine .table ?_ fun entry hentry => ?_
    · rw [List.map_map]
      exact keys
    · obtain ⟨e, he, rfl⟩ := List.mem_map.mp hentry
      exact ih e he
  | tables elements => exact .other rfl

/-- So is the table of the values of items. -/
theorem DistinctItems.toEntries (h : DistinctItems items) :
    (Value.table (toEntries items)).Distinct :=
  (h.table .defined).toValue

/-! ## Values that are read -/

/-- What is read as a number is no table. -/
theorem isTable_of_integer? {s rest : List Char} (h : integer? s = some (v, rest)) :
    v.isTable = false := by
  have hof : ∀ {n : Int} {rest' : List Char}, integerOf? n rest' = some (v, rest) →
      v.isTable = false := by
    intro n rest' h
    unfold integerOf? at h
    split at h
    · cases h
      rfl
    · cases h
  have hbased : ∀ {base : Nat} {s : List Char}, based? base s = some (v, rest) →
      v.isTable = false := by
    intro base s h
    unfold based? at h
    dsimp only at h
    split at h
    · cases h
    · exact hof h
  unfold integer? at h
  split at h
  · exact hbased h
  · exact hbased h
  · exact hbased h
  · obtain ⟨_, -, h⟩ := Option.bind_eq_some_iff.mp h
    exact hof h

/-- What is read as a number with a point is no table. -/
theorem isTable_of_decimalFloat? {s rest : List Char} (h : decimalFloat? s = some (v, rest)) :
    v.isTable = false := by
  unfold decimalFloat? at h
  obtain ⟨_, -, h⟩ := Option.bind_eq_some_iff.mp h
  obtain ⟨_, -, h⟩ := Option.bind_eq_some_iff.mp h
  obtain ⟨_, -, h⟩ := Option.bind_eq_some_iff.mp h
  simp only [Option.ite_none_left_eq_some, Option.ite_none_right_eq_some] at h
  obtain ⟨-, -, heq⟩ := h
  cases heq
  rfl

/-- What is read as a date is no table. -/
theorem isTable_of_datetime? {s rest : List Char} (h : datetime? s = some (v, rest)) :
    v.isTable = false := by
  unfold datetime? at h
  split at h
  · cases h
    rfl
  · obtain ⟨_, -, heq⟩ := Option.map_eq_some_iff.mp h
    cases heq
    rfl

/-- A value that is written in one word or text is no table. -/
theorem isTable_of_scalar? {s rest : List Char} (h : scalar? s = some (v, rest)) :
    v.isTable = false := by
  unfold scalar? at h
  simp only [Option.or_eq_some_iff] at h
  rcases h with ((((h | ⟨-, h⟩) | ⟨-, h⟩) | ⟨-, h⟩) | ⟨-, h⟩) | ⟨-, h⟩
  · obtain ⟨_, -, heq⟩ := Option.map_eq_some_iff.mp h
    cases heq
    rfl
  · unfold boolean? at h
    split at h <;> cases h <;> rfl
  · exact isTable_of_datetime? h
  · exact isTable_of_decimalFloat? h
  · unfold specialFloat? at h
    split at h <;> cases h <;> rfl
  · exact isTable_of_integer? h

/-- What is read as a value, and the entries of an inline table, by induction on the fuel. -/
theorem distinct_of_fuel (fuel : Nat) :
    (∀ {depth s v rest}, valueFrom fuel depth s = some (v, rest) → v.Distinct) ∧
      ∀ {depth items s items' rest}, pairsFrom fuel depth items s = some (items', rest) →
        DistinctItems items → DistinctItems items' := by
  induction fuel with
  | zero => exact ⟨fun h => by simp [valueFrom] at h, fun h => by simp [pairsFrom] at h⟩
  | succ fuel ih =>
    obtain ⟨hvalue, hpairs⟩ := ih
    constructor
    · intro depth s v rest h
      unfold valueFrom at h
      split at h
      · cases h
      · cases h
      · obtain ⟨_, -, heq⟩ := Option.map_eq_some_iff.mp h
        cases heq
        exact .other rfl
      · split at h
        · cases h
          exact .table List.nodup_nil nofun
        · obtain ⟨_, hitems, heq⟩ := Option.map_eq_some_iff.mp h
          cases heq
          exact (hpairs hitems .nil).toEntries
      · exact .other (isTable_of_scalar? h)
    · intro depth items s items' rest h hitems
      rw [pairsFrom] at h
      obtain ⟨⟨path, key, s₁⟩, -, h⟩ := Option.bind_eq_some_iff.mp h
      obtain ⟨s₂, -, h⟩ := Option.bind_eq_some_iff.mp h
      obtain ⟨⟨v, s₃⟩, hv, h⟩ := Option.bind_eq_some_iff.mp h
      obtain ⟨⟨o, items₁⟩, hassign, h⟩ := Option.bind_eq_some_iff.mp h
      have hitems₁ := keeps_assign (hvalue hv) path key hassign hitems
      dsimp only at h
      split at h
      · cases h
        exact hitems₁
      · exact hpairs h hitems₁
      · cases h

/-! ## Documents -/

/-- A line with a value whose tables have keys of their own. -/
def Line.Distinct : Line → Prop
  | .pair _ _ v => v.Distinct
  | .header .. | .element .. => True

/-- The value in a line has no key twice, as inline tables are checked when they are read. -/
theorem distinct_of_line? {s rest : List Char} {line : Line} (h : line? s = some (line, rest)) :
    line.Distinct := by
  unfold line? at h
  split at h
  · obtain ⟨⟨path, key, s₁⟩, -, h⟩ := Option.bind_eq_some_iff.mp h
    obtain ⟨s₂, -, h⟩ := Option.bind_eq_some_iff.mp h
    obtain ⟨s₃, -, h⟩ := Option.bind_eq_some_iff.mp h
    obtain ⟨s₄, -, h⟩ := Option.bind_eq_some_iff.mp h
    cases h
    trivial
  · obtain ⟨⟨path, key, s₁⟩, -, h⟩ := Option.bind_eq_some_iff.mp h
    obtain ⟨s₂, -, h⟩ := Option.bind_eq_some_iff.mp h
    obtain ⟨s₃, -, h⟩ := Option.bind_eq_some_iff.mp h
    cases h
    trivial
  · obtain ⟨⟨path, key, s₁⟩, -, h⟩ := Option.bind_eq_some_iff.mp h
    obtain ⟨s₂, -, h⟩ := Option.bind_eq_some_iff.mp h
    obtain ⟨⟨v, s₃⟩, hv, h⟩ := Option.bind_eq_some_iff.mp h
    obtain ⟨s₄, -, h⟩ := Option.bind_eq_some_iff.mp h
    cases h
    exact (distinct_of_fuel _).1 hv

/-- The lines of a document are read one by one. -/
theorem distinct_of_linesFrom {fuel : Nat} {s : List Char} {lines : List Line}
    (h : linesFrom fuel s = some lines) : ∀ line ∈ lines, line.Distinct := by
  induction fuel generalizing s lines with
  | zero => simp [linesFrom] at h
  | succ fuel ih =>
    rw [linesFrom] at h
    split at h
    · cases h
      exact nofun
    · split at h
      · exact ih h
      · obtain ⟨⟨line, rest⟩, hline, h⟩ := Option.bind_eq_some_iff.mp h
        obtain ⟨lines', hlines, h⟩ := Option.bind_eq_some_iff.mp h
        cases h
        exact List.forall_mem_cons.mpr ⟨distinct_of_line? hline, ih hlines⟩

/-- A change of a draft that keeps keys apart in a table keeps them apart in the draft. -/
theorem distinct_change {d d' : Draft} {path : List String} (hf : f.Keeps)
    (h : d.change path f = some d') (hd : DistinctItems d.items) : DistinctItems d'.items := by
  obtain ⟨⟨o, items⟩, hitems, rfl⟩ := Option.map_eq_some_iff.mp h
  exact keeps_changeAt hf false path hitems hd

/-- Every kind of line keeps the keys of a draft apart. -/
theorem distinct_add {d d' : Draft} {line : Line} (hline : line.Distinct)
    (h : d.add line = some d') (hd : DistinctItems d.items) : DistinctItems d'.items := by
  cases line with
  | header path key =>
    obtain ⟨d₁, hd₁, heq⟩ := Option.map_eq_some_iff.mp h
    have hitems := distinct_change (keeps_openTable key) hd₁ hd
    exact heq ▸ hitems
  | element path key =>
    obtain ⟨d₁, hd₁, heq⟩ := Option.map_eq_some_iff.mp h
    have hitems := distinct_change (keeps_openElement key) hd₁ hd
    exact heq ▸ hitems
  | pair path key v => exact distinct_change (keeps_assign hline path key) h hd

/-- So do all lines of a document. -/
theorem distinct_foldlM {lines : List Line} {d d' : Draft} (hlines : ∀ line ∈ lines, line.Distinct)
    (h : lines.foldlM Draft.add d = some d') (hd : DistinctItems d.items) :
    DistinctItems d'.items := by
  induction lines generalizing d with
  | nil =>
    cases h
    exact hd
  | cons line lines ih =>
    obtain ⟨hline, hlines⟩ := List.forall_mem_cons.mp hlines
    rw [List.foldlM_cons] at h
    obtain ⟨d₁, hd₁, h⟩ := Option.bind_eq_some_iff.mp h
    exact ih hlines h (distinct_add hline hd₁ hd)

/-- No table of a document gives a key twice. -/
theorem distinct_read? {text : String} {entries : Entries} (h : read? text = some entries) :
    (Value.table entries).Distinct := by
  unfold read? at h
  obtain ⟨lines, hlines, h⟩ := Option.bind_eq_some_iff.mp h
  obtain ⟨draft, hdraft, h⟩ := Option.bind_eq_some_iff.mp h
  cases h
  exact (distinct_foldlM (distinct_of_linesFrom hlines) hdraft .nil).toEntries

/-! ## Tagged tables -/

/-- A date in the form of a table becomes a date. -/
theorem isTable_of_datetimeOf? (h : datetimeOf? v = some w) : w.isTable = false := by
  unfold datetimeOf? at h
  split at h
  · obtain ⟨_, -, rfl⟩ := Option.map_eq_some_iff.mp h
    rfl
  · cases h

/-- Values are read without their tags under the same keys. -/
theorem keys_of_untagEntries? {entries entries' : Entries}
    (h : untagEntries? entries = some entries') :
    entries'.map Prod.fst = entries.map Prod.fst ∧
      ∀ entry' ∈ entries', ∃ entry ∈ entries, untag? entry.2 = some entry'.2 := by
  induction entries generalizing entries' with
  | nil =>
    rw [untagEntries?] at h
    cases h
    exact ⟨rfl, nofun⟩
  | cons entry entries ih =>
    obtain ⟨key, v⟩ := entry
    rw [untagEntries?] at h
    obtain ⟨first, hfirst, h⟩ := Option.bind_eq_some_iff.mp h
    obtain ⟨rest, hrest, h⟩ := Option.bind_eq_some_iff.mp h
    rw [ untagEntry?] at hfirst
    obtain ⟨w, hw, rfl⟩ := Option.map_eq_some_iff.mp hfirst
    cases h
    obtain ⟨hkeys, hvalues⟩ := ih hrest
    refine ⟨by rw [List.map_cons, List.map_cons, hkeys], List.forall_mem_cons.mpr ⟨?_, ?_⟩⟩
    · exact ⟨(key, v), List.mem_cons_self, hw⟩
    · intro entry' hentry'
      obtain ⟨e, he, heq⟩ := hvalues entry' hentry'
      exact ⟨e, List.mem_cons_of_mem _ he, heq⟩

/-- A table is read as a table, or it was the tagged form of a value. -/
theorem untag?_table {entries : Entries} (h : untag? (.table entries) = some v) :
    v.isTable = false ∨
      ∃ entries', untagEntries? entries = some entries' ∧ v = .table entries' := by
  cases entries with
  | nil =>
    rw [untag?] at h
    cases h
    exact .inr ⟨[], by rw [untagEntries?], rfl⟩
  | cons entry entries =>
    rw [untag?] at h
    split at h
    · exact .inl (isTable_of_datetimeOf? h)
    · obtain ⟨first, hfirst, h⟩ := Option.bind_eq_some_iff.mp h
      obtain ⟨rest, hrest, h⟩ := Option.bind_eq_some_iff.mp h
      cases h
      refine .inr ⟨first :: rest, ?_, rfl⟩
      rw [untagEntries?, hfirst, hrest]
      rfl

/-- What is no table becomes none. -/
theorem untag?_of_not_isTable (hv : v.isTable = false) (h : untag? v = some w) :
    w.isTable = false := by
  unfold untag? at h
  split at h
  · cases hv
  · cases hv
  · obtain ⟨_, -, rfl⟩ := Option.map_eq_some_iff.mp h
    rfl
  · cases h
    exact hv

/-- Keys are still apart when tags have been read, by induction over the value. -/
theorem Value.Distinct.untag? (h : v.Distinct) (hw : untag? v = some w) : w.Distinct := by
  induction h generalizing w with
  | other h => exact .other (untag?_of_not_isTable h hw)
  | table keys values ih =>
    rcases untag?_table hw with hw | ⟨entries', hentries', rfl⟩
    · exact .other hw
    · obtain ⟨hkeys, hvalues⟩ := keys_of_untagEntries? hentries'
      refine .table (hkeys ▸ keys) fun entry' hentry' => ?_
      obtain ⟨entry, hentry, heq⟩ := hvalues entry' hentry'
      exact ih entry hentry heq

end SuiteScope.Toml
