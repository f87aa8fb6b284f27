import SuiteScope.Proofs.Mining.Coherence

/-!
# Runs with one cache

A run is a list of events that share one cache : files are edited, looked up and mined, entries are
dropped and the settings change. `moments` lists what the run goes through. The cache starts new,
and every event keeps it recorded (`Moment.recorded_after`), so it is recorded at every moment.

`transparent_of_timesTell` : in a run in which times tell, nobody sees the cache. At every moment a
look-up answers what is in the file, or why the file cannot be read, and a session mines what it
would mine with a new cache.
-/

namespace SuiteScope

/-- The files, the resolver and the cache at one moment of a run. -/
structure Moment where
  files : FileSystem
  resolver : Resolver
  cache : Cache

/-- What may happen in a run. -/
inductive Event
  /-- The files change in any way, with their times or without. -/
  | edit (change : Node → Node)
  | lookUp (p : Path)
  | invalidate (p : Path)
  | configure (r : Resolver)
  | mine (files : List Path)

/-- A node is written at a place. -/
def Event.write (place : List FileName) (node : Node) : Event :=
  .edit (·.put place node)

/-- The node at a place is removed. -/
def Event.remove (place : List FileName) : Event :=
  .edit (·.erase place)

namespace Moment

/-- The moment with which a run starts. -/
def start (files : FileSystem) (r : Resolver) : Moment :=
  ⟨files, r, {}⟩

/-- The moment after an event. -/
def after (m : Moment) : Event → Moment
  | .edit change => { m with files := { m.files with top := change m.files.top } }
  | .lookUp p => { m with cache := (m.cache.getOrMine m.files p).2 }
  | .invalidate p => { m with cache := m.cache.invalidate p }
  | .configure r => { m with resolver := r }
  | .mine files => { m with cache := (Session.mine m.files m.resolver m.cache files).2 }

/-- The moments of a run, the first one included. -/
def moments : (m : Moment) → (events : List Event) → List Moment
  | m, [] => [m]
  | m, e :: events => m :: moments (m.after e) events

/-- At this moment a look-up answers what is in the file, as with a new cache, and a session mines
what it mines with a new cache. -/
def Transparent (m : Moment) : Prop :=
  (∀ p, (m.cache.getOrMine m.files p).1 = (Cache.getOrMine m.files {} p).1 ∧
    (m.cache.getOrMine m.files p).1 = (m.files.readText p).map Source.mine) ∧
  ∀ files, (Session.mine m.files m.resolver m.cache files).1 =
    (Session.mine m.files m.resolver {} files).1

variable {all : List FileSystem}

/-- An event at one of the moments keeps the cache recorded. -/
theorem recorded_after {m : Moment} (h : m.cache.Recorded all) (hm : m.files ∈ all) (e : Event) :
    (m.after e).cache.Recorded all := by
  cases e with
  | edit change => exact h
  | lookUp p => exact h.getOrMine hm p
  | invalidate p => exact h.invalidate p
  | configure r => exact h
  | mine files => exact Session.recorded_mine h hm m.resolver files

/-- A run that starts with a recorded cache has one at every moment. -/
theorem recorded_of_mem_moments {m : Moment} {events : List Event} (h : m.cache.Recorded all)
    (hall : ∀ m' ∈ moments m events, m'.files ∈ all) :
    ∀ m' ∈ moments m events, m'.cache.Recorded all := by
  induction events generalizing m with
  | nil =>
    intro m' hm'
    rw [List.mem_singleton.mp hm']
    exact h
  | cons e events ih =>
    have hm := hall m (List.mem_cons_self ..)
    intro m' hm'
    rcases List.mem_cons.mp hm' with rfl | hm'
    · exact h
    · exact ih (recorded_after h hm e) (fun n hn => hall n (List.mem_cons_of_mem _ hn)) m' hm'

/-- Where times tell, a recorded cache cannot be told from a new one. -/
theorem transparent_of_recorded {m : Moment} (ht : TimesTell all) (h : m.cache.Recorded all)
    (hm : m.files ∈ all) : m.Transparent := by
  have hnew := Cache.recorded_empty all
  refine ⟨fun p => ⟨?_, h.fst_getOrMine ht hm p⟩, fun files => ?_⟩
  · rw [h.fst_getOrMine ht hm, hnew.fst_getOrMine ht hm]
  · rw [Session.fst_mine ht h hm, Session.fst_mine ht hnew hm]

/-- In a run in which times tell contents apart, the cache is transparent at every moment. -/
theorem transparent_of_timesTell (files : FileSystem) (r : Resolver) (events : List Event)
    (h : TimesTell ((moments (start files r) events).map (·.files))) :
    ∀ m ∈ moments (start files r) events, m.Transparent := by
  intro m hm
  have hall : ∀ m ∈ moments (start files r) events,
      m.files ∈ (moments (start files r) events).map (·.files) :=
    fun m hm => List.mem_map_of_mem hm
  have hrec := recorded_of_mem_moments (Cache.recorded_empty _) hall m hm
  exact transparent_of_recorded h hrec (hall m hm)

/-! ## A run that edits -/

/-- The top of a tree that holds one file, or nothing. -/
def single (name : FileName) (file? : Option (List UInt8 × Nat)) : Node :=
  .directory none (file?.toList.map fun (content, time) => (name, .file content time))

/-- The only node with a time is the file. -/
theorem eq_file_of_node_single {name : FileName} {file? : Option (List UInt8 × Nat)}
    {here : List FileName} {p : Path} {n : Node} {time : Nat}
    (hn : FileSystem.node ⟨single name file?, here⟩ p = .ok n) (ht : n.modified? = some time) :
    ∃ content, file? = some (content, time) ∧ n = .file content time := by
  have hat : ∃ place, (single name file?).at? place = some n := by
    unfold FileSystem.node at hn
    split at hn
    · cases hn
    next place _ =>
      split at hn
      next heq => cases hn; exact ⟨place, heq⟩
      · cases hn
  obtain ⟨place, hplace⟩ := hat
  cases place with
  | nil =>
    cases hplace
    cases ht
  | cons segment place =>
    rw [Node.at?, Option.bind_eq_some_iff] at hplace
    obtain ⟨child, hchild, hplace⟩ := hplace
    cases file? with
    | none => cases hchild
    | some file =>
      obtain ⟨content, modified⟩ := file
      rw [Node.child?, single, Node.entries, Option.toList_some, List.map_singleton,
        List.lookup_cons] at hchild
      split at hchild
      · cases hchild
        cases place with
        | nil =>
          cases hplace
          cases ht
          exact ⟨content, rfl, rfl⟩
        | cons _ _ => cases hplace
      · cases hchild

/-- A run that looks a file up, changes it, mines it, removes it and puts the old file back. -/
theorem transparent_of_restored_file :
    let old := Text.encode "describe('s', () => \x7b it('x') \x7d)"
    let new := Text.encode "describe('s', () => \x7b it('y') \x7d)"
    let a := Path.ofString "/a"
    let files : FileSystem := ⟨single "a" (some (old, 1)), []⟩
    let events := [.lookUp a, .write ["a"] (.file new 2), .lookUp a, .mine [a], .remove ["a"],
      .lookUp a, .write ["a"] (.file old 1), .mine [a]]
    let run := moments (start files ⟨a, {}⟩) events
    TimesTell (run.map (·.files)) ∧ ∀ m ∈ run, m.Transparent := by
  intro old new a files events run
  let holding := fun file? => (⟨single "a" file?, []⟩ : FileSystem)
  let kept := holding (some (old, 1))
  let changed := holding (some (new, 2))
  let gone := holding none
  have hfiles : run.map (·.files) =
      [kept, kept, changed, changed, changed, gone, gone, kept, kept] := rfl
  have hkept : ∀ p n time, kept.node p = .ok n → n.modified? = some time →
      n = .file (if time = 1 then old else new) time := by
    intro p n time hn ht
    obtain ⟨content, ⟨⟩, rfl⟩ := eq_file_of_node_single hn ht
    rfl
  have hchanged : ∀ p n time, changed.node p = .ok n → n.modified? = some time →
      n = .file (if time = 1 then old else new) time := by
    intro p n time hn ht
    obtain ⟨content, ⟨⟩, rfl⟩ := eq_file_of_node_single hn ht
    rfl
  have hgone : ∀ p n time, gone.node p = .ok n → n.modified? = some time →
      n = .file (if time = 1 then old else new) time := by
    intro p n time hn ht
    obtain ⟨content, ⟨⟩, -⟩ := eq_file_of_node_single hn ht
  have htimes : TimesTell (run.map (·.files)) := by
    have hfile : ∀ fs ∈ run.map (·.files), ∀ p n time, fs.node p = .ok n →
        n.modified? = some time → n = .file (if time = 1 then old else new) time := by
      rw [hfiles]
      simp only [List.forall_mem_cons, List.not_mem_nil, false_imp_iff, implies_true, and_true]
      exact ⟨hkept, hkept, hchanged, hchanged, hchanged, hgone, hgone, hkept, hkept⟩
    intro fs hfs fs' hfs' p n m time hn hm htn htm
    rw [hfile fs hfs p n time hn htn, hfile fs' hfs' p m time hm htm]
    exact .refl _
  exact ⟨htimes, transparent_of_timesTell files ⟨a, {}⟩ events htimes⟩

end Moment

end SuiteScope
