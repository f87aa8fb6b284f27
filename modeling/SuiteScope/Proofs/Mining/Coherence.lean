import SuiteScope.Proofs.Files.Spelling
import SuiteScope.Session

/-!
# Coherence of a cache

A cache is asked at several moments, each with files of its own. `Recorded moments c` says that
every entry of `c` was mined from a file as it was at one of the moments, and is kept by every
operation of a cache. `TimesTell moments` says that a path which names something at two moments,
with one time of change, names the same content at both.

Where times tell, a recorded cache is coherent : what it answers at a moment is what reading the
file at that moment gives (`fst_getOrMine`), and so a session over it mines what a session over a
new cache mines (`fst_contributionsOf`).
-/

namespace SuiteScope

/-! ## Contents that time tells apart -/

/-- Whether two nodes are of one kind and read the same. -/
def Node.SameContent : Node → Node → Prop
  | .file content _, .file content' _ => content = content'
  | .directory .., .directory .. => True
  | .device _, .device _ => True
  | _, _ => False

theorem Node.SameContent.refl (n : Node) : n.SameContent n := by
  cases n <;> simp [SameContent]

/-- The same content is read as the same text. -/
theorem FileSystem.readText_congr {fs fs' : FileSystem} {p q : Path} {n m : Node}
    (hp : fs.node p = .ok n) (hq : fs'.node q = .ok m) (h : n.SameContent m) :
    fs.readText p = fs'.readText q := by
  unfold readText
  rw [hp, hq]
  cases n <;> cases m <;> simp_all [Node.SameContent]

/-- A path that names something at two moments, with one time of change, names the same content at
both. -/
def TimesTell (moments : List FileSystem) : Prop :=
  ∀ fs ∈ moments, ∀ fs' ∈ moments, ∀ p n m time,
    fs.node p = .ok n → fs'.node p = .ok m → n.modified? = some time → m.modified? = some time →
    n.SameContent m

/-- The times of one moment tell everything. -/
theorem timesTell_singleton (fs : FileSystem) : TimesTell [fs] := by
  intro fs₁ h₁ fs₂ h₂ p n m time hn hm _ _
  rw [List.mem_singleton.mp h₁] at hn
  rw [List.mem_singleton.mp h₂, hn] at hm
  cases hm
  exact .refl n

/-- Times tell the contents of two spellings apart as well. -/
theorem TimesTell.readText_eq {moments : List FileSystem} (h : TimesTell moments)
    {fs fs' : FileSystem} (hfs : fs ∈ moments) (hfs' : fs' ∈ moments) {p q : Path}
    (hpq : p.same q = true) {n m : Node} {time : Nat} (hn : fs.node p = .ok n)
    (hm : fs'.node q = .ok m) (htn : n.modified? = some time) (htm : m.modified? = some time) :
    fs.readText p = fs'.readText q := by
  refine FileSystem.readText_congr hn hm (h fs hfs fs' hfs' q.shortest n m time ?_ ?_ htn htm)
  · rw [← Path.shortest_eq_of_same hpq]
    exact FileSystem.node_shortest hn
  · exact FileSystem.node_shortest hm

/-! ## Entries -/

namespace Cache

/-- Every entry was mined from a file as it was at one of the moments. -/
def Recorded (moments : List FileSystem) (c : Cache) : Prop :=
  ∀ e ∈ c.entries, ∃ fs ∈ moments, ∃ n text, fs.node e.path = .ok n ∧ n.modified? = e.modified ∧
    fs.readText e.path = .ok text ∧ e.mined = Source.mine text

variable {moments : List FileSystem} {fs : FileSystem} {c : Cache} {p : Path}

/-- An empty cache has nothing to be wrong about. -/
theorem recorded_empty (moments : List FileSystem) : Recorded moments {} := by
  intro e he
  cases he

/-- Forgetting an entry keeps the others right. -/
theorem Recorded.invalidate (h : Recorded moments c) (p : Path) :
    Recorded moments (c.invalidate p) :=
  fun e he => h e (List.mem_filter.mp he).1

/-- A look-up keeps all entries right, at any moment of the run. -/
theorem Recorded.getOrMine (h : Recorded moments c) (hfs : fs ∈ moments) (p : Path) :
    Recorded moments (c.getOrMine fs p).2 := by
  unfold Cache.getOrMine
  split
  · exact h
  next n hn =>
    split
    · exact h
    · split
      · exact h
      next text htext =>
        intro e he
        rcases List.mem_cons.mp he with rfl | he
        · exact ⟨fs, hfs, n, text, hn, rfl, htext, rfl⟩
        · exact h.invalidate p e he

/-- What a recorded cache takes for fresh is what the file holds. -/
theorem Recorded.readText_of_fresh? (ht : TimesTell moments) (h : Recorded moments c)
    (hfs : fs ∈ moments) {n : Node} (hn : fs.node p = .ok n) {mined : Source.Mined}
    (hm : c.fresh? p n.modified? = some mined) :
    ∃ text, fs.readText p = .ok text ∧ mined = Source.mine text := by
  obtain ⟨e, he, rfl⟩ := Option.map_eq_some_iff.mp hm
  obtain ⟨hget, hfresh⟩ := Option.filter_eq_some_iff.mp he
  rw [Bool.and_eq_true, beq_iff_eq] at hfresh
  obtain ⟨time, htime⟩ := Option.isSome_iff_exists.mp hfresh.1
  have hsame := List.find?_some hget
  obtain ⟨fs', hfs', n', text, hn', hmod, htext, hmine⟩ := h e (List.mem_of_find?_eq_some hget)
  refine ⟨text, ?_, hmine⟩
  rw [← ht.readText_eq hfs' hfs hsame hn' hn (hmod.trans htime) (hfresh.2 ▸ htime)]
  exact htext

/-- A recorded cache answers what reading the file gives. -/
theorem Recorded.fst_getOrMine (ht : TimesTell moments) (h : Recorded moments c)
    (hfs : fs ∈ moments) (p : Path) :
    (c.getOrMine fs p).1 = (fs.readText p).map Source.mine := by
  unfold Cache.getOrMine
  split
  next e he => simp [FileSystem.readText, he, Except.map]
  next n hn =>
    split
    next mined hm =>
      obtain ⟨text, htext, rfl⟩ := h.readText_of_fresh? ht hfs hn hm
      rw [htext]
      rfl
    next =>
      cases htext : fs.readText p <;> rfl

end Cache

/-! ## Sessions -/

namespace Session

/-- What a file contributes, if it can be read. -/
def contributed (fs : FileSystem) (r : Resolver) (file : Path) : List Contribution :=
  match fs.readText file with
  | .ok text => contributions fs r file (Source.mine text)
  | .error _ => []

variable {moments : List FileSystem} {fs : FileSystem} {c : Cache}

/-- The files of a session are looked up one after another, each with the cache that the one before
has left. -/
theorem contributionsOf_cons (fs : FileSystem) (r : Resolver) (c : Cache) (file : Path)
    (files : List Path) :
    contributionsOf fs r c (file :: files) =
      ((match (c.getOrMine fs file).1 with
        | .ok mined => contributions fs r file mined
        | .error _ => []) ++ (contributionsOf fs r (c.getOrMine fs file).2 files).1,
      (contributionsOf fs r (c.getOrMine fs file).2 files).2) := by
  rw [contributionsOf]
  obtain ⟨mined, cache⟩ := c.getOrMine fs file
  cases mined <;> rfl

/-- A session over some files keeps all entries right. -/
theorem recorded_contributionsOf (h : c.Recorded moments) (hfs : fs ∈ moments) (r : Resolver)
    (files : List Path) : (contributionsOf fs r c files).2.Recorded moments := by
  induction files generalizing c with
  | nil => exact h
  | cons file files ih =>
    rw [contributionsOf_cons]
    exact ih (h.getOrMine hfs file)

/-- Over a recorded cache, every file contributes what is in it. -/
theorem fst_contributionsOf (ht : TimesTell moments) (h : c.Recorded moments) (hfs : fs ∈ moments)
    (r : Resolver) (files : List Path) :
    (contributionsOf fs r c files).1 = files.flatMap (contributed fs r) := by
  induction files generalizing c with
  | nil => rfl
  | cons file files ih =>
    rw [contributionsOf_cons, ih (h.getOrMine hfs file), h.fst_getOrMine ht hfs,
      List.flatMap_cons, contributed]
    cases fs.readText file <;> rfl

/-- A session over a recorded cache mines what the files hold. -/
theorem fst_mine (ht : TimesTell moments) (h : c.Recorded moments) (hfs : fs ∈ moments)
    (r : Resolver) (files : List Path) :
    (mine fs r c files).1 = .ofContributions (files.flatMap (contributed fs r)) := by
  unfold mine
  rw [← fst_contributionsOf ht h hfs r files]

theorem recorded_mine (h : c.Recorded moments) (hfs : fs ∈ moments) (r : Resolver)
    (files : List Path) : (mine fs r c files).2.Recorded moments :=
  recorded_contributionsOf h hfs r files

end Session

end SuiteScope
