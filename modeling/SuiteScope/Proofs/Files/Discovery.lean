import SuiteScope.Discovery
import SuiteScope.Proofs.Files.Alike
import SuiteScope.Proofs.Files.Order

/-!
# What is discovered

`IsTestFile` says what a test file of a project is : a file that a configured directory names
itself, or a file at a place below it, on a way of scanned directories. `discover` lists these files
in the order of their paths, each once, in whatever order the system lists the entries of
directories (`discover_spec`).

An entry that is not entered is listed without a look at what it is (`Lists`). So a device whose
name marks a test file is listed as well (`discover_device`), and so is a directory with a path too
long for the system. Nothing below such a directory is listed. In trees of files and directories
without such paths (`Plain`), the list is that of the test files.
-/

namespace SuiteScope

namespace FileSystem

/-- What a path names in a proper tree is a proper tree. -/
theorem proper_of_node {fs : FileSystem} (h : fs.top.Proper) {p : Path} {n : Node}
    (hn : fs.node p = .ok n) : n.Proper := by
  obtain ⟨reached, -, hat⟩ := node_eq_ok_iff.mp hn
  exact h.at_place hat

/-- A path that names something is short. -/
theorem isShort_of_node {fs : FileSystem} {p : Path} {n : Node} (hn : fs.node p = .ok n) :
    p.isShort = true := by
  obtain ⟨reached, hplace, -⟩ := node_eq_ok_iff.mp hn
  exact decide_eq_true (place_eq_ok_iff.mp hplace).2.2.1

end FileSystem

namespace Discovery

variable {fs fs' : FileSystem} {settings : MiningSettings} {start p q : Path} {n m : Node}
  {above : List FileName} {name : FileName}

/-! ## One directory -/

/-- Below the directory `n` at `p`, the node `m` at the place `above ++ [name]` is listed. -/
structure Lists (settings : MiningSettings) (p : Path) (n : Node) (above : List FileName)
    (name : FileName) (m : Node) : Prop where
  at_place : n.at? (above ++ [name]) = some m
  scanned : ∀ s ∈ above, isScanned settings s = true
  short : (p.descend above).isShort = true
  not_entered : isEntered (p.descend (above ++ [name])) m = false
  test : isTestName settings name = true

/-- A directory is entered if its path is not too long. -/
theorem isEntered_eq_true_iff : isEntered p m = true ↔ m.isDirectory = true ∧ p.isShort = true := by
  rw [isEntered, Bool.and_eq_true, Path.isShort]

/-- The entries of a directory are gone through one by one. -/
theorem collectEntries_eq_flatMap (entries : List (FileName × Node)) :
    collectEntries settings p entries = entries.flatMap (collectEntry settings p) := by
  induction entries with
  | nil => rw [collectEntries]; rfl
  | cons entry entries ih => rw [collectEntries, ih, List.flatMap_cons]

/-- Whether a file is a test is seen by its name. -/
theorem isTestPath_join (h : Path.IsName name) :
    isTestPath settings (p.join ⟨[name]⟩) = isTestName settings name := by
  rw [isTestPath, Path.fileName?_join h]
  rfl

/-- The first name of the place decides whether an entry is listed itself, or entered. -/
theorem lists_cons {s : FileName} :
    Lists settings p n (name :: above) s m ↔
      ∃ c, n.child? name = some c ∧ isScanned settings name = true ∧
        Lists settings (p.join ⟨[name]⟩) c above s m := by
  constructor
  · rintro ⟨hat, hscanned, hshort, hentered, htest⟩
    obtain ⟨c, hc, hcm⟩ := Option.bind_eq_some_iff.mp hat
    obtain ⟨hs, habove⟩ := List.forall_mem_cons.mp hscanned
    exact ⟨c, hc, hs, hcm, habove, hshort, hentered, htest⟩
  · rintro ⟨c, hc, hs, hat, hscanned, hshort, hentered, htest⟩
    refine ⟨?_, List.forall_mem_cons.mpr ⟨hs, hscanned⟩, hshort, hentered, htest⟩
    rw [List.cons_append, Node.at?_cons, hc]
    exact hat

/-- An entry that is entered gives what is collected below it, any other one at most itself. -/
theorem mem_collectEntry (hname : Path.IsName name) {c : Node} :
    q ∈ collectEntry settings p (name, c) ↔
      (isEntered (p.join ⟨[name]⟩) c = true ∧ isScanned settings name = true ∧
        q ∈ collectNode settings (p.join ⟨[name]⟩) c) ∨
      (isEntered (p.join ⟨[name]⟩) c = false ∧ isTestName settings name = true ∧
        q = p.join ⟨[name]⟩) := by
  rw [collectEntry, isTestPath_join hname]
  cases isEntered (p.join ⟨[name]⟩) c <;> simp

/-- What is collected below a directory. -/
theorem mem_collectNode (hproper : n.Proper) (hdir : n.isDirectory = true)
    (hshort : p.isShort = true) :
    q ∈ collectNode settings p n ↔
      ∃ above name m, Lists settings p n above name m ∧ q = p.descend (above ++ [name]) := by
  induction n using Node.induction generalizing p with
  | step n ih =>
    cases n with
    | file => cases hdir
    | device => cases hdir
    | directory modified entries =>
      rw [collectNode, collectEntries_eq_flatMap, List.mem_flatMap]
      constructor
      · rintro ⟨⟨s, c⟩, hmem, hq⟩
        have hc := hproper.child?_eq_some_iff.mpr hmem
        have hat := Node.at?_singleton.trans hc
        rcases (mem_collectEntry (hproper.isName_of_mem hmem)).mp hq with
          ⟨hentered, hscanned, hq⟩ | ⟨hentered, htest, rfl⟩
        · obtain ⟨hcdir, hcshort⟩ := isEntered_eq_true_iff.mp hentered
          obtain ⟨above, name, m, hlists, rfl⟩ :=
            (ih _ hmem (hproper.at_place hat) hcdir hcshort).mp hq
          exact ⟨s :: above, name, m, lists_cons.mpr ⟨c, hc, hscanned, hlists⟩, rfl⟩
        · exact ⟨[], s, c, ⟨hat, nofun, hshort, hentered, htest⟩, rfl⟩
      · rintro ⟨above, name, m, hlists, rfl⟩
        cases above with
        | nil =>
          have hmem := hproper.child?_eq_some_iff.mp (Node.at?_singleton.symm.trans hlists.at_place)
          exact ⟨(name, m), hmem, (mem_collectEntry (hproper.isName_of_mem hmem)).mpr
            (.inr ⟨hlists.not_entered, hlists.test, rfl⟩)⟩
        | cons s above =>
          obtain ⟨c, hc, hscanned, hlists⟩ := lists_cons.mp hlists
          have hmem := hproper.child?_eq_some_iff.mp hc
          have hcproper := hproper.at_place (Node.at?_singleton.trans hc)
          have hcdir := Node.isDirectory_of_at? hlists.at_place (by simp)
          have hcshort : (p.join ⟨[s]⟩).isShort = true :=
            Path.isShort_of_descend hlists.short
          refine ⟨(s, c), hmem, (mem_collectEntry (hproper.isName_of_mem hmem)).mpr
            (.inl ⟨isEntered_eq_true_iff.mpr ⟨hcdir, hcshort⟩, hscanned, ?_⟩)⟩
          exact (ih _ hmem hcproper hcdir hcshort).mpr ⟨above, name, m, hlists, rfl⟩

/-! ## One path to start from -/

/-- The path `q` is listed for the directory that is configured as `start`. -/
inductive Found (fs : FileSystem) (settings : MiningSettings) (start : Path) : Path → Prop
  | itself {n : Node} (node : fs.node start = .ok n) (isFile : n.isFile = true)
    (test : isTestPath settings start = true) : Found fs settings start start
  | below {n m : Node} {above : List FileName} {name : FileName} (node : fs.node start = .ok n)
    (lists : Lists settings start n above name m) :
    Found fs settings start (start.descend (above ++ [name]))

/-- The path `q` is a test file of the directory that is configured as `start` : `start` itself, if
it is a file, or a file below it, with no directory on the way that is not scanned. -/
inductive IsTestFile (fs : FileSystem) (settings : MiningSettings) (start : Path) : Path → Prop
  | itself {n : Node} (node : fs.node start = .ok n) (isFile : n.isFile = true)
    (test : isTestPath settings start = true) : IsTestFile fs settings start start
  | below {n m : Node} {above : List FileName} {name : FileName} (node : fs.node start = .ok n)
    (at_place : n.at? (above ++ [name]) = some m) (isFile : m.isFile = true)
    (scanned : ∀ s ∈ above, isScanned settings s = true)
    (test : isTestName settings name = true) :
    IsTestFile fs settings start (start.descend (above ++ [name]))

/-- Below `start`, there is no device whose name marks a test file, and no directory with a path too
long for the system. -/
structure Plain (fs : FileSystem) (settings : MiningSettings) (start : Path) : Prop where
  isFile_or_isDirectory : ∀ {n m : Node} {above : List FileName} {name : FileName},
    fs.node start = .ok n → n.at? (above ++ [name]) = some m → isTestName settings name = true →
    m.isFile = true ∨ m.isDirectory = true
  isShort : ∀ {n m : Node} {place : List FileName}, fs.node start = .ok n → n.at? place = some m →
    m.isDirectory = true → (start.descend place).isShort = true

theorem not_isDirectory_of_isFile (h : n.isFile = true) : n.isDirectory = false := by
  cases n with
  | file => rfl
  | directory => cases h
  | device => cases h

/-- From a path that names no directory, only that path may be found. -/
theorem mem_collectNode_of_not_isDirectory (h : n.isDirectory = false) :
    q ∈ collectNode settings p n ↔ n.isFile = true ∧ isTestPath settings p = true ∧ q = p := by
  cases n with
  | file => simp [collectNode, Node.isFile]
  | directory => cases h
  | device => simp [collectNode, Node.isFile]

/-- A path is found at the start itself, or as the name of something listed below. -/
theorem found_iff (hnode : fs.node start = .ok n) :
    Found fs settings start q ↔
      (n.isFile = true ∧ isTestPath settings start = true ∧ q = start) ∨
        ∃ above name m, Lists settings start n above name m ∧
          q = start.descend (above ++ [name]) := by
  constructor
  · intro hfound
    cases hfound with
    | itself node isFile test =>
      obtain rfl := Except.ok.inj (hnode.symm.trans node)
      exact .inl ⟨isFile, test, rfl⟩
    | below node lists =>
      obtain rfl := Except.ok.inj (hnode.symm.trans node)
      exact .inr ⟨_, _, _, lists, rfl⟩
  · rintro (⟨isFile, test, rfl⟩ | ⟨above, name, m, lists, rfl⟩)
    · exact .itself hnode isFile test
    · exact .below hnode lists

theorem Found.exists_node (h : Found fs settings start q) : ∃ n, fs.node start = .ok n := by
  cases h with
  | itself node => exact ⟨_, node⟩
  | below node => exact ⟨_, node⟩

/-- What is collected is what is found. -/
theorem mem_collect (h : fs.top.Proper) :
    q ∈ collect fs settings start ↔ Found fs settings start q := by
  unfold collect
  cases hnode : fs.node start with
  | error e =>
    refine ⟨nofun, fun hfound => ?_⟩
    obtain ⟨n, hn⟩ := hfound.exists_node
    rw [hnode] at hn
    cases hn
  | ok n =>
    rw [found_iff hnode]
    dsimp only
    cases hdir : n.isDirectory with
    | true =>
      rw [mem_collectNode (FileSystem.proper_of_node h hnode) hdir
        (FileSystem.isShort_of_node hnode), or_iff_right]
      rintro ⟨hfile, -⟩
      rw [not_isDirectory_of_isFile hfile] at hdir
      cases hdir
    | false =>
      rw [mem_collectNode_of_not_isDirectory hdir, or_iff_left]
      rintro ⟨above, name, m, hlists, -⟩
      rw [Node.isDirectory_of_at? hlists.at_place (by simp)] at hdir
      cases hdir

/-- Of what is found from one path, no two paths are the same. -/
theorem Found.eq_of_same (h : fs.top.Proper) (hp : Found fs settings start p)
    (hq : Found fs settings start q) (hpq : p.components = q.components) : p = q := by
  obtain ⟨n, hnode⟩ := hp.exists_node
  have hproper := FileSystem.proper_of_node h hnode
  have hne : ∀ {above : List FileName} {name : FileName} {m : Node},
      Lists settings start n above name m → ¬n.isFile = true := by
    intro above name m hlists hfile
    have := Node.isDirectory_of_at? hlists.at_place (by simp)
    rw [not_isDirectory_of_isFile hfile] at this
    cases this
  rcases (found_iff hnode).mp hp with ⟨hfile, -, rfl⟩ | ⟨above, name, m, hlists, rfl⟩
  · rcases (found_iff hnode).mp hq with ⟨-, -, rfl⟩ | ⟨above, name, m, hlists, -⟩
    · rfl
    · exact absurd hfile (hne hlists)
  · rcases (found_iff hnode).mp hq with ⟨hfile, -⟩ | ⟨above', name', m', hlists', rfl⟩
    · exact absurd hfile (hne hlists)
    · rw [Path.eq_of_same_descend (hproper.isName_of_at? hlists.at_place)
        (hproper.isName_of_at? hlists'.at_place) hpq]

/-- Where there is nothing but files and directories, the test files are found. -/
theorem found_iff_isTestFile (hplain : Plain fs settings start) :
    Found fs settings start q ↔ IsTestFile fs settings start q := by
  constructor
  · intro hfound
    cases hfound with
    | itself node isFile test => exact .itself node isFile test
    | below node lists =>
      refine .below node lists.at_place ?_ lists.scanned lists.test
      refine (hplain.isFile_or_isDirectory node lists.at_place lists.test).resolve_right ?_
      intro hdir
      have hentered := isEntered_eq_true_iff.mpr ⟨hdir, hplain.isShort node lists.at_place hdir⟩
      rw [lists.not_entered] at hentered
      cases hentered
  · intro htest
    cases htest with
    | itself node isFile test => exact .itself node isFile test
    | below node at_place isFile scanned test =>
      refine .below node ⟨at_place, scanned, ?_, ?_, test⟩
      · rw [Node.at?_append] at at_place
        obtain ⟨dir, hdir, hm⟩ := Option.bind_eq_some_iff.mp at_place
        exact hplain.isShort node hdir (Node.isDirectory_of_at? hm (by simp))
      · rw [isEntered, not_isDirectory_of_isFile isFile, Bool.false_and]

/-! ## The order in which entries are listed -/

/-- Trees that are alike list the same paths. -/
theorem lists_of_alike (h : n.Alike m) {k : Node} (hk : Lists settings p n above name k) :
    ∃ k', Lists settings p m above name k' := by
  obtain ⟨hat, hscanned, hshort, hentered, htest⟩ := hk
  obtain ⟨k', hk', halike⟩ := h.exists_at? hat
  refine ⟨k', hk', hscanned, hshort, ?_, htest⟩
  rw [isEntered, ← halike.isDirectory_eq]
  exact hentered

/-- The same paths are found in file systems that are alike. -/
theorem Found.of_alike (h : fs.Alike fs') (hq : Found fs settings start q) :
    Found fs' settings start q := by
  cases hq with
  | itself node isFile test =>
    obtain ⟨n', hn', halike⟩ := h.exists_node node
    exact .itself hn' (halike.isFile_eq ▸ isFile) test
  | below node lists =>
    obtain ⟨n', hn', halike⟩ := h.exists_node node
    obtain ⟨m', hm'⟩ := lists_of_alike halike lists
    exact .below hn' hm'

/-- Where no two members of a list pass a test, the one found does not depend on their order. -/
theorem find?_eq_of_mem_iff {l l' : List Path} {test : Path → Bool} (hmem : ∀ p, p ∈ l ↔ p ∈ l')
    (hunique : ∀ p ∈ l, ∀ q ∈ l, test p = true → test q = true → p = q) :
    l.find? test = l'.find? test := by
  cases hl : l.find? test with
  | none =>
    rw [eq_comm, List.find?_eq_none]
    exact fun p hp => List.find?_eq_none.mp hl p ((hmem p).mpr hp)
  | some p =>
    have hp := List.mem_of_find?_eq_some hl
    cases hl' : l'.find? test with
    | none => exact absurd (List.find?_some hl) (List.find?_eq_none.mp hl' p ((hmem p).mp hp))
    | some q =>
      have hq := (hmem q).mpr (List.mem_of_find?_eq_some hl')
      rw [hunique p hp q hq (List.find?_some hl) (List.find?_some hl')]

/-- Of every path the same spelling is found first, whatever the order of the entries is. -/
theorem find?_collect_of_alike (h : fs.top.Proper) (h' : fs'.top.Proper) (halike : fs.Alike fs')
    (q : Path) :
    (collect fs settings start).find? (q.same ·) =
      (collect fs' settings start).find? (q.same ·) := by
  refine find?_eq_of_mem_iff (fun p => ?_) fun p hp r hr hqp hqr => ?_
  · rw [mem_collect h, mem_collect h']
    exact ⟨.of_alike halike, .of_alike halike.symm⟩
  · refine ((mem_collect h).mp hp).eq_of_same h ((mem_collect h).mp hr) ?_
    exact (beq_iff_eq.mp hqp).symm.trans (beq_iff_eq.mp hqr)

/-! ## All configured directories -/

/-- The list of test files : it increases, holds what is found for some configured directory, in
plain trees exactly the test files, and does not depend on the order in which the system lists the
entries of directories. -/
theorem discover_spec (fs : FileSystem) (h : fs.top.Proper) (root : Path)
    (settings : MiningSettings) :
    (discover fs root settings).Pairwise (fun p q => p.before q = true) ∧
    (∀ q : Path, (∃ p ∈ discover fs root settings, q.same p = true) ↔
      ∃ dir ∈ settings.testDirs, ∃ p,
        Found fs settings (root.join (.ofString dir)) p ∧ q.same p = true) ∧
    ((∀ dir ∈ settings.testDirs, Plain fs settings (root.join (.ofString dir))) →
      ∀ q : Path, (∃ p ∈ discover fs root settings, q.same p = true) ↔
        ∃ dir ∈ settings.testDirs, ∃ p,
          IsTestFile fs settings (root.join (.ofString dir)) p ∧ q.same p = true) ∧
    ∀ fs' : FileSystem, fs'.top.Proper → fs.Alike fs' →
      discover fs' root settings = discover fs root settings := by
  have hfound : ∀ q : Path, (∃ p ∈ discover fs root settings, q.same p = true) ↔
      ∃ dir ∈ settings.testDirs, ∃ p,
        Found fs settings (root.join (.ofString dir)) p ∧ q.same p = true := by
    intro q
    simp only [discover, collectAll, Path.exists_mem_sortUnique, List.mem_flatMap, List.mem_map,
      exists_exists_and_eq_and, mem_collect h]
    exact ⟨fun ⟨p, ⟨dir, hdir, hp⟩, hq⟩ => ⟨dir, hdir, p, hp, hq⟩,
      fun ⟨dir, hdir, p, hp, hq⟩ => ⟨p, ⟨dir, hdir, hp⟩, hq⟩⟩
  refine ⟨Path.pairwise_sortUnique _, hfound, fun hplain q => ?_, fun fs' h' halike => ?_⟩
  · rw [hfound]
    refine exists_congr fun dir => and_congr_right fun hdir => exists_congr fun p => ?_
    rw [found_iff_isTestFile (hplain dir hdir)]
  · refine Path.sortUnique_congr fun q => ?_
    rw [List.find?_flatMap, List.find?_flatMap]
    congr 1
    funext start
    exact (find?_collect_of_alike h h' halike q).symm

/-- The file system with the directory `/t` of these entries. -/
def sample (entries : List (FileName × Node)) : FileSystem :=
  ⟨.directory none [("t", .directory none entries)], []⟩

/-- A test file, and a directory with another one. -/
def sampleEntries : List (FileName × Node) :=
  [("b.spec.ts", .file [] 0), ("a", .directory none [("c.spec.ts", .file [] 0)])]

theorem proper_sample {entries : List (FileName × Node)}
    (h : (Node.directory none entries).Proper) : (sample entries).top.Proper := by
  refine .of_entries (List.nodup_singleton _) fun entry hentry => ?_
  obtain rfl := List.mem_singleton.mp hentry
  exact ⟨(by decide : Path.IsName "t"), h⟩

theorem alike_sample {entries entries' : List (FileName × Node)}
    (h : (Node.directory none entries).Alike (.directory none entries')) :
    (sample entries).Alike (sample entries') := by
  refine ⟨Node.alike_of_child? rfl fun name => ?_, rfl⟩
  simp only [sample, Node.child?, Node.entries, List.lookup_cons]
  split
  · exact .some h
  · exact .none

/-- The directory of tests of a sample has the given entries. -/
theorem node_sample (entries : List (FileName × Node)) :
    (sample entries).node ((Path.ofString "/").join (.ofString "t")) =
      .ok (.directory none entries) := by
  exact FileSystem.node_eq_ok_iff.mpr ⟨["t"], by rfl, rfl⟩

theorem proper_sampleEntries : (Node.directory none sampleEntries).Proper := by
  have hinner : (Node.directory none [("c.spec.ts", .file [] 0)]).Proper := by
    refine .of_entries (List.nodup_singleton _) fun entry hentry => ?_
    obtain rfl := List.mem_singleton.mp hentry
    exact ⟨(by decide : Path.IsName "c.spec.ts"), .of_entries_eq_nil rfl⟩
  refine .of_entries (by decide : (sampleEntries.map Prod.fst).Nodup) fun entry hentry => ?_
  rcases List.mem_pair.mp hentry with rfl | rfl
  · exact ⟨(by decide : Path.IsName "b.spec.ts"), .of_entries_eq_nil rfl⟩
  · exact ⟨(by decide : Path.IsName "a"), hinner⟩

/-- The sample has one directory below its top, and files. -/
theorem at?_sampleEntries {place : List FileName}
    (h : (Node.directory none sampleEntries).at? place = some m) :
    m.isFile = true ∨ m.isDirectory = true ∧ (place = [] ∨ place = ["a"]) := by
  rcases place with _ | ⟨s, place⟩
  · obtain rfl := Option.some_inj.mp h
    exact .inr ⟨rfl, .inl rfl⟩
  · obtain ⟨c, hc, hcm⟩ := Option.bind_eq_some_iff.mp h
    rcases List.mem_pair.mp (Node.mem_entries_of_child? hc) with heq | heq
    · cases heq
      rw [Node.eq_of_at? rfl hcm]
      exact .inl rfl
    · cases heq
      rcases place with _ | ⟨t, place⟩
      · obtain rfl := Option.some_inj.mp hcm
        exact .inr ⟨rfl, .inr rfl⟩
      · obtain ⟨d, hd, hdm⟩ := Option.bind_eq_some_iff.mp hcm
        cases List.mem_singleton.mp (Node.mem_entries_of_child? hd)
        rw [Node.eq_of_at? rfl hdm]
        exact .inl rfl

/-- The sample has no devices, and all its paths are short. -/
theorem plain_sampleEntries :
    Plain (sample sampleEntries) { testDirs := ["t"] }
      ((Path.ofString "/").join (.ofString "t")) := by
  refine ⟨fun hn hat _ => ?_, fun hn hat hdir => ?_⟩
  · obtain rfl := Except.ok.inj ((node_sample _).symm.trans hn)
    exact (at?_sampleEntries hat).imp_right And.left
  · obtain rfl := Except.ok.inj ((node_sample _).symm.trans hn)
    rcases at?_sampleEntries hat with hfile | ⟨-, rfl | rfl⟩
    · rw [not_isDirectory_of_isFile hfile] at hdir
      cases hdir
    · decide +kernel
    · decide +kernel

/-- In a small tree, the test file below a directory is found, and the entries may stand in any
order. -/
theorem discover_of_sample :
    let settings : MiningSettings := { testDirs := ["t"] }
    let q := Path.ofString "/t/a/c.spec.ts"
    (∃ p ∈ discover (sample sampleEntries) (.ofString "/") settings, q.same p = true) ∧
      discover (sample sampleEntries.reverse) (.ofString "/") settings =
        discover (sample sampleEntries) (.ofString "/") settings := by
  intro settings q
  have hperm := (List.reverse_perm sampleEntries).symm
  obtain ⟨-, -, htest, horder⟩ := discover_spec (sample sampleEntries)
    (proper_sample proper_sampleEntries) (.ofString "/") settings
  have hq : IsTestFile (sample sampleEntries) settings ((Path.ofString "/").join (.ofString "t"))
      (((Path.ofString "/").join (.ofString "t")).descend (["a"] ++ ["c.spec.ts"])) :=
    .below (node_sample _) rfl rfl (by decide) (by decide)
  refine ⟨(htest ?_ q).mpr ⟨"t", List.mem_singleton_self _, q, hq, beq_self_eq_true _⟩,
    horder _ (proper_sample (proper_sampleEntries.of_perm hperm)) ?_⟩
  · exact fun dir hdir => List.mem_singleton.mp hdir ▸ plain_sampleEntries
  · exact alike_sample (Node.alike_of_perm proper_sampleEntries hperm)

/-- A device is listed, though it is no file. -/
theorem discover_device :
    let fs := sample [("a.spec.ts", .device 0)]
    let q := Path.ofString "/t/a.spec.ts"
    discover fs (.ofString "/") { testDirs := ["t"] } = [q] ∧ fs.isFile q = false := by
  have hfile : (sample [("a.spec.ts", .device 0)]).isFile (.ofString "/t/a.spec.ts") = false := by
    decide +kernel
  refine ⟨?_, hfile⟩
  have hcollect : collect (sample [("a.spec.ts", .device 0)]) { testDirs := ["t"] }
      ((Path.ofString "/").join (.ofString "t")) = [.ofString "/t/a.spec.ts"] := by
    rw [collect, node_sample]
    decide +kernel
  simp only [discover, collectAll, List.map_cons, List.map_nil, List.flatMap_singleton, hcollect]
  simp [Path.sortUnique]

end Discovery

end SuiteScope
