import SuiteScope.Cache
import SuiteScope.Proofs.Files.Location

/-!
# What a cache counts

A cache is asked for files and told to forget some (`Call`). The files may have changed in any way
since the call before, so a look-up comes with the files it meets. `LookUp` lists all that a look-up
can come to, and everything else is read off that (`lookUp_getOrMine`).

Every look-up of something that is there is a hit or a miss (`hits_add_misses_run`), and no entry
comes without a miss (`Tidy.run`). `run_counts` puts together what a look-up and an invalidation do
to a cache with any history.
-/

namespace SuiteScope

/-! ## Paths that are the same -/

theorem Path.same_self (p : Path) : p.same p = true := by
  rw [same, beq_self_eq_true]

theorem Path.same_comm (p q : Path) : p.same q = q.same p := by
  rw [same, same, Bool.beq_comm]

theorem Path.same_left {p q : Path} (h : p.same q = true) (x : Path) : p.same x = q.same x := by
  rw [same, same, beq_iff_eq.mp h]

theorem Path.same_right {p q : Path} (h : p.same q = true) (x : Path) : x.same p = x.same q := by
  rw [same, same, beq_iff_eq.mp h]

namespace Cache

/-! ## One look-up -/

/-- What a look-up of a path comes to : its answer, and the cache after it. -/
inductive LookUp (fs : FileSystem) (c : Cache) (p : Path) :
    Except FileError Source.Mined → Cache → Prop
  /-- Nothing can be learned of the path. -/
  | missing {e : FileError} (hnode : fs.node p = .error e) : LookUp fs c p (.error e) c
  /-- What is remembered is still good. -/
  | hit {node : Node} {entry : CacheEntry} (hnode : fs.node p = .ok node)
      (hentry : c.get? p = some entry)
      (hfresh : c.fresh? p node.modified? = some entry.mined) :
      LookUp fs c p (.ok entry.mined) { c with hits := c.hits + 1 }
  /-- There is something that cannot be read. -/
  | unreadable {node : Node} {e : FileError} (hnode : fs.node p = .ok node)
      (hstale : c.fresh? p node.modified? = none) (hread : fs.readText p = .error e) :
      LookUp fs c p (.error e) { c with misses := c.misses + 1 }
  /-- The file is read, and takes the place of what was remembered of it. -/
  | read {node : Node} {text : String} (hnode : fs.node p = .ok node)
      (hstale : c.fresh? p node.modified? = none) (hread : fs.readText p = .ok text) :
      LookUp fs c p (.ok (Source.mine text))
        { entries := ⟨p, node.modified?, Source.mine text⟩ :: (c.invalidate p).entries
          hits := c.hits
          misses := c.misses + 1 }

/-- Every look-up is one of the cases of `LookUp`. -/
theorem lookUp_getOrMine (fs : FileSystem) (c : Cache) (p : Path) :
    LookUp fs c p (c.getOrMine fs p).1 (c.getOrMine fs p).2 := by
  unfold getOrMine
  split
  next e hnode => exact .missing hnode
  next node hnode =>
    split
    next mined hfresh =>
      obtain ⟨entry, hentry, rfl⟩ := Option.map_eq_some_iff.mp hfresh
      exact .hit hnode (Option.filter_eq_some_iff.mp hentry).1 hfresh
    next hstale =>
      split
      next e hread => exact .unreadable hnode hstale hread
      next text hread => exact .read hnode hstale hread

variable {fs : FileSystem} {c c' : Cache} {p q : Path} {mined : Source.Mined} {e : FileError}

/-! ## Entries -/

/-- Paths that are the same have the same entry. -/
theorem get?_congr (h : p.same q = true) (c : Cache) : c.get? p = c.get? q := by
  simp only [get?, Path.same_right h]

/-- An entry that has been forgotten is gone. -/
@[simp]
theorem get?_invalidate_self (c : Cache) (p : Path) : (c.invalidate p).get? p = none := by
  rw [get?, invalidate, List.find?_eq_none]
  intro entry hentry
  simpa using (List.mem_filter.mp hentry).2

/-- No other path is forgotten. -/
theorem get?_invalidate (h : p.same q = false) : (c.invalidate p).get? q = c.get? q := by
  rw [get?, invalidate, List.find?_filter, get?]
  congr 1
  funext entry
  cases hq : entry.path.same q with
  | false => simp
  | true => simp [Path.same_left hq, Path.same_comm q p, h]

/-- The cache after an answer : one of the counters is one more, the answer is remembered, and all
else that was remembered is. -/
structure Answered (c : Cache) (p : Path) (mined : Source.Mined) (c' : Cache) : Prop where
  counters : (c'.hits = c.hits + 1 ∧ c'.misses = c.misses) ∨
    (c'.hits = c.hits ∧ c'.misses = c.misses + 1)
  entry : ∃ entry, c'.get? p = some entry ∧ entry.mined = mined
  others : ∀ q : Path, p.same q = false → c'.get? q = c.get? q

/-- A look-up that gives something has counted once and has an entry afterwards. -/
theorem LookUp.answered (h : LookUp fs c p (.ok mined) c') : Answered c p mined c' := by
  cases h with
  | hit hnode hentry hfresh => exact ⟨.inl ⟨rfl, rfl⟩, ⟨_, hentry, rfl⟩, fun q hq => rfl⟩
  | read hnode hstale hread =>
    refine ⟨.inr ⟨rfl, rfl⟩, ⟨_, List.find?_cons_of_pos (Path.same_self p), rfl⟩, fun q hq => ?_⟩
    simpa [get?, hq] using get?_invalidate (c := c) hq

/-- An error leaves the entries and the hits as they were. It is a miss if something is there. -/
theorem LookUp.eq_of_error (h : LookUp fs c p (.error e) c') :
    c' = { c with misses := c.misses + if (fs.node p).isOk then 1 else 0 } := by
  cases h with
  | missing hnode => simp [hnode, Except.isOk, Except.toBool]
  | unreadable hnode => simp [hnode, Except.isOk, Except.toBool]

/-- Of a path that is not remembered an answer is what the file holds now. -/
theorem LookUp.miss (h : LookUp fs c p (.ok mined) c') (hnone : c.get? p = none) :
    c'.misses = c.misses + 1 ∧ c'.hits = c.hits ∧
      ∃ text, fs.readText p = .ok text ∧ mined = Source.mine text := by
  cases h with
  | hit hnode hentry =>
    rw [hnone] at hentry
    cases hentry
  | read hnode hstale hread => exact ⟨rfl, rfl, _, hread, rfl⟩

/-! ## Calls -/

/-- What a cache is asked to do. The files may have changed since the call before. -/
inductive Call
  | lookUp (fs : FileSystem) (p : Path)
  | invalidate (p : Path)

/-- A look-up of something that is there. -/
def Call.isFound : Call → Bool
  | .lookUp fs p => (fs.node p).isOk
  | .invalidate _ => false

/-- The cache after a call. -/
def after (c : Cache) : Call → Cache
  | .lookUp fs p => (c.getOrMine fs p).2
  | .invalidate p => c.invalidate p

/-- The cache after several calls. -/
def run (c : Cache) (calls : List Call) : Cache :=
  calls.foldl after c

/-- No look-up of the path is answered in these calls. -/
def Unanswered (p : Path) : Cache → List Call → Prop
  | _, [] => True
  | c, call :: calls =>
    (∀ fs q, call = .lookUp fs q → p.same q = true → ∃ e, (c.getOrMine fs q).1 = .error e) ∧
      Unanswered p (c.after call) calls

/-- A path without an entry gets one only by a look-up that succeeds. -/
theorem get?_after_of_none {call : Call} (h : c.get? p = none)
    (hcall : ∀ fs q, call = .lookUp fs q → p.same q = true →
      ∃ e, (c.getOrMine fs q).1 = .error e) : (c.after call).get? p = none := by
  cases call with
  | invalidate q =>
    cases hq : q.same p with
    | true => rw [after, ← get?_congr hq, get?_invalidate_self]
    | false => rw [after, get?_invalidate hq, h]
  | lookUp fs q =>
    have hlook := lookUp_getOrMine fs c q
    cases hanswer : (c.getOrMine fs q).1 with
    | error e =>
      rw [hanswer] at hlook
      rw [after, hlook.eq_of_error]
      exact h
    | ok mined =>
      rw [hanswer] at hlook
      cases hq : q.same p with
      | true =>
        obtain ⟨e, he⟩ := hcall fs q rfl (by rw [Path.same_comm, hq])
        rw [hanswer] at he
        cases he
      | false => rw [after, hlook.answered.others p hq, h]

/-- What is not remembered stays so until it is looked up and found. -/
theorem get?_run_of_none {calls : List Call} (h : c.get? p = none) (hcalls : Unanswered p c calls) :
    (c.run calls).get? p = none := by
  induction calls generalizing c with
  | nil => exact h
  | cons call calls ih => exact ih (get?_after_of_none h hcalls.1) hcalls.2

/-! ## Counters -/

/-- A call counts once if it finds the file, and not at all otherwise. -/
theorem hits_add_misses_after (c : Cache) (call : Call) :
    (c.after call).hits + (c.after call).misses = c.hits + c.misses + call.isFound.toNat := by
  cases call with
  | invalidate p => rfl
  | lookUp fs p =>
    have hlook := lookUp_getOrMine fs c p
    rw [after, Call.isFound]
    generalize (c.getOrMine fs p).1 = answer, (c.getOrMine fs p).2 = c' at hlook
    cases hlook with
    | missing hnode => simp [hnode, Except.isOk, Except.toBool]
    | hit hnode => simp [hnode, Except.isOk, Except.toBool]; omega
    | unreadable hnode => simp [hnode, Except.isOk, Except.toBool]; omega
    | read hnode => simp [hnode, Except.isOk, Except.toBool]; omega

/-- All calls of a run are counted, by induction over them. -/
theorem hits_add_misses_run (c : Cache) (calls : List Call) :
    (c.run calls).hits + (c.run calls).misses =
      c.hits + c.misses + calls.countP Call.isFound := by
  induction calls generalizing c with
  | nil => rfl
  | cons call calls ih =>
    have hcount : (call :: calls).countP Call.isFound =
        calls.countP Call.isFound + call.isFound.toNat := by
      rw [List.countP_cons]
      cases call.isFound <;> rfl
    have hrest := ih (c.after call)
    rw [hits_add_misses_after] at hrest
    rw [hcount]
    exact hrest.trans (by omega)

/-- No path is remembered twice, and none without a miss. -/
structure Tidy (c : Cache) : Prop where
  apart : c.entries.Pairwise fun entry entry' => entry.path.same entry'.path = false
  size_le_misses : c.size ≤ c.misses

theorem Tidy.invalidate (h : Tidy c) (p : Path) : Tidy (c.invalidate p) :=
  ⟨h.apart.filter _, Nat.le_trans (List.length_filter_le _ _) h.size_le_misses⟩

/-- Every call leaves the cache tidy. -/
theorem Tidy.after (h : Tidy c) (call : Call) : Tidy (c.after call) := by
  cases call with
  | invalidate p => exact h.invalidate p
  | lookUp fs p =>
    have hlook := lookUp_getOrMine fs c p
    rw [Cache.after]
    generalize (c.getOrMine fs p).1 = answer, (c.getOrMine fs p).2 = c' at hlook
    cases hlook with
    | missing => exact h
    | hit => exact ⟨h.apart, h.size_le_misses⟩
    | unreadable => exact ⟨h.apart, Nat.le_succ_of_le h.size_le_misses⟩
    | read =>
      have hrest := h.invalidate p
      refine ⟨hrest.apart.cons fun entry hentry => ?_, Nat.succ_le_succ hrest.size_le_misses⟩
      rw [Path.same_comm]
      simpa using (List.mem_filter.mp hentry).2

/-- So does a whole run. -/
theorem Tidy.run (h : Tidy c) (calls : List Call) : Tidy (c.run calls) := by
  induction calls generalizing c with
  | nil => exact h
  | cons call calls ih => exact ih (h.after call)

theorem tidy_empty : Tidy {} :=
  ⟨.nil, Nat.le_refl 0⟩

/-- At most one entry goes when a path is forgotten. -/
theorem Tidy.size_invalidate (h : Tidy c) (p : Path) :
    (c.invalidate p).size + (c.get? p).isSome.toNat = c.size := by
  obtain ⟨happart, -⟩ := h
  obtain ⟨entries, hits, misses⟩ := c
  simp only [size, Cache.invalidate, get?] at happart ⊢
  induction entries with
  | nil => rfl
  | cons entry entries ih =>
    obtain ⟨hentry, hentries⟩ := List.pairwise_cons.mp happart
    cases hp : entry.path.same p with
    | false =>
      have hrest := ih hentries
      simp [hp]
      omega
    | true =>
      have hkept : entries.filter (fun e => !e.path.same p) = entries := by
        refine List.filter_eq_self.mpr fun e he => ?_
        rw [← Path.same_right hp, Path.same_comm, hentry e he, Bool.not_false]
      simp [hp, hkept]

/-- The cache after a path is forgotten : no other entry goes, and no counter changes. -/
structure Forgotten (c : Cache) (p : Path) (c' : Cache) : Prop where
  hits : c'.hits = c.hits
  misses : c'.misses = c.misses
  entry : c'.get? p = none
  size : c'.size + (c.get? p).isSome.toNat = c.size
  others : ∀ q : Path, p.same q = false → c'.get? q = c.get? q

/-- Forgetting a path takes away its entry and no other. -/
theorem Tidy.forgotten (h : Tidy c) (p : Path) : Forgotten c p (c.invalidate p) :=
  ⟨rfl, rfl, get?_invalidate_self c p, h.size_invalidate p, fun _ hq => get?_invalidate hq⟩

/-- A cache with any history : a look-up that fails is counted as a miss exactly if something is
there, and changes nothing else. One that succeeds is a hit or a miss, and changes no entry but its
own. A path that is forgotten is read again at the next look-up that succeeds. All hits and misses
are the look-ups of something that is there, and there are no more entries than misses. -/
theorem run_counts (calls : List Call) (p : Path) :
    let c := run {} calls
    (∀ fs e, (c.getOrMine fs p).1 = .error e →
      (c.getOrMine fs p).2 =
        { c with misses := c.misses + if (fs.node p).isOk then 1 else 0 }) ∧
    (∀ fs mined, (c.getOrMine fs p).1 = .ok mined →
      Answered c p mined (c.getOrMine fs p).2) ∧
    Forgotten c p (c.invalidate p) ∧
    (∀ between fs mined, Unanswered p (c.invalidate p) between →
      let c' := (c.invalidate p).run between
      (c'.getOrMine fs p).1 = .ok mined →
        (c'.getOrMine fs p).2.misses = c'.misses + 1 ∧ (c'.getOrMine fs p).2.hits = c'.hits ∧
          ∃ text, fs.readText p = .ok text ∧ mined = Source.mine text) ∧
    c.hits + c.misses = calls.countP Call.isFound ∧ c.size ≤ c.misses := by
  intro c
  have htidy : Tidy c := tidy_empty.run calls
  have hlook := fun fs (c : Cache) => lookUp_getOrMine fs c p
  refine ⟨fun fs e he => ?_, fun fs mined hm => ?_, htidy.forgotten p, ?_, ?_,
    htidy.size_le_misses⟩
  · exact (he ▸ hlook fs c).eq_of_error
  · exact (hm ▸ hlook fs c).answered
  · intro between fs mined hbetween c' hm
    have hnone : c'.get? p = none := get?_run_of_none (get?_invalidate_self c p) hbetween
    exact (hm ▸ hlook fs c').miss hnone
  · have hcount := hits_add_misses_run {} calls
    simpa using hcount

/-- A file that is looked up twice, forgotten, looked up while it is away, and read again. -/
theorem run_counts_of_returned_file :
    let a : Path := ⟨["", "a"]⟩
    let present : FileSystem := ⟨.directory none [("a", .file [] 1)], []⟩
    let away : FileSystem := ⟨.directory none [], []⟩
    let c := run {} [.lookUp present a, .lookUp present a]
    let c' := (c.invalidate a).run [.lookUp away a]
    Unanswered a (c.invalidate a) [.lookUp away a] ∧
      (c'.getOrMine present a).1 = .ok (Source.mine "") ∧
      c.hits + c.misses = 2 ∧ (c'.getOrMine present a).2.misses = c'.misses + 1 := by
  intro a present away c c'
  have hfile : present.node a = .ok (.file [] 1) :=
    FileSystem.node_eq_ok_iff.mpr ⟨["a"], by rfl, rfl⟩
  have htext : present.readText a = .ok "" := by rw [FileSystem.readText, hfile]; rfl
  have haway : away.node a = .error .notFound := by rfl
  have hfound : [Call.lookUp present a, .lookUp present a].countP Call.isFound = 2 := by
    simp [Call.isFound, hfile, Except.isOk, Except.toBool]
  have hbetween : Unanswered a (c.invalidate a) [.lookUp away a] := by
    refine ⟨?_, trivial⟩
    rintro fs q ⟨⟩ -
    exact ⟨.notFound, by rw [getOrMine, haway]⟩
  have hnone : c'.get? a = none := get?_run_of_none (get?_invalidate_self c a) hbetween
  have hanswer : (c'.getOrMine present a).1 = .ok (Source.mine "") := by
    simp [getOrMine, hfile, htext, fresh?, hnone]
  obtain ⟨-, -, -, hread, htotal, -⟩ := run_counts [.lookUp present a, .lookUp present a] a
  exact ⟨hbetween, hanswer, htotal.trans hfound, (hread _ present _ hbetween hanswer).1⟩

end Cache

end SuiteScope
