import Mathlib.Data.List.Basic
import SuiteScope.Proofs.Text.Offset
import SuiteScope.Text.Search

/-!
# Walks through a text

`walkFrom r next` is a search from left to right in which `next` says where to go on after a match,
if at all. `findFrom` is the walk that goes on where the match ends. The state of a walk in front of
`s` is the text `a` before it, which fixes the place and the character before it : `walkAfter r next
a s`.

A walk passes over a piece where no match starts (`walkAfter_quiet`), and after a match it goes on
behind the piece that the match claims (`walkAfter_found`). It does the same thing in `a ++ s` as in
`s`, except that all places move by the size of `a` (`walkFrom_shift`).
-/

namespace SuiteScope.Text

variable {α : Type} {r : Recognizer α} {next : Match α → Option Nat}

/-- The matches of a search that goes on at `next m` after a match `m`. -/
def walkFrom (r : Recognizer α) (next : Match α → Option Nat) :
    (before : Option Char) → (pos resume : Nat) → List Char → List (Match α)
  | _, _, _, [] => []
  | before, pos, resume, c :: s =>
    if pos < resume then walkFrom r next (some c) (pos + c.utf8Size) resume s
    else
      match matchAt? r before pos (c :: s) with
      | none => walkFrom r next (some c) (pos + c.utf8Size) resume s
      | some m =>
        match next m with
        | none => [m]
        | some stop => m :: walkFrom r next (some c) (pos + c.utf8Size) stop s

/-- The rest of a walk that has come to the end of `a`, in front of `s`. -/
def walkAfter (r : Recognizer α) (next : Match α → Option Nat) (a s : List Char) :
    List (Match α) :=
  walkFrom r next a.getLast? (byteSize a) 0 s

/-- The recognizer fails at every place of `x`, which stands in front of `y`. -/
def Quiet (r : Recognizer α) : (before : Option Char) → (x y : List Char) → Prop
  | _, [], _ => True
  | before, c :: x, y => r before (c :: (x ++ y)) = none ∧ Quiet r (some c) x y

/-- The match at another place. -/
def Match.shift (k : Nat) (m : Match α) : Match α :=
  ⟨⟨k + m.span.start, k + m.span.stop⟩, m.value⟩

theorem findFrom_eq_walkFrom (r : Recognizer α) (before : Option Char) (pos resume : Nat)
    (s : List Char) :
    findFrom r before pos resume s =
      walkFrom r (fun m => some m.span.stop) before pos resume s := by
  induction s generalizing before pos resume with
  | nil => rfl
  | cons c s ih =>
    simp only [findFrom, walkFrom, ih]
    split
    · rfl
    · split <;> simp_all

theorem findAll_eq_walkAfter (s : List Char) :
    findAll r s = walkAfter r (fun m => some m.span.stop) [] s :=
  findFrom_eq_walkFrom r none 0 0 s

/-! ## Where a walk goes on -/

theorem walkFrom_of_le {before : Option Char} {pos resume : Nat} (h : resume ≤ pos)
    (s : List Char) :
    walkFrom r next before pos resume s = walkFrom r next before pos 0 s := by
  induction s generalizing before pos with
  | nil => rfl
  | cons c s ih =>
    rw [walkFrom, if_neg (by omega), walkFrom, if_neg (by omega), ih (by omega)]

theorem walkFrom_passed {a x : List Char} {stop : Nat} (h : byteSize (a ++ x) ≤ stop)
    (s : List Char) :
    walkFrom r next a.getLast? (byteSize a) stop (x ++ s) =
      walkFrom r next (a ++ x).getLast? (byteSize (a ++ x)) stop s := by
  induction x generalizing a with
  | nil => simp
  | cons c x ih =>
    have hc := c.utf8Size_pos
    rw [byteSize_append, byteSize_cons] at h
    rw [List.cons_append, walkFrom, if_pos (by omega)]
    have step := ih (a := a ++ [c]) (by simp; omega)
    simpa [Nat.add_assoc] using step

theorem walkAfter_quiet {a x : List Char} {s : List Char} (h : Quiet r a.getLast? x s) :
    walkAfter r next a (x ++ s) = walkAfter r next (a ++ x) s := by
  induction x generalizing a with
  | nil => simp
  | cons c x ih =>
    have step := ih (a := a ++ [c]) (by simpa using h.2)
    rw [walkAfter, List.cons_append, walkFrom, if_neg (by omega), matchAt?, h.1]
    simpa [walkAfter] using step

theorem walkAfter_found {a x s rest : List Char} {value : α} {m : Match α} {stop : Nat}
    (hx : x ≠ []) (hr : r a.getLast? (x ++ s) = some (value, rest))
    (hm : m = ⟨⟨byteSize a, byteSize a + (byteSize (x ++ s) - byteSize rest)⟩, value⟩)
    (hn : next m = some stop) (hs : byteSize (a ++ x) = stop) :
    walkAfter r next a (x ++ s) = m :: walkAfter r next (a ++ x) s := by
  obtain ⟨c, x, rfl⟩ := List.exists_cons_of_ne_nil hx
  have hmatch : matchAt? r a.getLast? (byteSize a) (c :: (x ++ s)) = some m := by
    rw [List.cons_append] at hr hm
    rw [matchAt?, hr, hm, Option.map_some]
  have hpassed : walkFrom r next (a ++ [c]).getLast? (byteSize (a ++ [c])) stop (x ++ s) =
      walkFrom r next (a ++ [c] ++ x).getLast? (byteSize (a ++ [c] ++ x)) stop s :=
    walkFrom_passed (by simp [← hs]) s
  rw [walkAfter, List.cons_append, walkFrom, if_neg (by omega), hmatch]
  simp only [hn, walkAfter]
  rw [← walkFrom_of_le (Nat.le_of_eq hs.symm)]
  simpa using hpassed

/-- The only match is that between two quiet pieces. -/
theorem findAll_eq_singleton {x y z : List Char} {value : α} (hx : Quiet r none x (y ++ z))
    (hy : y ≠ []) (hr : r x.getLast? (y ++ z) = some (value, z))
    (hz : Quiet r (x ++ y).getLast? z []) :
    findAll r (x ++ (y ++ z)) = [⟨⟨byteSize x, byteSize (x ++ y)⟩, value⟩] := by
  let next : Match α → Option Nat := fun m => some m.span.stop
  have hfound : walkAfter r next x (y ++ z) =
      ⟨⟨byteSize x, byteSize (x ++ y)⟩, value⟩ :: walkAfter r next (x ++ y) z :=
    walkAfter_found hy hr (by simp) rfl rfl
  have hend : walkAfter r next (x ++ y) (z ++ []) = [] := by
    rw [walkAfter_quiet hz]
    rfl
  rw [List.append_nil] at hend
  rw [findAll_eq_walkAfter, walkAfter_quiet hx, List.nil_append, hfound, hend]

/-! ## Moving a walk -/

theorem walkFrom_before {before before' : Option Char} (h : ∀ s, r before s = r before' s)
    (pos resume : Nat) (s : List Char) :
    walkFrom r next before pos resume s = walkFrom r next before' pos resume s := by
  cases s with
  | nil => rfl
  | cons c s => rw [walkFrom, walkFrom, matchAt?, matchAt?, h]

theorem matchAt?_shift (k : Nat) (before : Option Char) (pos : Nat) (s : List Char) :
    matchAt? r before (k + pos) s = (matchAt? r before pos s).map (Match.shift k) := by
  unfold matchAt?
  cases r before s with
  | none => rfl
  | some found => simp [Match.shift, Nat.add_assoc]

theorem walkFrom_shift {next' : Match α → Option Nat} {k : Nat}
    (h : ∀ m, next' (m.shift k) = (next m).map (k + ·)) (before : Option Char) (pos resume : Nat)
    (s : List Char) :
    walkFrom r next' before (k + pos) (k + resume) s =
      (walkFrom r next before pos resume s).map (Match.shift k) := by
  induction s generalizing before pos resume with
  | nil => rfl
  | cons c s ih =>
    simp only [walkFrom, matchAt?_shift, Nat.add_lt_add_iff_left, Nat.add_assoc, ih]
    split
    · rfl
    · cases matchAt? r before pos (c :: s) with
      | none => rfl
      | some m =>
        simp only [Option.map_some, h]
        cases next m with
        | none => rfl
        | some stop => simp [ih]

/-! ## Quiet pieces -/

theorem quiet_append {before : Option Char} {x x' y : List Char} (h : Quiet r before x (x' ++ y))
    (h' : Quiet r (x.getLast?.or before) x' y) : Quiet r before (x ++ x') y := by
  induction x generalizing before with
  | nil => simpa using h'
  | cons c x ih =>
    refine ⟨by simpa using h.1, ih h.2 ?_⟩
    simpa [List.getLast?_cons, ← Option.or_some, Option.or_assoc] using h'

theorem eq_none_of_quiet {before : Option Char} {x y z : List Char} {c : Char}
    (h : Quiet r before (x ++ c :: y) z) : r (x.getLast?.or before) (c :: (y ++ z)) = none := by
  induction x generalizing before with
  | nil => exact h.1
  | cons d x ih => simpa [List.getLast?_cons, ← Option.or_some, Option.or_assoc] using ih h.2

theorem quiet_flatMap {β : Type} {f : β → List Char} {l : List β}
    (h : ∀ b ∈ l, ∀ before y, Quiet r before (f b) y) (before : Option Char) (y : List Char) :
    Quiet r before (l.flatMap f) y := by
  induction l generalizing before with
  | nil => trivial
  | cons b l ih =>
    rw [List.flatMap_cons]
    exact quiet_append (h b List.mem_cons_self before _)
      (ih (fun c hc => h c (List.mem_cons_of_mem b hc)) _)

/-- A text is quiet if the recognizer fails wherever one of its characters stands. -/
theorem quiet_of_forall {before : Option Char} {x y : List Char}
    (h : ∀ c ∈ x, ∀ before s, r before (c :: s) = none) : Quiet r before x y := by
  induction x generalizing before with
  | nil => trivial
  | cons c x ih =>
    exact ⟨h c List.mem_cons_self _ _, ih fun d hd => h d (List.mem_cons_of_mem c hd)⟩

/-- A text is quiet if the recognizer fails on all that the text ends in. -/
theorem quiet_of_suffix {before : Option Char} {x : List Char}
    (h : ∀ before s, s <:+ x → r before s = none) : Quiet r before x [] := by
  induction x generalizing before with
  | nil => trivial
  | cons c x ih =>
    rw [Quiet, List.append_nil]
    exact ⟨h _ _ (List.suffix_refl _), ih fun b s hs => h b s (hs.trans (List.suffix_cons c x))⟩

/-! ## The first match -/

theorem find?_quiet {before : Option Char} {x s : List Char} (h : Quiet r before x s) (pos : Nat) :
    find? r before pos (x ++ s) = find? r (x.getLast?.or before) (pos + byteSize x) s := by
  induction x generalizing before pos with
  | nil => simp
  | cons c x ih =>
    rw [List.cons_append, find?, matchAt?, h.1]
    simp [ih h.2, List.getLast?_cons, ← Option.or_some, Option.or_assoc, Nat.add_assoc]

theorem find?_found {before : Option Char} {s rest : List Char} {value : α}
    (h : r before s = some (value, rest)) (pos : Nat) :
    (find? r before pos s).map (·.value) = some value := by
  cases s <;> simp [find?, matchAt?, h]

/-- A quiet piece is passed over on the way to the first value. -/
theorem findValue?_append {x s rest : List Char} {value : α} (hx : Quiet r none x s)
    (hs : r x.getLast? s = some (value, rest)) : findValue? r (x ++ s) = some value := by
  rw [findValue?, find?_quiet hx, Option.or_none, find?_found hs]

theorem findValue?_eq_none {s : List Char} (hs : ∀ before t, t <:+ s → r before t = none) :
    findValue? r s = none := by
  have hquiet : Quiet r none s [] := quiet_of_suffix hs
  have hnil := hs s.getLast? [] (List.nil_suffix)
  have hfind := find?_quiet hquiet 0
  rw [List.append_nil] at hfind
  rw [findValue?, hfind, find?, matchAt?, Option.or_none, hnil]
  rfl

/-! ## Words in a text -/

theorem prefix_append_cons {w : List Char} {c : Char} (hc : c ∉ w) {x y : List Char}
    (h : w <+: x ++ c :: y) : w <+: x := by
  induction w generalizing x with
  | nil => exact List.nil_prefix
  | cons d w ih =>
    rw [List.mem_cons, not_or] at hc
    cases x with
    | nil =>
      rw [List.nil_append, List.cons_prefix_cons] at h
      exact absurd h.1.symm hc.1
    | cons e x =>
      rw [List.cons_append, List.cons_prefix_cons] at h
      exact List.cons_prefix_cons.mpr ⟨h.1, ih hc.2 h.2⟩

theorem prefix_of_prefix_append {p : Char → Bool} {w x s : List Char} (hw : w.all p = true)
    (hs : ∀ c ∈ s.head?, p c = false) (h : w <+: x ++ s) : w <+: x := by
  cases s with
  | nil => simpa using h
  | cons c s =>
    refine prefix_append_cons (fun hc => ?_) h
    have hp := List.all_eq_true.mp hw c hc
    rw [hs c rfl] at hp
    exact absurd hp (by decide)

/-- A character of no word keeps apart what stands on either side of it. -/
theorem infix_append_cons {w : List Char} {c : Char} (hc : c ∉ w) {x y : List Char} :
    w <:+: x ++ c :: y ↔ w <:+: x ∨ w <:+: y := by
  constructor
  · intro h
    induction x with
    | nil =>
      rw [List.nil_append, List.infix_cons_iff] at h
      exact h.imp_left fun h => (prefix_append_cons (x := []) hc h).isInfix
    | cons d x ih =>
      rw [List.cons_append, List.infix_cons_iff] at h
      rcases h with h | h
      · exact .inl (prefix_append_cons (x := d :: x) hc h).isInfix
      · exact (ih h).imp_left List.infix_cons
  · rintro (h | h)
    · exact h.trans (List.prefix_append x _).isInfix
    · exact h.trans ((List.suffix_cons c y).trans (List.suffix_append x _)).isInfix

theorem not_infix_of_not_mem {w x : List Char} {c : Char} (hw : c ∈ w) (hx : c ∉ x) : ¬w <:+: x :=
  fun h => hx (h.subset hw)

/-! ## Words of a list -/

/-- Neither word starts with the other. -/
def Apart (v w : List Char) : Prop :=
  ¬v <+: w ∧ ¬w <+: v

instance (v w : List Char) : Decidable (Apart v w) :=
  inferInstanceAs (Decidable (_ ∧ _))

/-- A word is found if none of the words before it starts what is there. -/
theorem firstWord?_of_mem {words : List (List Char)} {s : List Char}
    (h : words.Pairwise fun v w => ¬v <+: w ++ s) {w : List Char} (hw : w ∈ words) :
    firstWord? words (w ++ s) = some (w, s) := by
  induction words with
  | nil => simp at hw
  | cons v words ih =>
    obtain ⟨hv, hwords⟩ := List.pairwise_cons.mp h
    rw [firstWord?]
    rcases List.mem_cons.mp hw with rfl | hw
    · rw [List.isPrefixOf?_eq_some_iff_append_eq.mpr rfl]
    · cases hp : v.isPrefixOf? (w ++ s) with
      | none => exact ih hwords hw
      | some rest =>
        exact absurd ⟨rest, List.isPrefixOf?_eq_some_iff_append_eq.mp hp⟩ (hv w hw)

/-- Among words that are pairwise apart the one that is there is found. -/
theorem firstWord?_append {words : List (List Char)} (h : words.Pairwise Apart) {w : List Char}
    (hw : w ∈ words) (s : List Char) : firstWord? words (w ++ s) = some (w, s) := by
  refine firstWord?_of_mem (h.imp fun {v w} hvw hpre => ?_) hw
  exact (List.prefix_or_prefix_of_prefix hpre (List.prefix_append w s)).elim hvw.1 hvw.2

theorem firstWord?_eq_none {words : List (List Char)} {s : List Char}
    (h : ∀ w ∈ words, ¬w <+: s) : firstWord? words s = none := by
  induction words with
  | nil => rfl
  | cons w words ih =>
    obtain ⟨hw, hwords⟩ := List.forall_mem_cons.mp h
    rw [firstWord?, ih hwords]
    cases hp : w.isPrefixOf? s with
    | none => rfl
    | some rest => exact absurd ⟨rest, List.isPrefixOf?_eq_some_iff_append_eq.mp hp⟩ hw

theorem firstWord?_cons_eq_none {words : List (List Char)} {c : Char} {s : List Char}
    (h : ∀ w ∈ words, w ≠ [] ∧ w.head? ≠ some c) : firstWord? words (c :: s) = none := by
  refine firstWord?_eq_none fun w hw hpre => ?_
  obtain ⟨hne, hhead⟩ := h w hw
  obtain ⟨d, w, rfl⟩ := List.exists_cons_of_ne_nil hne
  obtain ⟨rfl, -⟩ := List.cons_prefix_cons.mp hpre
  exact hhead rfl

theorem eq_of_firstWord? {words : List (List Char)} {s w rest : List Char}
    (h : firstWord? words s = some (w, rest)) : w ++ rest = s := by
  fun_induction firstWord? words s with
  | case1 s => simp at h
  | case2 v words s left hv =>
    obtain ⟨rfl, rfl⟩ : v = w ∧ left = rest := by simpa using h
    exact List.isPrefixOf?_eq_some_iff_append_eq.mp hv
  | case3 v words s hv ih => exact ih h

theorem mem_of_firstWord? {words : List (List Char)} {s w rest : List Char}
    (h : firstWord? words s = some (w, rest)) : w ∈ words := by
  fun_induction firstWord? words s with
  | case1 s => simp at h
  | case2 v words s left hv =>
    obtain ⟨rfl, rfl⟩ : v = w ∧ left = rest := by simpa using h
    exact List.mem_cons_self
  | case3 v words s hv ih => exact List.mem_cons_of_mem _ (ih h)

/-- A character of no word ends what a word is looked for in. -/
theorem firstWord?_before {words : List (List Char)} {q : Char} (h : ∀ w ∈ words, q ∉ w)
    (u y : List Char) :
    firstWord? words (u ++ q :: y) =
      (firstWord? words u).map fun (w, rest) => (w, rest ++ q :: y) := by
  have hword : ∀ {w : List Char}, q ∉ w → ∀ u : List Char,
      w.isPrefixOf? (u ++ q :: y) = (w.isPrefixOf? u).map (· ++ q :: y) := by
    intro w hq u
    induction w generalizing u with
    | nil => simp [List.isPrefixOf?]
    | cons d w ih =>
      have hd : d ≠ q := fun hd => hq (by simp [hd])
      cases u with
      | nil => simp [List.isPrefixOf?, hd]
      | cons e u =>
        simp only [List.cons_append, List.isPrefixOf?]
        split
        · exact ih (fun h => hq (by simp [h])) u
        · rfl
  induction words with
  | nil => rfl
  | cons w words ih =>
    obtain ⟨hw, hwords⟩ := List.forall_mem_cons.mp h
    rw [firstWord?, firstWord?, hword hw u, ih hwords]
    cases w.isPrefixOf? u <;> rfl

end SuiteScope.Text
