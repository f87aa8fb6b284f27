import SuiteScope.Proofs.Text.Search

/-!
# What a search finds

A match occurs in a text (`Occurs`) if the recognizer succeeds at its place, whatever the search
makes of that place. What a walk meets occurs (`mem_walkFrom`), and each match starts where the walk
goes on after the one before or later (`pairwise_walkFrom`). In particular what a search finds does
not overlap (`pairwise_findAll`). What occurs is found, unless it starts inside a match that is
found (`mem_findAll_or_inside`).

A walk can be taken round by round : it looks for the first match, and after that it is the walk
from the place where it goes on (`walkAfter_next`).
-/

namespace SuiteScope.Text

variable {α : Type} {r : Recognizer α} {next : Match α → Option Nat}

/-- The recognizer succeeds at the place of the match. -/
def Occurs (r : Recognizer α) (s : List Char) (m : Match α) : Prop :=
  ∃ a t, s = a ++ t ∧ matchAt? r a.getLast? (byteSize a) t = some m

/-- A place lies behind the start of a match and before its end. -/
def Match.Inside (m : Match α) (p : Nat) : Prop :=
  m.span.start < p ∧ p < m.span.stop

theorem start_of_matchAt? {before : Option Char} {pos : Nat} {s : List Char} {m : Match α}
    (h : matchAt? r before pos s = some m) : m.span.start = pos := by
  obtain ⟨found, -, rfl⟩ := Option.map_eq_some_iff.mp h
  rfl

/-- What a walk meets occurs, and not before the place where the walk may go on. -/
theorem mem_walkFrom {a s : List Char} {resume : Nat} {m : Match α}
    (h : m ∈ walkFrom r next a.getLast? (byteSize a) resume s) :
    Occurs r (a ++ s) m ∧ resume ≤ m.span.start ∧ byteSize a ≤ m.span.start := by
  induction s generalizing a resume with
  | nil => cases h
  | cons c s ih =>
    have hc := c.utf8Size_pos
    have hbehind {stop : Nat}
        (h : m ∈ walkFrom r next (some c) (byteSize a + c.utf8Size) stop s) :
        Occurs r (a ++ c :: s) m ∧ stop ≤ m.span.start ∧ byteSize a + c.utf8Size ≤ m.span.start := by
      simpa using ih (a := a ++ [c]) (by simpa using h)
    rw [walkFrom] at h
    split at h
    · obtain ⟨hoccurs, hstop, hle⟩ := hbehind h
      exact ⟨hoccurs, hstop, by omega⟩
    next hresume =>
      split at h
      · obtain ⟨hoccurs, hstop, hle⟩ := hbehind h
        exact ⟨hoccurs, hstop, by omega⟩
      next found hfound =>
        have hstart := start_of_matchAt? hfound
        have hhere : Occurs r (a ++ c :: s) found ∧ resume ≤ found.span.start ∧
            byteSize a ≤ found.span.start := ⟨⟨a, c :: s, rfl, hfound⟩, by omega, by omega⟩
        split at h
        · obtain rfl := List.mem_singleton.mp h
          exact hhere
        · rcases List.mem_cons.mp h with rfl | h
          · exact hhere
          · obtain ⟨hoccurs, -, hle⟩ := hbehind h
            exact ⟨hoccurs, by omega, by omega⟩

/-- Of two matches that a walk meets, the second one starts behind the start of the first one, and
where the walk goes on or later. -/
theorem pairwise_walkFrom (a s : List Char) (resume : Nat) :
    (walkFrom r next a.getLast? (byteSize a) resume s).Pairwise fun m m' =>
      m.span.start < m'.span.start ∧ ∃ stop, next m = some stop ∧ stop ≤ m'.span.start := by
  induction s generalizing a resume with
  | nil => exact List.Pairwise.nil
  | cons c s ih =>
    have hbehind (stop : Nat) := ih (a ++ [c]) stop
    simp only [List.getLast?_concat, byteSize_append, byteSize_cons, byteSize_nil, Nat.add_zero]
      at hbehind
    rw [walkFrom]
    split
    · exact hbehind resume
    · split
      · exact hbehind resume
      next m hm =>
        split
        · exact List.pairwise_singleton _ _
        next stop hstop =>
          refine (hbehind stop).cons fun m' hm' => ?_
          obtain ⟨-, hle, hplace⟩ := mem_walkFrom (a := a ++ [c]) (by simpa using hm')
          have hstart := start_of_matchAt? hm
          have hc := c.utf8Size_pos
          simp only [byteSize_append, byteSize_cons] at hplace
          exact ⟨by omega, stop, hstop, hle⟩

theorem mem_findFrom {a s : List Char} {resume : Nat} {m : Match α}
    (h : m ∈ findFrom r a.getLast? (byteSize a) resume s) :
    Occurs r (a ++ s) m ∧ resume ≤ m.span.start := by
  rw [findFrom_eq_walkFrom] at h
  obtain ⟨hoccurs, hresume, -⟩ := mem_walkFrom h
  exact ⟨hoccurs, hresume⟩

theorem pairwise_findFrom (a s : List Char) (resume : Nat) :
    (findFrom r a.getLast? (byteSize a) resume s).Pairwise
      fun m m' => m.span.stop ≤ m'.span.start := by
  rw [findFrom_eq_walkFrom]
  refine (pairwise_walkFrom a s resume).imp ?_
  rintro m m' ⟨-, stop, hstop, hle⟩
  obtain rfl := Option.some.inj hstop
  exact hle

/-- The places that a search passes over before `resume` aside, a match is found or starts inside
one that is. -/
theorem mem_findFrom_or_inside {a x s : List Char} {c : Char} {resume : Nat} {m : Match α}
    (h : matchAt? r (a ++ x).getLast? (byteSize (a ++ x)) (c :: s) = some m) :
    m.span.start < resume ∨ m ∈ findFrom r a.getLast? (byteSize a) resume (x ++ c :: s) ∨
      ∃ m' ∈ findFrom r a.getLast? (byteSize a) resume (x ++ c :: s), m'.Inside m.span.start := by
  have hstart := start_of_matchAt? h
  induction x generalizing a resume with
  | nil =>
    rw [List.append_nil] at h hstart
    rw [List.nil_append, findFrom]
    split
    · exact .inl (by omega)
    · rw [h]
      exact .inr (.inl List.mem_cons_self)
  | cons d x ih =>
    have hbehind (stop : Nat) := @ih (a ++ [d]) stop (by simpa using h) (by simpa using hstart)
    simp only [List.getLast?_concat, byteSize_append, byteSize_cons, byteSize_nil, Nat.add_zero]
      at hbehind
    rw [List.cons_append, findFrom]
    split
    · exact hbehind resume
    · split
      next found hfound =>
        have hd := d.utf8Size_pos
        have hfirst := start_of_matchAt? hfound
        rw [byteSize_append, byteSize_cons] at hstart
        refine .inr ?_
        rcases hbehind found.span.stop with hstop | hmem | ⟨m', hmem, hinside⟩
        · exact .inr ⟨found, List.mem_cons_self, by omega, hstop⟩
        · exact .inl (List.mem_cons_of_mem _ hmem)
        · exact .inr ⟨m', List.mem_cons_of_mem _ hmem, hinside⟩
      · exact hbehind resume

theorem occurs_of_mem_findAll {s : List Char} {m : Match α} (h : m ∈ findAll r s) :
    Occurs r s m :=
  (mem_findFrom (a := []) h).1

theorem pairwise_findAll (s : List Char) :
    (findAll r s).Pairwise fun m m' => m.span.stop ≤ m'.span.start :=
  pairwise_findFrom [] s 0

theorem Occurs.start_le_stop {s : List Char} {m : Match α} (h : Occurs r s m) :
    m.span.start ≤ m.span.stop := by
  obtain ⟨a, t, -, hm⟩ := h
  obtain ⟨found, -, rfl⟩ := Option.map_eq_some_iff.mp hm
  exact Nat.le_add_right _ _

/-- Of a recognizer that fails at the end of a text every match starts before the end. -/
theorem Occurs.start_lt (hend : ∀ before, r before [] = none) {s : List Char} {m : Match α}
    (h : Occurs r s m) : m.span.start < byteSize s := by
  obtain ⟨a, t, rfl, hm⟩ := h
  cases t with
  | nil => simp [matchAt?, hend] at hm
  | cons c t =>
    have hc := c.utf8Size_pos
    rw [start_of_matchAt? hm, byteSize_append, byteSize_cons]
    omega

theorem not_inside_of_mem_findAll {s : List Char} {m m' : Match α} (h : m ∈ findAll r s)
    (h' : m' ∈ findAll r s) : ¬m.Inside m'.span.start := by
  have hle := (occurs_of_mem_findAll h).start_le_stop
  have hle' := (occurs_of_mem_findAll h').start_le_stop
  have hapart := List.pairwise_iff_getElem.mp (pairwise_findAll (r := r) s)
  obtain ⟨i, hi, rfl⟩ := List.mem_iff_getElem.mp h
  obtain ⟨j, hj, rfl⟩ := List.mem_iff_getElem.mp h'
  rintro ⟨hstart, hstop⟩
  rcases Nat.lt_trichotomy i j with hij | rfl | hij
  · have := hapart i j hi hj hij
    omega
  · exact Nat.lt_irrefl _ hstart
  · have := hapart j i hj hi hij
    omega

/-- A match that occurs is found or starts inside one that is. The end of the text, where a search
does not look, has to hold no match. -/
theorem mem_findAll_or_inside (hend : ∀ before, r before [] = none) {s : List Char} {m : Match α}
    (h : Occurs r s m) : m ∈ findAll r s ∨ ∃ m' ∈ findAll r s, m'.Inside m.span.start := by
  obtain ⟨a, t, rfl, hm⟩ := h
  cases t with
  | nil => simp [matchAt?, hend] at hm
  | cons c t => exact (mem_findFrom_or_inside (a := []) hm).resolve_left (by omega)

/-! ## Round by round -/

theorem exists_of_find? {a s : List Char} {m : Match α}
    (h : find? r a.getLast? (byteSize a) s = some m) :
    ∃ x t, s = x ++ t ∧ matchAt? r (a ++ x).getLast? (byteSize (a ++ x)) t = some m := by
  induction s generalizing a with
  | nil => exact ⟨[], [], rfl, by simpa [find?] using h⟩
  | cons c s ih =>
    rw [find?] at h
    split at h
    next found hfound =>
      obtain rfl := Option.some.inj h
      exact ⟨[], c :: s, rfl, by simpa using hfound⟩
    · obtain ⟨x, t, rfl, ht⟩ := ih (a := a ++ [c]) (by simpa using h)
      exact ⟨c :: x, t, rfl, by simpa using ht⟩

/-- A walk that looks at `c` and fails there goes on behind `c`. -/
theorem walkAfter_cons {a s : List Char} {c : Char}
    (h : matchAt? r a.getLast? (byteSize a) (c :: s) = none) :
    walkAfter r next a (c :: s) = walkAfter r next (a ++ [c]) s := by
  simp [walkAfter, walkFrom, h]

theorem walkAfter_eq_nil {a s : List Char} (h : find? r a.getLast? (byteSize a) s = none) :
    walkAfter r next a s = [] := by
  induction s generalizing a with
  | nil => rfl
  | cons c s ih =>
    rw [find?] at h
    split at h
    · cases h
    next hfound => rw [walkAfter_cons hfound, ih (by simpa using h)]

/-- Behind the first match a walk goes on from the character after the start of that match. -/
theorem walkAfter_first (next : Match α → Option Nat) (hend : ∀ before, r before [] = none)
    {a s : List Char} {m : Match α}
    (h : find? r a.getLast? (byteSize a) s = some m) :
    ∃ x c t, a ++ s = x ++ c :: t ∧ byteSize x = m.span.start ∧
      walkAfter r next a s = (next m).elim [m] fun stop =>
        m :: walkFrom r next (x ++ [c]).getLast? (byteSize (x ++ [c])) stop t := by
  induction s generalizing a with
  | nil => simp [find?, matchAt?, hend] at h
  | cons c s ih =>
    rw [find?] at h
    split at h
    next found hfound =>
      obtain rfl := Option.some.inj h
      refine ⟨a, c, s, rfl, (start_of_matchAt? hfound).symm, ?_⟩
      rw [walkAfter, walkFrom, if_neg (Nat.not_lt_zero _), hfound]
      cases hnext : next found <;> simp [hnext]
    next hfound =>
      rw [walkAfter_cons hfound]
      simpa using ih (a := a ++ [c]) (by simpa using h)

theorem walkAfter_last (hend : ∀ before, r before [] = none) {a s : List Char} {m : Match α}
    (h : find? r a.getLast? (byteSize a) s = some m) (hnext : next m = none) :
    walkAfter r next a s = [m] := by
  obtain ⟨x, c, t, -, -, hwalk⟩ := walkAfter_first next hend h
  rw [hwalk, hnext, Option.elim_none]

/-- After a match a walk that gets ahead is the walk from the place where it goes on. -/
theorem walkAfter_next (hend : ∀ before, r before [] = none) {a s b t : List Char} {m : Match α}
    (h : find? r a.getLast? (byteSize a) s = some m) (hnext : next m = some (byteSize b))
    (hahead : m.span.start < byteSize b) (hplace : a ++ s = b ++ t) :
    walkAfter r next a s = m :: walkAfter r next b t := by
  obtain ⟨x, c, u, hsplit, hx, hwalk⟩ := walkAfter_first next hend h
  -- the walk goes on behind `x`, so the character there belongs to `b`
  obtain ⟨y, rfl, rfl⟩ : ∃ y, b = x ++ [c] ++ y ∧ u = y ++ t := by
    rcases List.append_eq_append_iff.mp (hsplit.symm.trans hplace) with ⟨v, rfl, hv⟩ | ⟨v, rfl, -⟩
    · cases v with
      | nil => simp [hx] at hahead
      | cons d y =>
        obtain ⟨rfl, rfl⟩ := List.cons.inj hv
        exact ⟨y, by simp, rfl⟩
    · rw [← hx, byteSize_append] at hahead
      omega
  rw [hwalk, hnext, Option.elim_some, walkFrom_passed (Nat.le_refl _),
    walkFrom_of_le (Nat.le_refl _), walkAfter]

end SuiteScope.Text
