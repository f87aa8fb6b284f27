import SuiteScope.Proofs.Source.Extent

/-!
# Rounds of the walk

The walk through a source is a loop. A round looks for the first head from some place on and goes on
behind what belongs to that head. `Rounds` is such a loop : there is no round at an offset inside a
character or beyond the end, so a loop that comes there is stuck.

A round goes on behind its head, at a place of the source, and all it reads on the way are parts of
the source (`Round.Ahead`). So there is a way through the loop, and it is the only one. It meets the
heads that `visits` tells (`rounds_visits`).
-/

namespace SuiteScope.Source

open SuiteScope.Text

/-- The first head from a place of the source on. -/
def headFrom? (s : List Char) (pos : Nat) : Option (Match CallHead) :=
  find? sectionHead? (takeBytes pos s).getLast? pos (dropBytes pos s)

/-- A round of the loop : the place where it starts, and what it finds. -/
structure Round where
  pos : Nat
  visit : Visit

/-- The rounds of the loop from a place on, up to the last one. -/
inductive Rounds (s : List Char) : (pos : Nat) → List Round → Prop
  /-- There is no other head. -/
  | ended {pos : Nat} (place : Boundary s pos) (none : headFrom? s pos = none) : Rounds s pos []
  /-- The body of the head does not end. -/
  | last {pos : Nat} {m : Match CallHead} (place : Boundary s pos)
    (found : headFrom? s pos = some m) (stop : (visitOf s m).resume = none) :
    Rounds s pos [⟨pos, visitOf s m⟩]
  | next {pos next : Nat} {m : Match CallHead} {rounds : List Round} (place : Boundary s pos)
    (found : headFrom? s pos = some m) (goesOn : (visitOf s m).resume = some next)
    (behind : Rounds s next rounds) : Rounds s pos (⟨pos, visitOf s m⟩ :: rounds)

/-- What a round reads are parts of the source, and it gets ahead. -/
structure Round.Ahead (s : List Char) (r : Round) : Prop where
  place : Boundary s r.pos
  start : r.pos ≤ r.visit.head.span.start
  head : Stands s r.visit.head
  callEnd : ∀ callEnd, matchingClose? s r.visit.parenthesis = some callEnd →
    r.visit.head.span.stop ≤ callEnd
  body : ∀ opening closing, r.visit.extent = .body opening closing →
    Boundary s (opening + 1) ∧ Boundary s (closing.getD (byteSize s)) ∧
      opening + 1 ≤ closing.getD (byteSize s)
  resume : ∀ next, r.visit.resume = some next →
    r.visit.head.span.stop ≤ next ∧ next ≤ byteSize s ∧ Boundary s next

section

variable {s : List Char}

/-! ## One round -/

theorem headFrom?_byteSize (a t : List Char) :
    headFrom? (a ++ t) (byteSize a) = find? sectionHead? a.getLast? (byteSize a) t := by
  rw [headFrom?, takeBytes_byteSize, dropBytes_byteSize]

/-- What is found from a boundary on occurs behind it. -/
theorem occurs_of_headFrom? {pos : Nat} {m : Match CallHead} (hplace : Boundary s pos)
    (h : headFrom? s pos = some m) : Occurs sectionHead? s m ∧ pos ≤ m.span.start := by
  obtain ⟨a, t, rfl, rfl⟩ := hplace
  rw [headFrom?_byteSize] at h
  obtain ⟨x, t, rfl, hm⟩ := exists_of_find? h
  refine ⟨⟨a ++ x, t, by simp, hm⟩, ?_⟩
  rw [start_of_matchAt? hm, byteSize_append]
  exact Nat.le_add_right _ _

theorem boundary_of_matchingClose? {i c : Nat} (h : matchingClose? s i = some c) :
    i < c ∧ Boundary s (c + 1) := by
  obtain ⟨opening, close, a, x, t, hd, rfl, rfl, rfl⟩ := exists_block h
  have hsize : close.utf8Size = 1 := by
    have hall : ∀ d ∈ delimiters, d.2.utf8Size = 1 := by decide
    exact hall _ hd
  have hopen := opening.utf8Size_pos
  exact ⟨by simp; omega, a ++ opening :: (x ++ [close]), t, by simp, by simp [hsize]; omega⟩

/-- Wherever a visit goes on, it does so behind its head. -/
theorem resume_visitOf {m : Match CallHead} (h : Occurs sectionHead? s m) {next : Nat}
    (hnext : (visitOf s m).resume = some next) : m.span.stop ≤ next ∧ Boundary s next := by
  cases hextent : extentOf s (skippedRanges s) m with
  | inert =>
    rw [visitOf, hextent] at hnext
    obtain rfl := Option.some.inj hnext
    exact ⟨Nat.le_refl _, (stands h).stop⟩
  | bodiless callEnd =>
    rw [visitOf, hextent] at hnext
    cases callEnd with
    | none =>
      obtain rfl := Option.some.inj hnext
      exact ⟨Nat.le_refl _, (stands h).stop⟩
    | some callEnd =>
      obtain rfl := Option.some.inj hnext
      have hclose := (extentOf_eq_bodiless hextent).2
      have := stop_le_callEnd h hclose
      exact ⟨by omega, (boundary_of_matchingClose? hclose).2⟩
  | body opening closing =>
    rw [visitOf, hextent] at hnext
    obtain ⟨close, rfl, rfl⟩ := Option.map_eq_some_iff.mp hnext
    have hbody := isBody_of_extentOf h hextent
    obtain ⟨hlt, hplace⟩ := boundary_of_matchingClose? hbody.counterpart
    have := hbody.behind
    exact ⟨by omega, hplace⟩

/-- Every round gets ahead, wherever it starts. -/
theorem ahead_of_headFrom? {pos : Nat} {m : Match CallHead} (hplace : Boundary s pos)
    (h : headFrom? s pos = some m) : Round.Ahead s ⟨pos, visitOf s m⟩ := by
  obtain ⟨hoccurs, hstart⟩ := occurs_of_headFrom? hplace h
  refine ⟨hplace, hstart, stands hoccurs, fun callEnd => stop_le_callEnd hoccurs, ?_, ?_⟩
  · intro opening closing hextent
    obtain ⟨a, b, hs, rfl, hstop⟩ := (isBody_of_extentOf hoccurs hextent).place
    generalize bodyText s (byteSize a) closing = x at hs hstop
    rw [hstop]
    exact ⟨⟨a ++ ['{'], x ++ b, by simpa using hs, by simp⟩,
      ⟨a ++ '{' :: x, b, by simpa using hs, rfl⟩, by simp⟩
  · intro next hnext
    obtain ⟨hle, hboundary⟩ := resume_visitOf hoccurs hnext
    exact ⟨hle, hboundary.le, hboundary⟩

/-- The search goes on behind the start of what has been found. -/
theorem lt_of_headFrom? {pos next : Nat} {m : Match CallHead} (hplace : Boundary s pos)
    (h : headFrom? s pos = some m) (hnext : (visitOf s m).resume = some next) :
    pos ≤ m.span.start ∧ m.span.start < next := by
  obtain ⟨hoccurs, hstart⟩ := occurs_of_headFrom? hplace h
  have hinside := (stands hoccurs).inside
  have hstop := (resume_visitOf hoccurs hnext).1
  exact ⟨hstart, by omega⟩

/-! ## All rounds -/

/-- The loop has no choice. -/
theorem Rounds.unique {pos : Nat} {rounds rounds' : List Round} (h : Rounds s pos rounds)
    (h' : Rounds s pos rounds') : rounds = rounds' := by
  induction h generalizing rounds' with
  | ended place none =>
    cases h' with
    | ended => rfl
    | last _ found | next _ found => simp [none] at found
  | last place found stop =>
    cases h' with
    | ended _ none => simp [found] at none
    | last _ found' =>
      obtain rfl := Option.some.inj (found.symm.trans found')
      rfl
    | next _ found' goesOn =>
      obtain rfl := Option.some.inj (found.symm.trans found')
      simp [stop] at goesOn
  | next place found goesOn behind ih =>
    cases h' with
    | ended _ none => simp [found] at none
    | last _ found' stop =>
      obtain rfl := Option.some.inj (found.symm.trans found')
      simp [stop] at goesOn
    | next _ found' goesOn' behind' =>
      obtain rfl := Option.some.inj (found.symm.trans found')
      obtain rfl := Option.some.inj (goesOn.symm.trans goesOn')
      rw [ih behind']

/-- Each round leaves less of the source to the rounds behind it. -/
theorem exists_rounds {a t : List Char} (hs : s = a ++ t) :
    ∃ rounds, Rounds s (byteSize a) rounds ∧ rounds.map (·.visit) =
      (walkAfter sectionHead? (fun m => (visitOf s m).resume) a t).map (visitOf s) := by
  induction hn : byteSize s - byteSize a using Nat.strongRecOn generalizing a t with
  | ind n ih =>
    have hplace : Boundary s (byteSize a) := ⟨a, t, hs, rfl⟩
    have hfind : headFrom? s (byteSize a) = find? sectionHead? a.getLast? (byteSize a) t :=
      hs ▸ headFrom?_byteSize a t
    cases hfound : headFrom? s (byteSize a) with
    | none =>
      exact ⟨[], .ended hplace hfound, by rw [walkAfter_eq_nil (hfind ▸ hfound)]; rfl⟩
    | some m =>
      cases hnext : (visitOf s m).resume with
      | none =>
        refine ⟨[⟨byteSize a, visitOf s m⟩], .last hplace hfound hnext, ?_⟩
        rw [walkAfter_last sectionHead?_nil (hfind ▸ hfound) hnext]
        rfl
      | some next =>
        obtain ⟨hstart, hlt⟩ := lt_of_headFrom? hplace hfound hnext
        obtain ⟨-, hle, b, t', hb, rfl⟩ := (ahead_of_headFrom? hplace hfound).resume next hnext
        obtain ⟨rounds, hrounds, hvisits⟩ := ih _ (by omega) hb rfl
        refine ⟨⟨byteSize a, visitOf s m⟩ :: rounds, .next hplace hfound hnext hrounds, ?_⟩
        rw [walkAfter_next sectionHead?_nil (hfind ▸ hfound) hnext hlt (hs ▸ hb), List.map_cons,
          List.map_cons, hvisits]

/-- No round is behind the place at which the loop has started. -/
theorem Rounds.ahead {pos : Nat} {rounds : List Round} (h : Rounds s pos rounds) :
    ∀ r ∈ rounds, pos ≤ r.pos ∧ r.Ahead s := by
  induction h with
  | ended => simp
  | last place found stop =>
    intro r hr
    obtain rfl := List.mem_singleton.mp hr
    exact ⟨Nat.le_refl _, ahead_of_headFrom? place found⟩
  | next place found goesOn behind ih =>
    obtain ⟨hstart, hlt⟩ := lt_of_headFrom? place found goesOn
    intro r hr
    rcases List.mem_cons.mp hr with rfl | hr
    · exact ⟨Nat.le_refl _, ahead_of_headFrom? place found⟩
    · obtain ⟨hle, hr⟩ := ih r hr
      exact ⟨by omega, hr⟩

/-- Every round is farther than those before. -/
theorem Rounds.increasing {pos : Nat} {rounds : List Round} (h : Rounds s pos rounds) :
    rounds.Pairwise fun r r' => r.pos < r'.pos := by
  induction h with
  | ended => exact List.Pairwise.nil
  | last => exact List.pairwise_singleton _ _
  | next place found goesOn behind ih =>
    obtain ⟨hstart, hlt⟩ := lt_of_headFrom? place found goesOn
    refine ih.cons fun r hr => ?_
    exact Nat.lt_of_lt_of_le (Nat.lt_of_le_of_lt hstart hlt) (behind.ahead r hr).1

end

/-- From the start of any source there is one way through the loop, and it comes to an end. Its
rounds are those of `visits`. Each one starts at a later place than the one before and reads nothing
but parts of the source. -/
theorem rounds_visits (s : List Char) :
    ∃ rounds, (∀ rounds', Rounds s 0 rounds' ↔ rounds' = rounds) ∧
      rounds.map (·.visit) = visits s ∧ (rounds.Pairwise fun r r' => r.pos < r'.pos) ∧
      ∀ r ∈ rounds, r.Ahead s := by
  obtain ⟨rounds, hrounds, hvisits⟩ := exists_rounds (s := s) (a := []) (t := s) rfl
  refine ⟨rounds, fun rounds' => ⟨fun h => h.unique hrounds, fun h => h ▸ hrounds⟩, ?_,
    hrounds.increasing, fun r hr => (hrounds.ahead r hr).2⟩
  rw [hvisits, visits, visitsFrom_eq_map]
  rfl

end SuiteScope.Source
