import SuiteScope.Proofs.Source.Blanked
import SuiteScope.Proofs.Source.Forest
import SuiteScope.Proofs.Text.Found

/-!
# Heads as they stand

What `callHead?` reads is the text of a `Call` with white space on either side of the parenthesis :
its lead (`Call.lead`), and the label in quotes (`exists_call`, `exists_written`). So a head is one
whatever stands around it (`occurs_of_part`).

The lead of a case is plain, and no other case head starts in it (`quiet_caseLead`). So a case head
in code keeps to itself : where another one starts inside it, there is skipped text
(`covered_of_inside`).
-/

namespace SuiteScope.Source

open SuiteScope.Text

section

variable {callees modifiers : List (List Char)}

/-- Whether no callee starts inside the text or reaches over its end, for all that words go on. -/
def alone (callees : List (List Char)) : (before : Option Char) → List Char → Bool
  | _, [] => true
  | before, c :: x =>
    (callees.all (fun w => Apart w (c :: x)) || !isWordStart before) && alone callees (some c) x

/-! ## Reading backwards -/

theorem untilQuote?_eq_some {q : Quote} {s label rest : List Char}
    (h : untilQuote? q s = some (label, rest)) :
    s = label ++ q.char :: rest ∧ q.fits label = true := by
  fun_induction untilQuote? q s generalizing label with
  | case1 => cases h
  | case2 => cases h
  | case3 c s ih =>
    obtain ⟨⟨label, rest⟩, hs, heq⟩ := Option.map_eq_some_iff.mp h
    obtain ⟨rfl, rfl⟩ := Prod.mk.inj heq
    obtain ⟨rfl, hfits⟩ := ih hs
    exact ⟨rfl, by rwa [Quote.fits]⟩
  | case4 s hlone hpair =>
    obtain ⟨rfl, rfl⟩ : [] = label ∧ s = rest := by simpa using h
    exact ⟨rfl, rfl⟩
  | case5 c s hlone hpair hc ih =>
    obtain ⟨⟨label, rest⟩, hs, heq⟩ := Option.map_eq_some_iff.mp h
    obtain ⟨rfl, rfl⟩ := Prod.mk.inj heq
    obtain ⟨rfl, hfits⟩ := ih hs
    have hslash : c ≠ '\\' := by
      rintro rfl
      cases hlabel : label ++ q.char :: rest with
      | nil => exact hlone rfl hlabel
      | cons d t => exact hpair d t rfl hlabel
    refine ⟨rfl, ?_⟩
    rw [Quote.fits.eq_def]
    split <;> simp_all

theorem exists_label {s label rest : List Char} (h : quoted? s = some (label, rest)) :
    ∃ l : Label, l.text = label ∧ s = l.written ++ rest := by
  cases s with
  | nil => cases h
  | cons c s =>
    obtain ⟨q, hq, hs⟩ := Option.bind_eq_some_iff.mp h
    obtain rfl := Quote.ofChar?_eq_some_iff.mp hq
    obtain ⟨rfl, hfits⟩ := untilQuote?_eq_some hs
    exact ⟨⟨q, label, hfits⟩, rfl, by simp [Label.written, literal]⟩

theorem exists_modifier (modifiers : List (List Char)) (s : List Char) :
    ∃ m ∈ [] :: modifiers, s = m ++ afterModifier modifiers s := by
  unfold afterModifier
  split
  next m rest hm =>
    exact ⟨m, List.mem_cons_of_mem _ (mem_of_firstWord? hm), (eq_of_firstWord? hm).symm⟩
  · exact ⟨[], List.mem_cons_self, rfl⟩

theorem exists_call {before : Option Char} {s rest : List Char} {head : CallHead}
    (h : callHead? callees modifiers before s = some (head, rest)) :
    isWordStart before = true ∧ ∃ (call : Call callees modifiers) (gap gap' : List Char),
      gap.all isBlank = true ∧ gap'.all isBlank = true ∧
        s = call.lead gap gap' ++ (call.label.written ++ rest) ∧
        head = ⟨byteSize (call.name ++ gap), String.ofList call.label.text⟩ := by
  unfold callHead? at h
  split at h
  next hb =>
    obtain ⟨⟨callee, named⟩, hcallee, h⟩ := Option.bind_eq_some_iff.mp h
    obtain rfl := eq_of_firstWord? hcallee
    dsimp only at h
    split at h
    next arguments harguments =>
      obtain ⟨⟨label, rest⟩, hlabel, heq⟩ := Option.map_eq_some_iff.mp h
      obtain ⟨rfl, rfl⟩ := Prod.mk.inj heq
      obtain ⟨l, rfl, hl⟩ := exists_label hlabel
      obtain ⟨m, hm, hnamed⟩ := exists_modifier modifiers named
      have hgap := List.takeWhile_append_dropWhile (p := isBlank)
        (l := afterModifier modifiers named)
      have hgap' := List.takeWhile_append_dropWhile (p := isBlank) (l := arguments)
      rw [harguments] at hgap
      rw [hl] at hgap'
      refine ⟨hb, ⟨callee, m, l, mem_of_firstWord? hcallee, hm⟩,
        (afterModifier modifiers named).takeWhile isBlank, arguments.takeWhile isBlank,
        List.all_takeWhile, List.all_takeWhile, ?_, ?_⟩
      · conv_lhs => rw [hnamed, ← hgap, ← hgap']
        simp [Call.lead, Call.name]
      · have hnamed := congrArg byteSize hnamed
        have hgap := congrArg byteSize hgap
        simp only [byteSize_append, byteSize_cons, utf8Size_parenthesis] at hnamed hgap
        congr 1
        simp only [Call.name, byteSize_append]
        omega
    · cases h
  · cases h

/-- The anatomy of a head of the text. -/
theorem exists_written {s : List Char} {m : Match CallHead}
    (h : Occurs (callHead? callees modifiers) s m) :
    ∃ (a : List Char) (call : Call callees modifiers) (gap gap' b : List Char),
      gap.all isBlank = true ∧ gap'.all isBlank = true ∧
        s = a ++ (call.lead gap gap' ++ (call.label.written ++ b)) ∧
        m = ⟨⟨byteSize a, byteSize (a ++ (call.lead gap gap' ++ call.label.written))⟩,
          ⟨byteSize (call.name ++ gap), String.ofList call.label.text⟩⟩ := by
  obtain ⟨a, t, rfl, hm⟩ := h
  obtain ⟨⟨head, b⟩, hread, rfl⟩ := Option.map_eq_some_iff.mp hm
  obtain ⟨-, call, gap, gap', hgap, hgap', rfl, rfl⟩ := exists_call hread
  refine ⟨a, call, gap, gap', b, hgap, hgap', rfl, ?_⟩
  simp only [byteSize_append]
  congr 2
  omega

/-! ## Heads in a part of a text -/

/-- Reading a head looks at nothing behind it. -/
theorem Vocabulary.callHead?_append (h : Vocabulary callees modifiers) {before : Option Char}
    {s rest : List Char} {head : CallHead}
    (hread : callHead? callees modifiers before s = some (head, rest)) (t : List Char) :
    callHead? callees modifiers before (s ++ t) = some (head, rest ++ t) := by
  obtain ⟨hb, call, gap, gap', hgap, hgap', rfl, rfl⟩ := exists_call hread
  simpa only [List.append_assoc] using h.callHead?_lead call hgap hgap' hb (rest ++ t)

/-- A head in a part of a text is a head of the text, if the part starts where a word may. -/
theorem Vocabulary.occurs_of_part (h : Vocabulary callees modifiers) {a s : List Char}
    {m : Match CallHead} (ha : isWordStart a.getLast? = true)
    (hm : Occurs (callHead? callees modifiers) s m) (b : List Char) :
    Occurs (callHead? callees modifiers) (a ++ (s ++ b)) (m.shift (byteSize a)) := by
  obtain ⟨u, t, rfl, hm⟩ := hm
  obtain ⟨⟨head, rest⟩, hread, rfl⟩ := Option.map_eq_some_iff.mp hm
  have hb : isWordStart (a ++ u).getLast? = true := by
    have hu := (exists_call hread).1
    rw [List.getLast?_append]
    cases hlast : u.getLast? with
    | none => exact ha
    | some c => rwa [hlast] at hu
  have hwhole : callHead? callees modifiers (a ++ u).getLast? (t ++ b) =
      some (head, rest ++ b) :=
    h.callHead?_append ((callHead?_before hb (exists_call hread).1 t).trans hread) b
  refine ⟨a ++ u, t ++ b, by simp only [List.append_assoc], ?_⟩
  rw [matchAt?, hwhole, Option.map_some, Match.shift]
  simp only [byteSize_append, Nat.add_sub_add_right, Nat.add_assoc]

/-! ## The lead -/

theorem isPlain_of_isBlank {c : Char} (h : isBlank c = true) : isPlain c = true := by
  have hslash : c ≠ '/' := by rintro rfl; simp [isBlank] at h
  have hquote : Quote.ofChar? c = none := by
    cases hq : Quote.ofChar? c with
    | none => rfl
    | some q =>
      rw [Quote.ofChar?_eq_some_iff.mp hq, isBlank_quote] at h
      cases h
  simp [isPlain, hslash, hquote]

theorem Vocabulary.all_lead (h : Vocabulary callees modifiers) (call : Call callees modifiers)
    {gap gap' : List Char} (hgap : gap.all isBlank = true) (hgap' : gap'.all isBlank = true) :
    (call.lead gap gap').all isPlain = true := by
  have hname := List.all_eq_true.mp (h.all_name call)
  simp only [Call.lead, List.all_append, List.all_cons, Bool.and_eq_true, List.all_eq_true]
  exact ⟨fun c hc => isPlain_of_isNameChar (hname c hc),
    fun c hc => isPlain_of_isBlank (List.all_eq_true.mp hgap c hc), by decide,
    fun c hc => isPlain_of_isBlank (List.all_eq_true.mp hgap' c hc)⟩

/-- No head starts with a character of no name. -/
theorem Vocabulary.quiet_of_not_name (h : Vocabulary callees modifiers) {x : List Char}
    (hx : ∀ c ∈ x, isNameChar c = false) (before : Option Char) (y : List Char) :
    Quiet (callHead? callees modifiers) before x y := by
  refine quiet_of_forall fun c hc before s => ?_
  have hnone := firstWord?_cons_eq_none (s := s) (c := c) fun w hw => by
    obtain ⟨hne, hname⟩ := h.callees_name w hw
    refine ⟨hne, fun hhead => ?_⟩
    have hmem := List.all_eq_true.mp hname c (List.mem_of_mem_head? hhead)
    rw [hx c hc] at hmem
    cases hmem
  simp [callHead?, hnone]

theorem quiet_of_alone {before : Option Char} {x : List Char}
    (hx : alone callees before x = true) (y : List Char) :
    Quiet (callHead? callees modifiers) before x y := by
  induction x generalizing before with
  | nil => trivial
  | cons c x ih =>
    simp only [alone, Bool.and_eq_true, Bool.or_eq_true, List.all_eq_true, decide_eq_true_eq,
      Bool.not_eq_true'] at hx
    refine ⟨?_, ih hx.2⟩
    rcases hx.1 with hapart | hword
    · have hnone : firstWord? callees (c :: (x ++ y)) = none := firstWord?_eq_none fun w hw hpre =>
        (List.prefix_or_prefix_of_prefix hpre (List.prefix_append (c :: x) y)).elim
          (hapart w hw).1 (hapart w hw).2
      simp [callHead?, hnone]
    · simp [callHead?, hword]

end

/-- Behind its first character the lead of a case has no place where a case head starts. -/
theorem quiet_caseLead (case : CaseCall) {gap gap' : List Char}
    (hgap : gap.all isBlank = true) (hgap' : gap'.all isBlank = true) {c : Char} {x : List Char}
    (h : case.lead gap gap' = c :: x) (y : List Char) : Quiet caseHead? (some c) x y := by
  have halone : alone caseCallees case.name.head? case.name.tail = true := by
    have hall : ∀ callee ∈ caseCallees, ∀ modifier ∈ [] :: caseModifiers,
        alone caseCallees (callee ++ modifier).head? (callee ++ modifier).tail = true := by
      decide +kernel
    exact hall _ case.callee_mem _ case.modifier_mem
  have hplain : ∀ d ∈ gap ++ '(' :: gap', isNameChar d = false := by
    simp only [List.mem_append, List.mem_cons]
    rintro d (hd | rfl | hd)
    · exact not_isNameChar_of_isBlank (List.all_eq_true.mp hgap d hd)
    · decide
    · exact not_isNameChar_of_isBlank (List.all_eq_true.mp hgap' d hd)
  obtain ⟨d, callee, hcallee⟩ :=
    List.exists_cons_of_ne_nil (vocabulary_case.callees_name _ case.callee_mem).1
  have hname : case.name = d :: (callee ++ case.modifier) := by rw [Call.name, hcallee]; rfl
  rw [hname] at halone
  rw [Call.lead, hname] at h
  obtain ⟨rfl, rfl⟩ := List.cons.inj h
  exact quiet_append (quiet_of_alone halone _) (vocabulary_case.quiet_of_not_name hplain _ y)

/-! ## Heads inside a head -/

/-- No case head starts in the lead of another one. -/
theorem size_caseLead_le (case : CaseCall) {gap gap' u x w t : List Char}
    (hgap : gap.all isBlank = true) (hgap' : gap'.all isBlank = true) (hx : x ≠ [])
    (h : case.lead gap gap' ++ w = x ++ t) (hne : caseHead? (u ++ x).getLast? t ≠ none) :
    byteSize (case.lead gap gap') ≤ byteSize x := by
  rcases List.append_eq_append_iff.mp h with ⟨v, rfl, -⟩ | ⟨v, hlead, rfl⟩
  · simp
  · cases v with
    | nil => simp [hlead]
    | cons d v =>
      obtain ⟨c, x, rfl⟩ := List.exists_cons_of_ne_nil hx
      have hquiet := quiet_caseLead case hgap hgap' hlead w
      refine absurd ?_ hne
      simpa [List.getLast?_append, List.getLast?_cons] using eq_none_of_quiet hquiet

/-- In a head that stands in code the label is skipped text. -/
theorem covered_label (case : CaseCall) {gap gap' : List Char} (hgap : gap.all isBlank = true)
    (hgap' : gap'.all isBlank = true) {k : Nat} (hk : k < byteSize case.label.written)
    (s : List Char) :
    covered (marked (case.lead gap gap' ++ (case.label.written ++ s)))
      (byteSize (case.lead gap gap') + k) = true := by
  have hplain := vocabulary_case.all_lead case hgap hgap'
  rw [(settled_of_plain hplain).covered_add, Label.written, marked_literal case.label.fits]
  exact covered_map hk true _

/-- A case head that starts inside another one, which is code, is skipped text. The heads stand in a
part of the source. -/
theorem covered_of_inside {a s b : List Char} {m m' : Match CallHead}
    (hm : Occurs caseHead? s m) (hm' : Occurs caseHead? s m') (hinside : m.Inside m'.span.start)
    (hcode : covered (marked (a ++ (s ++ b))) (byteSize a + m.span.start) = false) :
    covered (marked (a ++ (s ++ b))) (byteSize a + m'.span.start) = true := by
  obtain ⟨u, case, gap, gap', rest, hgap, hgap', rfl, rfl⟩ := exists_written hm
  obtain ⟨u', t', heq, hm'⟩ := hm'
  obtain ⟨found, hfound, rfl⟩ := Option.map_eq_some_iff.mp hm'
  obtain ⟨hbefore, hbehind⟩ := hinside
  simp only [byteSize_append] at hbefore hbehind hcode ⊢
  -- the other head starts behind `x`, which is longer than the lead
  obtain ⟨x, rfl, hx⟩ : ∃ x, u' = u ++ x ∧
      case.lead gap gap' ++ (case.label.written ++ rest) = x ++ t' := by
    rcases List.append_eq_append_iff.mp heq with hright | ⟨x, rfl, -⟩
    · exact hright
    · rw [byteSize_append] at hbefore
      omega
  have hne : x ≠ [] := by
    rintro rfl
    simp at hbefore
  have hlead := size_caseLead_le case (u := u) hgap hgap' hne hx (by rw [hfound]; exact nofun)
  obtain ⟨k, hk⟩ := Nat.exists_eq_add_of_le hlead
  rw [byteSize_append, hk] at hbehind
  simp only [List.append_assoc] at hcode
  obtain ⟨l, hl, hmarks⟩ := marked_append (a := a ++ u)
    (s := case.lead gap gap' ++ (case.label.written ++ (rest ++ b)))
    (by simpa only [List.append_assoc, byteSize_append] using hcode)
  have hplace : byteSize a + byteSize (u ++ x) =
      byteSize (l.map (·.1)) + (byteSize (case.lead gap gap') + k) := by
    simp only [hl, byteSize_append, hk, Nat.add_assoc]
  simp only [List.append_assoc] at hmarks ⊢
  rw [hplace, hmarks, covered_append]
  exact covered_label case hgap hgap' (by omega) _

end SuiteScope.Source
