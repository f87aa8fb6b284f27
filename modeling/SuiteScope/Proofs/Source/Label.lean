import SuiteScope.Proofs.Source.Block
import SuiteScope.Proofs.Text.Line
import SuiteScope.Proofs.Text.Search
import SuiteScope.Source.Label

/-!
# Written calls

A `Call` is the head of a section or a case as one writes it : a callee, at most one modifier, and a
label in one of the three quotes. `callHead?` reads it whatever follows (`callHead?_text`), also with
white space on either side of the parenthesis (`callHead?_lead`).

No head starts where the character starts no callee or a word goes on (`quiet_of_idle`), nor in a
piece without parentheses that ends with a quote (`quiet_of_no_parenthesis`).
-/

namespace SuiteScope.Source

open SuiteScope.Text

/-- What callees and modifiers are made of. -/
def isNameChar (c : Char) : Bool :=
  c.isAlpha || c == '.'

/-- The callees and the modifiers of a kind of call : nonempty, made of name characters, and such
that at most one of them starts at a place. -/
structure Vocabulary (callees modifiers : List (List Char)) : Prop where
  callees_apart : callees.Pairwise Apart
  modifiers_apart : modifiers.Pairwise Apart
  callees_name : ∀ w ∈ callees, w ≠ [] ∧ w.all isNameChar = true
  modifiers_name : ∀ w ∈ modifiers, w ≠ [] ∧ w.all isNameChar = true

/-- A label with the quote around it. -/
structure Label where
  quote : Quote
  text : List Char
  fits : quote.fits text = true

/-- The head of a call. -/
structure Call (callees modifiers : List (List Char)) where
  callee : List Char
  modifier : List Char
  label : Label
  callee_mem : callee ∈ callees
  modifier_mem : modifier ∈ [] :: modifiers

/-- The label as it is written. -/
def Label.written (label : Label) : List Char :=
  literal label.quote label.text

section

variable {callees modifiers : List (List Char)}

/-- The name of the call with its modifier. -/
def Call.name (call : Call callees modifiers) : List Char :=
  call.callee ++ call.modifier

/-- The head up to its label, with the white space around the parenthesis. -/
def Call.lead (call : Call callees modifiers) (gap gap' : List Char) : List Char :=
  call.name ++ (gap ++ '(' :: gap')

/-- The head as it is written, up to the quote that ends the label. -/
def Call.text (call : Call callees modifiers) : List Char :=
  call.name ++ '(' :: call.label.written

/-- What reading the head finds. -/
def Call.head (call : Call callees modifiers) : CallHead :=
  ⟨byteSize call.name, String.ofList call.label.text⟩

theorem Call.text_ne_nil (call : Call callees modifiers) : call.text ≠ [] := by
  simp [Call.text]

/-- The names that open sections are words in the sense of `Vocabulary`. -/
theorem vocabulary_section : Vocabulary sectionCallees sectionModifiers :=
  ⟨by decide, by decide, by decide, by decide⟩

/-- So are the names that open cases. -/
theorem vocabulary_case : Vocabulary caseCallees caseModifiers :=
  ⟨by decide, by decide, by decide, by decide⟩

/-! ## Characters -/

/-- A character of a name differs from one that stands in no name. -/
theorem ne_of_isNameChar {c d : Char} (h : isNameChar c = true) (hd : isNameChar d = false) :
    c ≠ d := by
  rintro rfl
  simp [h] at hd

/-- No quote stands in a name. -/
theorem isNameChar_quote (q : Quote) : isNameChar q.char = false := by
  cases q <;> decide

theorem isBlank_quote (q : Quote) : isBlank q.char = false := by
  cases q <;> decide

/-- No white space stands in a name. -/
theorem not_isNameChar_of_isBlank {c : Char} (h : isBlank c = true) : isNameChar c = false := by
  have hcode : c.toNat ∈ [0x20, 0x09, 0x0a, 0x0b, 0x0c, 0x0d] ++ blankCodes := by
    unfold isBlank at h
    split at h
    · simp only [Bool.or_eq_true, Bool.and_eq_true, beq_iff_eq, decide_eq_true_eq] at h
      refine List.mem_append_left _ ?_
      rcases h with rfl | ⟨hlow, hhigh⟩
      · exact List.mem_cons_self
      · simp only [List.mem_cons, List.not_mem_nil, or_false]
        omega
    · exact List.mem_append_right _ (by simpa using h)
  have hall : ∀ n ∈ [0x20, 0x09, 0x0a, 0x0b, 0x0c, 0x0d] ++ blankCodes,
      isNameChar (Char.ofNat n) = false := by decide
  have hname := hall c.toNat hcode
  rwa [Char.ofNat_toNat] at hname

/-- The characters of names are plain. -/
theorem isPlain_of_isNameChar {c : Char} (h : isNameChar c = true) : isPlain c = true := by
  have hslash := ne_of_isNameChar h (d := '/') (by decide)
  have hquote : Quote.ofChar? c = none := by
    cases hq : Quote.ofChar? c with
    | none => rfl
    | some q =>
      exact absurd (Quote.ofChar?_eq_some_iff.mp hq) (ne_of_isNameChar h (isNameChar_quote q))
  simp [isPlain, hslash, hquote]

/-- The name of a call, its modifier included, has characters of names only. -/
theorem Vocabulary.all_name (h : Vocabulary callees modifiers) (call : Call callees modifiers) :
    call.name.all isNameChar = true := by
  have hmodifier : call.modifier.all isNameChar = true := by
    rcases List.mem_cons.mp call.modifier_mem with hm | hm
    · simp [hm]
    · exact (h.modifiers_name _ hm).2
  rw [Call.name, List.all_append, (h.callees_name _ call.callee_mem).2, hmodifier]
  rfl

/-! ## Reading a head -/

/-- A text without its own quote is read up to that quote. -/
theorem untilQuote?_fits {q : Quote} {x : List Char} (h : q.fits x = true) (s : List Char) :
    untilQuote? q (x ++ q.char :: s) = some (x, s) := by
  fun_induction Quote.fits q x with
  | case1 =>
    have hq : q.char ≠ '\\' := by cases q <;> decide
    rw [List.nil_append, untilQuote?.eq_def]
    split <;> simp_all
  | case2 c x ih => simp [untilQuote?, ih h]
  | case3 c x hne ih =>
    simp only [Bool.and_eq_true, bne_iff_ne, ne_eq] at h
    rw [List.cons_append, untilQuote?.eq_def]
    split <;> simp_all

/-- A label is read back from the way it is written. -/
theorem quoted?_written (label : Label) (s : List Char) :
    quoted? (label.written ++ s) = some (label.text, s) := by
  simp [Label.written, literal, quoted?, Quote.ofChar?_char, untilQuote?_fits label.fits]

/-- A modifier is passed over if no character of a name follows it. -/
theorem Vocabulary.afterModifier_append (h : Vocabulary callees modifiers) {modifier : List Char}
    (hm : modifier ∈ [] :: modifiers) {s : List Char}
    (hs : ∀ c ∈ s.head?, isNameChar c = false) :
    afterModifier modifiers (modifier ++ s) = s := by
  rcases List.mem_cons.mp hm with rfl | hm
  · have hnone : firstWord? modifiers s = none := firstWord?_eq_none fun w hw hpre => by
      obtain ⟨hne, hname⟩ := h.modifiers_name w hw
      exact hne (List.prefix_nil.mp (prefix_of_prefix_append (x := []) hname hs hpre))
    simp [afterModifier, hnone]
  · simp [afterModifier, firstWord?_append h.modifiers_apart hm]

/-- A written head is read where a word may start, and reading stops behind its label. -/
theorem Vocabulary.callHead?_lead (h : Vocabulary callees modifiers)
    (call : Call callees modifiers) {gap gap' : List Char} (hgap : gap.all isBlank = true)
    (hgap' : gap'.all isBlank = true) {before : Option Char} (hb : isWordStart before = true)
    (s : List Char) :
    callHead? callees modifiers before (call.lead gap gap' ++ (call.label.written ++ s)) =
      some (⟨byteSize (call.name ++ gap), String.ofList call.label.text⟩, s) := by
  let arguments := gap' ++ (call.label.written ++ s)
  have htext : call.lead gap gap' ++ (call.label.written ++ s) =
      call.callee ++ (call.modifier ++ (gap ++ '(' :: arguments)) := by
    simp [Call.lead, Call.name, arguments]
  have hhead : ∀ c ∈ (gap ++ '(' :: arguments).head?, isNameChar c = false := by
    cases gap with
    | nil =>
      rintro c hc
      obtain rfl : '(' = c := by simpa using hc
      decide
    | cons d gap =>
      rintro c hc
      obtain rfl : d = c := by simpa using hc
      exact not_isNameChar_of_isBlank (List.all_eq_true.mp hgap d List.mem_cons_self)
  have hparen : (gap ++ '(' :: arguments).dropWhile isBlank = '(' :: arguments := by
    rw [List.dropWhile_append_of_pos (List.all_eq_true.mp hgap),
      List.dropWhile_cons_of_neg (by decide)]
  have hquote : arguments.dropWhile isBlank = call.label.written ++ s := by
    rw [List.dropWhile_append_of_pos (List.all_eq_true.mp hgap')]
    simp [Label.written, literal, isBlank_quote]
  rw [callHead?, if_pos hb, htext, firstWord?_append h.callees_apart call.callee_mem]
  simp only [Option.bind_some, h.afterModifier_append call.modifier_mem hhead, hparen, hquote,
    quoted?_written, Option.map_some]
  congr 3
  simp only [byteSize_append, byteSize_cons, utf8Size_parenthesis, Call.name]
  omega

/-- A call is read back from the way it is written, where a word may start. -/
theorem Vocabulary.callHead?_text (h : Vocabulary callees modifiers)
    (call : Call callees modifiers) {before : Option Char} (hb : isWordStart before = true)
    (s : List Char) :
    callHead? callees modifiers before (call.text ++ s) = some (call.head, s) := by
  have hgap : ([] : List Char).all isBlank = true := rfl
  simpa [Call.lead, Call.text, Call.head] using h.callHead?_lead call hgap hgap hb s

/-- Of what stands before a head only counts whether a word may start. -/
theorem callHead?_before {before before' : Option Char} (h : isWordStart before = true)
    (h' : isWordStart before' = true) (s : List Char) :
    callHead? callees modifiers before s = callHead? callees modifiers before' s := by
  rw [callHead?, callHead?, h, h']

/-- No call is read from nothing. -/
theorem callHead?_nil (hne : [] ∉ callees) (before : Option Char) :
    callHead? callees modifiers before [] = none := by
  have hnone : firstWord? callees [] = none := firstWord?_eq_none fun w hw hpre =>
    hne (List.prefix_nil.mp hpre ▸ hw)
  simp [callHead?, hnone]

theorem sectionHead?_nil (before : Option Char) : sectionHead? before [] = none :=
  callHead?_nil (by decide) before

theorem caseHead?_nil (before : Option Char) : caseHead? before [] = none :=
  callHead?_nil (by decide) before

/-! ## Where no head starts -/

/-- Whether no place of the text can be the start of a callee. -/
def idle (callees : List (List Char)) : (before : Option Char) → List Char → Bool
  | _, [] => true
  | before, c :: x =>
    (callees.all (fun w => w.head? != some c) || !isWordStart before) && idle callees (some c) x

/-- No call starts in text in which no word of the vocabulary does. -/
theorem Vocabulary.quiet_of_idle (h : Vocabulary callees modifiers) {before : Option Char}
    {x : List Char} (hx : idle callees before x = true) (y : List Char) :
    Quiet (callHead? callees modifiers) before x y := by
  induction x generalizing before with
  | nil => trivial
  | cons c x ih =>
    simp only [idle, Bool.and_eq_true, Bool.or_eq_true, List.all_eq_true, bne_iff_ne, ne_eq,
      Bool.not_eq_true'] at hx
    refine ⟨?_, ih hx.2⟩
    rcases hx.1 with hstart | hword
    · have hnone := firstWord?_cons_eq_none (s := x ++ y)
        fun w hw => ⟨(h.callees_name w hw).1, hstart w hw⟩
      simp [callHead?, hnone]
    · simp [callHead?, hword]

/-- No word of the vocabulary has a quote in it. -/
theorem Vocabulary.not_mem_of_quote (h : Vocabulary callees modifiers) (q : Quote) :
    (∀ w ∈ callees, q.char ∉ w) ∧ ∀ w ∈ modifiers, q.char ∉ w := by
  have hname : ∀ w : List Char, w.all isNameChar = true → q.char ∉ w := fun w hw hq => by
    simpa [isNameChar_quote] using List.all_eq_true.mp hw _ hq
  exact ⟨fun w hw => hname w (h.callees_name w hw).2, fun w hw => hname w (h.modifiers_name w hw).2⟩

/-- A modifier is looked for in front of a quote only. -/
theorem afterModifier_before {q : Char} (h : ∀ w ∈ modifiers, q ∉ w) (u y : List Char) :
    afterModifier modifiers (u ++ q :: y) = afterModifier modifiers u ++ q :: y := by
  rw [afterModifier, afterModifier, firstWord?_before h]
  cases firstWord? modifiers u <;> rfl

/-- What is left behind a modifier is an end of the text. -/
theorem afterModifier_suffix (u : List Char) : afterModifier modifiers u <:+ u := by
  unfold afterModifier
  split
  next w rest hw => exact ⟨w, eq_of_firstWord? hw⟩
  · exact List.suffix_refl u

/-- A head needs its parenthesis in front of the first quote. -/
theorem Vocabulary.callHead?_eq_none (h : Vocabulary callees modifiers) {u : List Char}
    (hu : '(' ∉ u) (q : Quote) (before : Option Char) (y : List Char) :
    callHead? callees modifiers before (u ++ q.char :: y) = none := by
  obtain ⟨hcallees, hmodifiers⟩ := h.not_mem_of_quote q
  have hquote : q.char ≠ '(' := by cases q <;> decide
  unfold callHead?
  split
  · rw [firstWord?_before hcallees]
    cases hw : firstWord? callees u with
    | none => rfl
    | some found =>
      obtain ⟨w, named⟩ := found
      have hnamed : afterModifier modifiers named <:+ u :=
        (afterModifier_suffix named).trans ⟨w, eq_of_firstWord? hw⟩
      have hdrop : '(' ∉ (afterModifier modifiers named).dropWhile isBlank := fun hmem =>
        hu (hnamed.mem ((List.dropWhile_suffix _).mem hmem))
      simp only [Option.map_some, Option.bind_some, afterModifier_before hmodifiers]
      split
      next arguments harguments =>
        rw [dropWhile_append_cons (isBlank_quote q)] at harguments
        cases hleft : (afterModifier modifiers named).dropWhile isBlank with
        | nil =>
          rw [hleft, List.nil_append, List.cons.injEq] at harguments
          exact absurd harguments.1 hquote
        | cons c left =>
          rw [hleft, List.cons_append, List.cons.injEq] at harguments
          exact absurd (by rw [hleft, harguments.1]; exact List.mem_cons_self) hdrop
      · rfl
  · rfl

/-- No call starts in text without a parenthesis that a quote ends. -/
theorem Vocabulary.quiet_of_no_parenthesis (h : Vocabulary callees modifiers) {x : List Char}
    (hx : '(' ∉ x) (q : Quote) (before : Option Char) (y : List Char) :
    Quiet (callHead? callees modifiers) before (x ++ [q.char]) y := by
  induction x generalizing before with
  | nil => exact ⟨h.callHead?_eq_none (u := []) hx q before y, trivial⟩
  | cons c x ih =>
    refine ⟨?_, ih (fun h => hx (List.mem_cons_of_mem _ h)) (some c)⟩
    simpa using h.callHead?_eq_none hx q before y

end

end SuiteScope.Source
