import SuiteScope.Proofs.Source.Balance
import SuiteScope.Proofs.Source.Extent

/-!
# Behind a label

The label of a section head is read by characters, where a backslash goes with the character behind
it. A cursor reads the source by bytes, and its backslash goes with one byte. `Reaches` tells the
places a cursor comes to between two steps, and the quote it is in there. A place of code is such a
place without a quote (`reaches_of_mem_codePlaces`), and a cursor that starts at one finds what the
cursor from the start of the source finds from there on (`Reaches.mem_codePlaces_iff`).

In front of a string a cursor without a quote comes to the place behind it (`ReachesRest.literal`).
What an escape leaves of a character are bytes outside ASCII, which end no string. So the label of a
head in code is passed over as the string it is (`LabelPassed`), and a reading from behind it agrees
with one from the start of the source (`reading_behind_label`).
-/

namespace SuiteScope.Source

open SuiteScope.Text

/-- The cursor that starts at the start of the source comes to a place between two steps, and it is
in the given quote there. -/
inductive Reaches (s : List Char) : Option Quote → Nat → Prop
  | start : Reaches s none 0
  | next {quote : Option Quote} {pos : Nat} {b : Char} {rest : List Char} :
      Reaches s quote pos → (bytesOf s).drop pos = b :: rest →
        Reaches s (step quote b rest).quote (pos + 1 + min (step quote b rest).more rest.length)

/-- The cursor takes the byte on its own, and is in the same quote afterwards. -/
def KeepsQuote (quote : Option Quote) (b : Char) : Prop :=
  ∀ rest, (step quote b rest).more = 0 ∧ (step quote b rest).quote = quote

/-- The cursor comes to the place in front of the rest `t` of the source. -/
def ReachesRest (s : List Char) (quote : Option Quote) (t : List Char) : Prop :=
  ∃ a, s = a ++ t ∧ Reaches s quote (byteSize a)

/-- The label of a head stands in the source as a string between the texts `a` and `b`, and the
cursor passes over it as one : in front of it and behind it no quote is open, and where it closes,
its own quote is. The skipped ranges hold all of it. -/
structure LabelPassed (s : List Char) (m : Match CallHead) (q : Quote) (a b : List Char) :
    Prop where
  text : s = a ++ (literal q m.value.label.toList ++ b)
  stop : m.span.stop = byteSize (a ++ literal q m.value.label.toList)
  opening : Reaches s none (byteSize a)
  closing : Reaches s (some q) (m.span.stop - 1)
  behind : Reaches s none m.span.stop
  skipped : ∀ p, byteSize a ≤ p → p < m.span.stop → inSkipped (skippedRanges s) p = true

section

variable {s : List Char} {quote : Option Quote} {q : Quote} {pos i p : Nat}

/-! ## The places of a cursor -/

theorem drop_next {bytes rest : List Char} {b : Char} (h : bytes.drop pos = b :: rest) (k : Nat) :
    bytes.drop (pos + 1 + min k rest.length) = rest.drop k := by
  have hrest : bytes.drop (pos + 1) = rest := by rw [← List.drop_drop, h]; rfl
  rw [← List.drop_drop, hrest]
  rcases Nat.le_total k rest.length with hle | hge
  · rw [Nat.min_eq_left hle]
  · rw [Nat.min_eq_right hge, List.drop_length, List.drop_eq_nil_of_le hge]

/-- The tokens of a source are those up to a place and those of the cursor that goes on there. -/
theorem Reaches.exists_front (h : Reaches s quote pos) :
    ∃ front, tokensOf s = front ++ tokens quote pos ((bytesOf s).drop pos) ∧
      ∀ t ∈ front, t.span.start < pos ∧ t.span.stop ≤ pos := by
  induction h with
  | start => exact ⟨[], rfl, nofun⟩
  | @next quote pos b rest _ hdrop ih =>
    obtain ⟨front, hfront, hbefore⟩ := ih
    rw [hdrop, tokens, ← drop_next hdrop, List.append_cons] at hfront
    refine ⟨_, hfront, fun t ht => ?_⟩
    rcases List.mem_append.mp ht with ht | ht
    · have := hbefore t ht
      omega
    · obtain rfl := List.mem_singleton.mp ht
      dsimp only
      omega

/-- Inside quotes nothing is code. -/
theorem code_of_quoted (q : Quote) (b : Char) (rest : List Char) :
    (step (some q) b rest).code = false := by
  unfold step
  dsimp only
  split <;> rfl

/-- In front of a token of code no quote is open. -/
theorem Reaches.of_code {bytes : List Char} (h : Reaches s quote pos)
    (hbytes : (bytesOf s).drop pos = bytes) {t : Token} (ht : t ∈ tokens quote pos bytes)
    (hcode : t.code = true) : Reaches s none t.span.start := by
  fun_induction tokens quote pos bytes with
  | case1 quote pos => cases ht
  | case2 quote pos b rest taken stop ih =>
    rcases List.mem_cons.mp ht with rfl | ht
    · cases quote with
      | none => exact h
      | some q => rw [code_of_quoted] at hcode; cases hcode
    · exact ih (h.next hbytes) (drop_next hbytes _) ht

/-- The scanner reaches every place of the code with no quote open. -/
theorem reaches_of_mem_codePlaces (h : p ∈ codePlaces (tokensOf s)) : Reaches s none p := by
  obtain ⟨t, ht, rfl⟩ := List.mem_map.mp h
  obtain ⟨ht, hcode⟩ := List.mem_filter.mp ht
  exact Reaches.start.of_code rfl ht hcode

/-- A cursor that starts where no quote is open finds the code that lies behind. -/
theorem Reaches.mem_codePlaces_iff (h : Reaches s none i) :
    p ∈ codePlaces (tokensFrom s i) ↔ i ≤ p ∧ p ∈ codePlaces (tokensOf s) := by
  obtain ⟨front, hfront, hbefore⟩ := h.exists_front
  have hplaces : codePlaces (tokensOf s) = codePlaces front ++ codePlaces (tokensFrom s i) := by
    rw [hfront, codePlaces, List.filter_append, List.map_append]
    rfl
  have hle (hp : p ∈ codePlaces (tokensFrom s i)) : i ≤ p := by
    obtain ⟨k, rfl, -⟩ := (mem_codePlaces (tiled_tokens none i _)).mp hp
    exact Nat.le_add_right i k
  have hlt (hp : p ∈ codePlaces front) : p < i := by
    obtain ⟨t, ht, rfl⟩ := List.mem_map.mp hp
    exact (hbefore t (List.mem_filter.mp ht).1).1
  rw [hplaces, List.mem_append]
  constructor
  · intro hp
    exact ⟨hle hp, .inr hp⟩
  · rintro ⟨hip, hp | hp⟩
    · exact absurd (hlt hp) (Nat.not_lt_of_le hip)
    · exact hp

/-- The places of the code are those in no skipped range. -/
theorem mem_codePlaces_iff_not_inSkipped (hp : p < byteSize s) :
    p ∈ codePlaces (tokensOf s) ↔ inSkipped (skippedRanges s) p = false := by
  rw [← Bool.not_eq_true, (canonical_skippedRanges s).2.2.1 p]
  simp [hp]

/-! ## Through a string -/

/-- Bytes that are taken one by one. -/
theorem Reaches.run {x rest : List Char} (h : Reaches s quote pos)
    (hx : (bytesOf s).drop pos = x ++ rest) (hkeeps : ∀ b ∈ x, KeepsQuote quote b) :
    Reaches s quote (pos + x.length) := by
  induction x generalizing pos with
  | nil => exact h
  | cons b x ih =>
    obtain ⟨hb, hkeeps⟩ := List.forall_mem_cons.mp hkeeps
    obtain ⟨hmore, hquote⟩ := hb (x ++ rest)
    rw [List.cons_append] at hx
    have hnext := h.next hx
    have hdrop := drop_next hx 0
    rw [hmore, hquote, Nat.zero_min] at hnext
    rw [Nat.zero_min] at hdrop
    rw [List.length_cons, Nat.add_comm x.length, ← Nat.add_assoc]
    exact ih hnext hdrop hkeeps

theorem drop_of_append {bytes x rest : List Char} (h : bytes.drop pos = x ++ rest) :
    bytes.drop (pos + x.length) = rest := by
  rw [← List.drop_drop, h, List.drop_left]

/-- A plain byte opens no quote. -/
theorem keepsQuote_plain {b : Char} (h : isPlain b = true) : KeepsQuote none b := by
  simp only [isPlain, Bool.and_eq_true, bne_iff_ne, ne_eq, Option.isNone_iff_eq_none] at h
  simp [KeepsQuote, step, h]

/-- In a literal, only its quote and a backslash mean something. -/
theorem keepsQuote_quoted {b : Char} (hslash : b ≠ '\\') (hquote : b ≠ q.char) :
    KeepsQuote (some q) b := by
  simp [KeepsQuote, step, hslash, hquote]

/-- Bytes outside ASCII start and end nothing. -/
theorem keepsQuote_of_lt {b : Char} (h : 127 < b.toNat) (quote : Option Quote) :
    KeepsQuote quote b := by
  have hne {c : Char} (hc : c.toNat ≤ 127) : b ≠ c := by
    rintro rfl
    omega
  have hchar (q : Quote) : b ≠ q.char := hne (by cases q <;> decide)
  cases quote with
  | some q => exact keepsQuote_quoted (hne (by decide)) (hchar q)
  | none =>
    refine keepsQuote_plain ?_
    have hquote : Quote.ofChar? b = none :=
      Option.eq_none_iff_forall_ne_some.mpr fun q hq => hchar q (Quote.ofChar?_eq_some_iff.mp hq)
    simp [isPlain, hquote, hne (c := '/') (by decide)]

/-- The bytes of a character are taken one by one if the character itself is, as a byte. -/
theorem KeepsQuote.spread {c : Char} (h : KeepsQuote quote c) :
    ∀ b ∈ spread (String.utf8EncodeChar c), KeepsQuote quote b := by
  intro b hb
  rcases Nat.lt_or_ge 127 c.toNat with hc | hc
  · exact keepsQuote_of_lt (lt_of_mem_spread hc hb) quote
  · rw [spread_of_ascii hc] at hb
    exact List.mem_singleton.mp hb ▸ h

/-- Where the scanner reaches a rest of a text, it reaches the offset of that rest. -/
theorem ReachesRest.reaches {a t : List Char} (h : ReachesRest s quote t) (hs : s = a ++ t) :
    Reaches s quote (byteSize a) := by
  obtain ⟨a', rfl, h⟩ := h
  obtain rfl := List.append_cancel_right hs
  exact h

/-- A character that changes no quote is passed over. -/
theorem ReachesRest.char {c : Char} {t : List Char} (h : ReachesRest s quote (c :: t))
    (hkeeps : KeepsQuote quote c) : ReachesRest s quote t := by
  obtain ⟨a, rfl, h⟩ := h
  have hdrop := drop_bytesOf a (c :: t)
  rw [bytesOf_cons] at hdrop
  have hrun := h.run hdrop hkeeps.spread
  rw [length_spread] at hrun
  exact ⟨a ++ [c], by simp, by simpa using hrun⟩

theorem bytesOf_cons_ascii {c : Char} (hc : c.toNat ≤ 127) (t : List Char) :
    bytesOf (c :: t) = c :: bytesOf t := by
  rw [bytesOf_cons, spread_of_ascii hc, List.singleton_append]

/-- Quotes are ASCII, so that they are the same as characters and as bytes. -/
theorem ascii_quote (q : Quote) : q.char.toNat ≤ 127 ∧ q.char ≠ '\\' ∧ q.char.utf8Size = 1 := by
  cases q <;> decide

/-- The cursor takes a character of one byte on its own. -/
theorem ReachesRest.ascii {c : Char} {t : List Char} (h : ReachesRest s quote (c :: t))
    (hc : c.toNat ≤ 127) (hmore : (step quote c (bytesOf t)).more = 0) :
    ReachesRest s (step quote c (bytesOf t)).quote t := by
  obtain ⟨a, rfl, h⟩ := h
  have hdrop := drop_bytesOf a (c :: t)
  rw [bytesOf_cons_ascii hc] at hdrop
  have hnext := h.next hdrop
  have hsize : c.utf8Size = 1 := by
    rw [← length_spread, spread_of_ascii hc]
    rfl
  rw [hmore, Nat.zero_min] at hnext
  exact ⟨a ++ [c], by simp, by simpa [hsize] using hnext⟩

/-- A quote opens a string, and closes the one it has opened. -/
theorem ReachesRest.opened {t : List Char} (h : ReachesRest s none (q.char :: t)) :
    ReachesRest s (some q) t := by
  have hstep (rest : List Char) : step none q.char rest = ⟨0, false, some q⟩ := by
    simp [step, Quote.ofChar?_char]
  simpa [hstep] using h.ascii (ascii_quote q).1 (by rw [hstep])

/-- A closing quote ends its literal. -/
theorem ReachesRest.closed {t : List Char} (h : ReachesRest s (some q) (q.char :: t)) :
    ReachesRest s none t := by
  have hstep (rest : List Char) : step (some q) q.char rest = ⟨0, false, none⟩ := by
    simp [step, (ascii_quote q).2.1]
  simpa [hstep] using h.ascii (ascii_quote q).1 (by rw [hstep])

/-- Plain text is passed over with no quote open. -/
theorem ReachesRest.plain {x t : List Char} (h : ReachesRest s none (x ++ t))
    (hx : x.all isPlain = true) : ReachesRest s none t := by
  induction x with
  | nil => exact h
  | cons c x ih =>
    simp only [List.all_cons, Bool.and_eq_true] at hx
    exact ih (h.char (keepsQuote_plain hx.1)) hx.2

/-- A backslash in a string takes one byte of the character behind it. The others end no string. -/
theorem ReachesRest.escape {c : Char} {t : List Char}
    (h : ReachesRest s (some q) ('\\' :: c :: t)) : ReachesRest s (some q) t := by
  obtain ⟨a, rfl, h⟩ := h
  obtain ⟨b, tail, hb⟩ := List.exists_cons_of_length_pos (length_spread c ▸ c.utf8Size_pos)
  have hdrop := drop_bytesOf a ('\\' :: c :: t)
  rw [bytesOf_cons_ascii (by decide), bytesOf_cons, hb, List.cons_append] at hdrop
  have htail : ∀ d ∈ tail, KeepsQuote (some q) d := by
    intro d hd
    rcases Nat.lt_or_ge 127 c.toNat with hc | hc
    · exact keepsQuote_of_lt (lt_of_mem_spread hc (hb ▸ List.mem_cons_of_mem b hd)) _
    · rw [spread_of_ascii hc] at hb
      obtain ⟨-, rfl⟩ := List.cons.inj hb
      cases hd
  have hnext : Reaches (a ++ '\\' :: c :: t) (some q) (byteSize a + 2) := by
    simpa [step] using h.next hdrop
  have hrest : (bytesOf (a ++ '\\' :: c :: t)).drop (byteSize a + 2) = tail ++ bytesOf t :=
    drop_of_append (x := ['\\', b]) hdrop
  have hsize : byteSize (a ++ ['\\', c]) = byteSize a + 2 + tail.length := by
    have hlength := length_spread c
    rw [hb, List.length_cons] at hlength
    have hslash : '\\'.utf8Size = 1 := rfl
    simp only [byteSize_append, byteSize_cons, byteSize_nil]
    omega
  exact ⟨a ++ ['\\', c], by simp, hsize ▸ hnext.run hrest htail⟩

/-- What may stand in a string is passed over as part of it. -/
theorem ReachesRest.fits {x t : List Char} (h : ReachesRest s (some q) (x ++ t))
    (hx : q.fits x = true) : ReachesRest s (some q) t := by
  fun_induction Quote.fits q x with
  | case1 => exact h
  | case2 c x ih => exact ih h.escape hx
  | case3 c x _ ih =>
    simp only [Bool.and_eq_true, bne_iff_ne, ne_eq] at hx
    exact ih (h.char (keepsQuote_quoted hx.1.1 hx.1.2)) hx.2

/-- The quotes around a string open and close it. -/
theorem ReachesRest.literal {x t : List Char} (h : ReachesRest s none (literal q x ++ t))
    (hx : q.fits x = true) :
    ReachesRest s (some q) (q.char :: t) ∧ ReachesRest s none t := by
  rw [Source.literal, List.cons_append, List.append_assoc, List.singleton_append] at h
  have hclosing := h.opened.fits hx
  exact ⟨hclosing, hclosing.closed⟩

/-! ## Through a head -/

section

variable {m : Match CallHead}

theorem lt_of_getElem?_bytesOf {b : Char} (h : (bytesOf s)[p]? = some b) : p < byteSize s :=
  length_bytesOf s ▸ (List.getElem?_eq_some_iff.mp h).1

/-- A head is plain text and a string. -/
theorem exists_plain_literal (h : Occurs sectionHead? s m) :
    ∃ a x q y b lead, x.all isPlain = true ∧ Quote.fits q y = true ∧
      s = a ++ (x ++ (literal q y ++ b)) ∧
      m = ⟨⟨byteSize a, byteSize (a ++ (x ++ literal q y))⟩, ⟨lead, String.ofList y⟩⟩ := by
  obtain ⟨a, call, gap, gap', b, hgap, hgap', rfl, rfl⟩ := exists_written h
  exact ⟨a, _, call.label.quote, call.label.text, b, _,
    vocabulary_section.all_lead call hgap hgap', call.label.fits, rfl, rfl⟩

/-- Behind plain text that starts in code a string is skipped text, and the rest of the source has
the marks that it has on its own. -/
theorem exists_marks {a x y b : List Char} {q : Quote} (hx : x.all isPlain = true)
    (hy : q.fits y = true)
    (hlive : inSkipped (skippedRanges (a ++ (x ++ (literal q y ++ b)))) (byteSize a) = false) :
    ∃ l, l.map (·.1) = a ++ x ∧
      marked (a ++ (x ++ (literal q y ++ b))) = l ++ ((literal q y).map (·, true) ++ marked b) := by
  rw [inSkipped_skippedRanges] at hlive
  obtain ⟨l, rfl, hmarks⟩ := marked_append hlive
  refine ⟨l ++ x.map (·, false), by simp [Function.comp_def], ?_⟩
  rw [hmarks, marked_plain hx, marked_literal hy, List.append_assoc]

/-- Behind plain text that starts in code a string is passed over. -/
theorem labelPassed_of_live {a x y b : List Char} {q : Quote} (hx : x.all isPlain = true)
    (hy : q.fits y = true)
    (hlive : inSkipped (skippedRanges (a ++ (x ++ (literal q y ++ b)))) (byteSize a) = false)
    (lead : Nat) :
    LabelPassed (a ++ (x ++ (literal q y ++ b)))
      ⟨⟨byteSize a, byteSize (a ++ (x ++ literal q y))⟩, ⟨lead, String.ofList y⟩⟩ q (a ++ x) b := by
  obtain ⟨-, -, hquote⟩ := ascii_quote q
  have hlt : byteSize a < byteSize (a ++ (x ++ (literal q y ++ b))) := by
    simp only [byteSize_append, literal, List.cons_append, byteSize_cons, hquote]
    omega
  have hstart := reaches_of_mem_codePlaces ((mem_codePlaces_iff_not_inSkipped hlt).mpr hlive)
  have hfront : ReachesRest (a ++ (x ++ (literal q y ++ b))) none (literal q y ++ b) :=
    ReachesRest.plain ⟨a, rfl, hstart⟩ hx
  obtain ⟨hclosing, hbehind⟩ := hfront.literal hy
  obtain ⟨l, hl, hmarks⟩ := exists_marks hx hy hlive
  refine ⟨by simp, by simp, hfront.reaches (by simp), ?_, hbehind.reaches (by simp), ?_⟩
  · have hplace : byteSize (a ++ (x ++ literal q y)) - 1 = byteSize (a ++ (x ++ q.char :: y)) := by
      simp only [byteSize_append, literal, byteSize_cons, byteSize_nil, hquote]
      omega
    have hclosing := hclosing.reaches (a := a ++ (x ++ q.char :: y)) (by simp [literal])
    rwa [← hplace] at hclosing
  · intro p hfrom hto
    obtain ⟨k, rfl⟩ := Nat.exists_eq_add_of_le hfrom
    have hk : k < byteSize (literal q y) := by
      simp only [byteSize_append] at hto ⊢
      omega
    rw [inSkipped_skippedRanges, hmarks, ← hl, covered_append]
    exact covered_map hk true _

/-- Behind marks that are those of the text on its own, the first brace is the first one of the
blanked source. -/
theorem blockOpen?_of_marked {a t : List Char} {l : List (Char × Bool)} (hl : l.map (·.1) = a)
    (hm : marked (a ++ t) = l ++ marked t) (o : Nat) :
    blockOpen? (a ++ t) (byteSize a) = some o ↔
      IsLeast {o | byteSize a ≤ o ∧ charAt? (blanked (a ++ t)) o = some '{'} o := by
  have hsize : byteSize (blankOut l) = byteSize a := by rw [byteSize_blankOut, hl]
  rw [blockOpen?, dropBytes_byteSize, byteSize_append, Nat.add_sub_cancel, blanked, hm,
    blankOut_append, ← blanked, ← hsize]
  exact firstBrace?_eq_some_iff

/-- The counterpart of a delimiter in code is code. -/
theorem code_matchingClose? {o c : Nat} (ho : inSkipped (skippedRanges s) o = false)
    (h : matchingClose? s o = some c) : inSkipped (skippedRanges s) c = false := by
  obtain ⟨opening, close, hd, hbyte⟩ := exists_delimiter h
  have hopening := (mem_codePlaces_iff_not_inSkipped (lt_of_getElem?_bytesOf hbyte)).mpr ho
  obtain ⟨hplace, hclose⟩ := (occurrences_eq hd hbyte h).1
  have hcode := ((reaches_of_mem_codePlaces hopening).mem_codePlaces_iff.mp hplace).2
  exact (mem_codePlaces_iff_not_inSkipped (lt_of_getElem?_bytesOf hclose)).mp hcode

/-- The label of a head in code is one string for the pattern and for the cursor. Behind it a cursor
that starts there goes on like the one from the start of the source, so it tells the same bytes to
be code and finds the brace that the other one comes to first. The call of the head does not end
before, and the brace is code with its counterpart. -/
theorem reading_behind_label (h : Occurs sectionHead? s m)
    (hlive : inSkipped (skippedRanges s) m.span.start = false) :
    (∃ q a b, LabelPassed s m q a b) ∧
      (∃ front, tokensOf s = front ++ tokensFrom s m.span.stop ∧
        ∀ t ∈ front, t.span.stop ≤ m.span.stop) ∧
      (∀ p, m.span.stop ≤ p → p < byteSize s →
        (p ∈ codePlaces (tokensFrom s m.span.stop) ↔ inSkipped (skippedRanges s) p = false)) ∧
      (∀ o, blockOpen? s m.span.stop = some o ↔
        IsLeast {o | m.span.stop ≤ o ∧ charAt? (blanked s) o = some '{'} o) ∧
      (∀ c, matchingClose? s (m.span.start + m.value.lead) = some c → m.span.stop ≤ c) ∧
      ∀ o, blockOpen? s m.span.stop = some o → inSkipped (skippedRanges s) o = false ∧
        ∀ c, matchingClose? s o = some c → inSkipped (skippedRanges s) c = false := by
  obtain ⟨a, x, q, y, b, lead, hx, hy, rfl, rfl⟩ := exists_plain_literal h
  have hpassed := labelPassed_of_live hx hy hlive lead
  obtain ⟨l, hl, hmarks⟩ := exists_marks hx hy hlive
  obtain ⟨front, hfront, hbefore⟩ := hpassed.behind.exists_front
  refine ⟨⟨q, a ++ x, b, hpassed⟩, ⟨front, hfront, fun t ht => (hbefore t ht).2⟩, ?_, ?_,
    fun c => stop_le_callEnd h, fun o ho => ?_⟩
  · intro p hstop hp
    rw [hpassed.behind.mem_codePlaces_iff, mem_codePlaces_iff_not_inSkipped hp]
    exact and_iff_right hstop
  · intro o
    have htext : a ++ (x ++ (literal q y ++ b)) = (a ++ (x ++ literal q y)) ++ b := by simp
    rw [htext] at hmarks ⊢
    exact blockOpen?_of_marked (l := l ++ (literal q y).map (·, true))
      (by simp [hl, Function.comp_def]) (by rw [hmarks, List.append_assoc]) o
  · have hcode := (brace_of_live h hlive ho).2.1
    exact ⟨hcode, fun c => code_matchingClose? hcode⟩

/-- A label with an escape in front of a character of two bytes, an escaped quote and a brace. -/
theorem reading_behind_escapes :
    let s := "describe('\\é \\' \x7b', () => \x7b it('\x7d') \x7d)".toList
    let m : Match CallHead := ⟨⟨0, 19⟩, ⟨8, "\\é \\' \x7b"⟩⟩
    Occurs sectionHead? s m ∧ inSkipped (skippedRanges s) 0 = false ∧
      (∃ q a b, LabelPassed s m q a b) ∧ 27 ∈ codePlaces (tokensFrom s 19) ∧
      blockOpen? s 19 = some 27 ∧ matchingClose? s 27 = some 37 ∧
      inSkipped (skippedRanges s) 37 = false := by
  intro s m
  have h : Occurs sectionHead? s m := occurs_of_mem_findAll (by decide +kernel)
  have hlive : inSkipped (skippedRanges s) 0 = false := by
    rw [inSkipped_skippedRanges]
    decide +kernel
  obtain ⟨hpassed, -, hplaces, -, -, hbody⟩ := reading_behind_label h hlive
  have hopen : blockOpen? s 19 = some 27 := by decide +kernel
  have hclose : matchingClose? s 27 = some 37 := by decide +kernel
  obtain ⟨hcode, hcounterpart⟩ := hbody 27 hopen
  exact ⟨h, hlive, hpassed, (hplaces 27 (by decide) (by decide +kernel)).mpr hcode, hopen, hclose,
    hcounterpart 37 hclose⟩

end

end

end SuiteScope.Source
