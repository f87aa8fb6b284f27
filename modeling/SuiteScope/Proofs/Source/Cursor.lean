import SuiteScope.Proofs.Source.Blanked
import SuiteScope.Proofs.Source.Segments
import SuiteScope.Text.Byte

/-!
# Reading a source by its bytes

A cursor reads the bytes of a source and knows no more than the quote it is in (`step`). It takes a
backslash in a string together with the byte behind it, and a whole comment at once. So its tokens
have various sizes, and one may end inside a character.

Its tokens mark the same bytes as `marks` does character by character. This is shown in two steps.
Over the bytes, taken for characters of one byte each, a token is what the modes go through while it
is read (`tokenMarks_tokens`). And the bytes of one character all have its mark (`marks_bytes`),
because a byte of a longer character is neither a quote nor a slash, a star, a backslash or a line
end. Together : `tokenMarks_bytes`.
-/

namespace SuiteScope.Source

open SuiteScope.Text

/-- What the cursor takes from one place on. -/
structure Step where
  /-- How many bytes it takes besides the first one, if there are as many. -/
  more : Nat
  /-- Whether it has taken code. -/
  code : Bool
  /-- The quote it is in afterwards. -/
  quote : Option Quote

/-- The number of bytes up to the end of the line. -/
def lineSize (bytes : List Char) : Nat :=
  (bytes.takeWhile (· != '\n')).length

/-- The number of bytes up to the end of a block comment, that end included. -/
def blockSize : (bytes : List Char) → Nat
  | [] => 0
  | '*' :: '/' :: _ => 2
  | _ :: bytes => blockSize bytes + 1

/-- One step of the cursor, from the byte `b` in front of `rest`. -/
def step (quote : Option Quote) (b : Char) (rest : List Char) : Step :=
  match quote with
  | some q =>
    if b = '\\' then ⟨1, false, some q⟩
    else ⟨0, false, if b = q.char then none else some q⟩
  | none =>
    match Quote.ofChar? b with
    | some q => ⟨0, false, some q⟩
    | none =>
      if b = '/' then
        match rest with
        | '/' :: _ => ⟨lineSize rest, false, none⟩
        | '*' :: comment => ⟨blockSize comment + 1, false, none⟩
        | _ => ⟨0, true, none⟩
      else ⟨0, true, none⟩

/-- The bytes that are taken in one step. -/
structure Token where
  span : Span
  code : Bool

/-- The tokens of the bytes from place `pos` on. -/
def tokens (quote : Option Quote) (pos : Nat) : (bytes : List Char) → List Token
  | [] => []
  | b :: rest =>
    let taken := step quote b rest
    let stop := pos + 1 + min taken.more rest.length
    ⟨⟨pos, stop⟩, taken.code⟩ :: tokens taken.quote stop (rest.drop taken.more)
termination_by bytes => bytes.length

/-- One mark for each byte of the tokens. -/
def tokenMarks (ts : List Token) : List Bool :=
  ts.flatMap fun t => List.replicate (t.span.stop - t.span.start) !t.code

/-- One mark for each byte of marked text. -/
def byteMarks (l : List (Char × Bool)) : List Bool :=
  l.flatMap fun (c, mark) => List.replicate c.utf8Size mark

/-- The bytes of a source, one character each. -/
def bytesOf (s : List Char) : List Char :=
  spread (utf8Bytes s)

/-- The tokens of a source. -/
def tokensOf (s : List Char) : List Token :=
  tokens none 0 (bytesOf s)

/-- The mode of a cursor between two steps. -/
def modeOf : (quote : Option Quote) → Mode
  | none => .code
  | some q => .quoted q

/-! ## Tokens and modes -/

/-- A comment is skipped to the end of its line. -/
theorem marks_lineComment (s : List Char) :
    marks .lineComment s =
      List.replicate (lineSize s) true ++ marks .code (s.drop (lineSize s)) := by
  induction s with
  | nil => rfl
  | cons c s ih =>
    by_cases hc : c = '\n'
    · subst hc
      have hsize : lineSize ('\n' :: s) = 0 := rfl
      rw [hsize]
      rfl
    · have hsize : lineSize (c :: s) = lineSize s + 1 := by simp [lineSize, hc]
      rw [hsize, marks]
      simp [Mode.skips, Mode.after, hc, ih, List.replicate_succ]

/-- A block comment is skipped with what closes it. -/
theorem marks_blockComment (s : List Char) :
    marks .blockComment s =
      List.replicate (min (blockSize s) s.length) true ++ marks .code (s.drop (blockSize s)) := by
  fun_induction blockSize s with
  | case1 => rfl
  | case2 s =>
    have hsize : min 2 ('*' :: '/' :: s).length = 2 := Nat.min_eq_left (by simp)
    rw [hsize]
    rfl
  | case3 c s hclosing ih =>
    have hopen : ¬(c = '*' ∧ s.head? = some '/') := by
      rintro ⟨rfl, hhead⟩
      obtain ⟨tail, rfl⟩ := List.head?_eq_some_iff.mp hhead
      exact hclosing tail rfl rfl
    rw [marks, after_blockComment hopen, ih, List.length_cons, Nat.succ_min_succ,
      List.replicate_succ]
    rfl

theorem lineSize_le (s : List Char) : lineSize s ≤ s.length :=
  (List.takeWhile_prefix _).length_le

/-- While the cursor takes a step, the modes go through what it takes. -/
def Follows (quote : Option Quote) (b : Char) (rest : List Char) : Prop :=
  marks (modeOf quote) (b :: rest) =
    List.replicate (1 + min (step quote b rest).more rest.length) (!(step quote b rest).code) ++
      marks (modeOf (step quote b rest).quote) (rest.drop (step quote b rest).more)

theorem follows_quoted (q : Quote) (b : Char) (rest : List Char) : Follows (some q) b rest := by
  rw [Follows, modeOf, marks, step]
  by_cases hb : b = '\\'
  · -- The byte behind a backslash goes with it, if there is one.
    rw [if_pos hb, Mode.after, if_pos hb]
    cases rest <;> rfl
  · rw [if_neg hb, Mode.after, if_neg hb, Nat.zero_min]
    by_cases hq : b = q.char
    · rw [if_pos hq, if_pos hq]
      rfl
    · rw [if_neg hq, if_neg hq]
      rfl

theorem follows_slash (rest : List Char) : Follows none '/' rest := by
  have hquote : Quote.ofChar? '/' = none := rfl
  rw [Follows, modeOf]
  unfold step
  simp only [hquote, if_true]
  split
  next comment =>
    have hsize := Nat.min_eq_left (lineSize_le ('/' :: comment))
    have hline : lineSize ('/' :: comment) = lineSize comment + 1 := by simp [lineSize]
    rw [hsize, hline, marks, marks, List.drop_succ_cons, Nat.add_comm 1, List.replicate_succ,
      List.replicate_succ]
    exact congrArg (true :: true :: ·) (marks_lineComment comment)
  next comment =>
    rw [List.length_cons, Nat.succ_min_succ, marks, marks, List.drop_succ_cons, Nat.add_comm 1,
      List.replicate_succ, List.replicate_succ]
    exact congrArg (true :: true :: ·) (marks_blockComment comment)
  next hline hblock =>
    have hafter : Mode.code.after '/' rest.head? = .code := by
      cases rest with
      | nil => rfl
      | cons c rest =>
        have hc : c ≠ '/' ∧ c ≠ '*' :=
          ⟨fun h => hline rest (by rw [h]), fun h => hblock rest (by rw [h])⟩
        simp [Mode.after, hc, hquote]
    rw [marks, Mode.skips, hafter, Nat.zero_min]
    rfl

/-- The scanner marks every byte as the modes do, whatever is open. -/
theorem follows (quote : Option Quote) (b : Char) (rest : List Char) : Follows quote b rest := by
  cases quote with
  | some q => exact follows_quoted q b rest
  | none =>
    by_cases hb : b = '/'
    · subst hb
      exact follows_slash rest
    · rw [Follows, modeOf]
      unfold step
      dsimp only
      rw [marks]
      cases hquote : Quote.ofChar? b with
      | some q => simp [Mode.skips, Mode.after, hb, hquote, modeOf]
      | none => simp [Mode.skips, Mode.after, hb, hquote, modeOf]

/-- The tokens of bytes mark what the modes mark. -/
theorem tokenMarks_tokens (quote : Option Quote) (pos : Nat) (bytes : List Char) :
    tokenMarks (tokens quote pos bytes) = marks (modeOf quote) bytes := by
  fun_induction tokens quote pos bytes with
  | case1 quote pos => rfl
  | case2 quote pos b rest taken stop ih =>
    have hsize : stop - pos = 1 + min taken.more rest.length := by omega
    rw [follows, ← ih]
    exact congrArg (fun n => List.replicate n (!taken.code) ++ _) hsize

/-! ## The bytes of characters -/

theorem bytesOf_cons (c : Char) (s : List Char) :
    bytesOf (c :: s) = spread (String.utf8EncodeChar c) ++ bytesOf s := by
  simp [bytesOf, utf8Bytes, spread]

theorem spread_of_ascii {c : Char} (h : c.toNat ≤ 127) :
    spread (String.utf8EncodeChar c) = [c] := by
  have hbyte : String.utf8EncodeChar c = [UInt8.ofNat c.toNat] := if_pos h
  have hmod : c.toNat % 256 = c.toNat := Nat.mod_eq_of_lt (by omega)
  rw [hbyte, spread, List.map_singleton, UInt8.toNat_ofNat', hmod, Char.ofNat_toNat]

/-- No byte of a character of several bytes is an ASCII character. -/
theorem lt_of_mem_spread {c b : Char} (h : 127 < c.toNat)
    (hb : b ∈ spread (String.utf8EncodeChar c)) : 127 < b.toNat := by
  have hbytes : ∀ byte ∈ String.utf8EncodeChar c, 127 < byte.toNat := by
    have hc : ¬c.val.toNat ≤ 127 := Nat.not_le_of_lt h
    intro byte hbyte
    rw [String.utf8EncodeChar] at hbyte
    simp only [hc, if_false] at hbyte
    split at hbyte
    · simp only [List.mem_cons, List.not_mem_nil, or_false] at hbyte
      rcases hbyte with rfl | rfl <;> rw [UInt8.toNat_ofNat'] <;> omega
    · split at hbyte
      · simp only [List.mem_cons, List.not_mem_nil, or_false] at hbyte
        rcases hbyte with rfl | rfl | rfl <;> rw [UInt8.toNat_ofNat'] <;> omega
      · simp only [List.mem_cons, List.not_mem_nil, or_false] at hbyte
        rcases hbyte with rfl | rfl | rfl | rfl <;> rw [UInt8.toNat_ofNat'] <;> omega
  obtain ⟨byte, hbyte, rfl⟩ := List.mem_map.mp hb
  have hvalid : byte.toNat.isValidChar := .inl (by have := byte.toNat_lt; omega)
  have hnat : (Char.ofNat byte.toNat).toNat = byte.toNat := by
    rw [Char.ofNat, dif_pos hvalid]
    rfl
  rw [hnat]
  exact hbytes byte hbyte

theorem length_spread (c : Char) :
    (spread (String.utf8EncodeChar c)).length = c.utf8Size := by
  rw [spread, List.length_map, String.length_utf8EncodeChar]

/-- The first byte of a source is an ASCII character if its first character is. -/
theorem head?_bytesOf {d : Char} (hd : d.toNat ≤ 127) (s : List Char) :
    (bytesOf s).head? = some d ↔ s.head? = some d := by
  cases s with
  | nil => exact Iff.rfl
  | cons c s =>
    rw [bytesOf_cons, List.head?_cons, Option.some_inj]
    rcases Nat.lt_or_ge 127 c.toNat with hc | hc
    · obtain ⟨b, tail, hb⟩ := List.exists_cons_of_length_pos
        (length_spread c ▸ c.utf8Size_pos)
      have hlt := lt_of_mem_spread hc (hb ▸ List.mem_cons_self)
      rw [hb, List.cons_append, List.head?_cons, Option.some_inj]
      constructor <;> rintro rfl <;> omega
    · rw [spread_of_ascii hc, List.singleton_append, List.head?_cons, Option.some_inj]

/-! ## Modes and bytes -/

/-- A mode looks at the next character for a slash and a star only. -/
theorem after_congr {next next' : Option Char} (hslash : next = some '/' ↔ next' = some '/')
    (hstar : next = some '*' ↔ next' = some '*') (m : Mode) (c : Char) :
    m.after c next = m.after c next' ∧ m.skips c next = m.skips c next' := by
  have hafter : m.after c next = m.after c next' := by
    cases m <;> simp only [Mode.after, hslash, hstar]
  refine ⟨hafter, ?_⟩
  cases m with
  | code => rw [Mode.skips, Mode.skips, hafter]
  | _ => rfl

/-- Outside ASCII all characters are alike. -/
theorem after_of_lt {c : Char} (hc : 127 < c.toNat) (m : Mode) (next : Option Char) :
    m.after c next = m.after 'é' none ∧ m.skips c next = m.skips 'é' none := by
  have hne {d : Char} (hd : d.toNat ≤ 127) : c ≠ d := by
    rintro rfl
    omega
  have hquote : Quote.ofChar? c = none := by
    cases h : Quote.ofChar? c with
    | none => rfl
    | some q =>
      have hq := Quote.ofChar?_eq_some_iff.mp h
      exact absurd hq (hne (by cases q <;> decide))
  have hchar (q : Quote) : c ≠ q.char ∧ 'é' ≠ q.char := ⟨hne (by cases q <;> decide), by
    cases q <;> decide⟩
  have hafter : m.after c next = m.after 'é' none := by
    cases m with
    | code =>
      have hslash := hne (d := '/') (by decide)
      rw [Mode.after, if_neg fun h => hslash h.1, if_neg fun h => hslash h.1, hquote]
      rfl
    | quoted q => simp [Mode.after, hchar q, hne (d := '\\') (by decide)]
    | lineComment => simp [Mode.after, hne (d := '\n') (by decide)]
    | blockComment => simp [Mode.after, hne (d := '*') (by decide)]
    | _ => rfl
  refine ⟨hafter, ?_⟩
  cases m with
  | code => rw [Mode.skips, Mode.skips, hafter]
  | lineComment => simp [Mode.skips, hne (d := '\n') (by decide)]
  | _ => rfl

/-- A character outside ASCII leaves a mode that another one leaves as it is. Only behind the star
that ends a block comment are the two marked differently. -/
theorem after_after {m : Mode} (hm : m ≠ .blockClosing) :
    (m.after 'é' none).after 'é' none = m.after 'é' none ∧
      (m.after 'é' none).skips 'é' none = m.skips 'é' none := by
  cases m with
  | blockClosing => exact absurd rfl hm
  | quoted q => cases q <;> exact ⟨rfl, rfl⟩
  | escaped q => cases q <;> exact ⟨rfl, rfl⟩
  | _ => exact ⟨rfl, rfl⟩

/-- The bytes of a character of several bytes all have its mark. -/
theorem marks_of_lt {m : Mode} (hm : m ≠ .blockClosing) {bytes : List Char} (hne : bytes ≠ [])
    (h : ∀ b ∈ bytes, 127 < b.toNat) (s : List Char) :
    marks m (bytes ++ s) =
      List.replicate bytes.length (m.skips 'é' none) ++ marks (m.after 'é' none) s := by
  induction bytes generalizing m with
  | nil => exact absurd rfl hne
  | cons b bytes ih =>
    obtain ⟨hb, hbytes⟩ := List.forall_mem_cons.mp h
    obtain ⟨hafter, hskips⟩ := after_of_lt hb m (bytes ++ s).head?
    rw [List.cons_append, marks, hafter, hskips, List.length_cons, List.replicate_succ,
      List.cons_append]
    cases bytes with
    | nil => rfl
    | cons b' bytes =>
      obtain ⟨hsame, hmark⟩ := after_after hm
      have hm' : m.after 'é' none ≠ .blockClosing := by
        cases m with
        | quoted q => cases q <;> nofun
        | _ => nofun
      rw [ih hm' (List.cons_ne_nil _ _) hbytes, hsame, hmark]

/-- The bytes of a source have the marks of their characters. -/
theorem marks_bytes {m : Mode} {s : List Char} (h : m = .blockClosing → s.head? = some '/') :
    marks m (bytesOf s) = byteMarks (markedFrom m s) := by
  induction s generalizing m with
  | nil => rfl
  | cons c s ih =>
    have hcons : byteMarks (markedFrom m (c :: s)) =
        List.replicate c.utf8Size (m.skips c s.head?) ++
          byteMarks (markedFrom (m.after c s.head?) s) := rfl
    rw [bytesOf_cons, hcons, ← ih head?_of_blockClosing]
    rcases Nat.lt_or_ge 127 c.toNat with hc | hc
    · have hm : m ≠ .blockClosing := by
        rintro rfl
        have hslash : c = '/' := by simpa using h rfl
        subst hslash
        exact absurd hc (by decide)
      have hne : spread (String.utf8EncodeChar c) ≠ [] := by
        rw [← List.length_pos_iff, length_spread]
        exact c.utf8Size_pos
      obtain ⟨hafter, hskips⟩ := after_of_lt hc m s.head?
      rw [marks_of_lt hm hne (fun b => lt_of_mem_spread hc), length_spread, hafter, hskips]
    · obtain ⟨hafter, hskips⟩ := after_congr (head?_bytesOf (d := '/') (by decide) s)
        (head?_bytesOf (d := '*') (by decide) s) m c
      have hsize : c.utf8Size = 1 := by
        rw [← length_spread, spread_of_ascii hc]
        rfl
      rw [spread_of_ascii hc, List.singleton_append, marks, hafter, hskips, hsize]
      rfl

/-- The tokens of a source mark the bytes of its skipped characters. -/
theorem tokenMarks_bytes (s : List Char) : tokenMarks (tokensOf s) = byteMarks (marked s) := by
  rw [tokensOf, tokenMarks_tokens, marked_eq]
  exact marks_bytes nofun

end SuiteScope.Source
