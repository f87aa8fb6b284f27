import Mathlib.Algebra.Group.Nat.Defs
import SuiteScope.Text.Utf8

/-!
# Bytes and the text in them

The bytes of a text are read back as the text (`decodeLossy_encode`). Bytes that are no text are read
with replacement characters, but around an ASCII byte nothing is lost : bytes may be cut there and the
parts read one by one (`decodeLossy_append_cons`), and an ASCII character is read only where its byte
stands (`mem_decodeLossy_iff`). So bytes that are read as ASCII are ASCII (`encode_decodeLossy`).

What carries the second half is what a character that has been started may still become
(`LeadByte.Sound`) : a valid one, and no ASCII character.
-/

namespace SuiteScope.Text

variable {b : UInt8} {bytes front back : List UInt8} {part : LeadByte} {open? : Option LeadByte}

/-! ## The bytes of a text -/

theorem encode_append (s t : String) : encode (s ++ t) = encode s ++ encode t := by
  rw [encode, String.toList_append, List.flatMap_append]
  rfl

/-! ## One byte -/

theorem decodeFrom_ascii (h : b.toNat < 0x80) (bytes : List UInt8) :
    decodeFrom none (b :: bytes) = some (Char.ofNat b.toNat) :: decodeFrom none bytes := by
  simp [decodeFrom, h]

/-- The first byte of a character. -/
theorem decodeFrom_lead (h : 0x80 ≤ b.toNat) (hpart : LeadByte.ofNat? b.toNat = some part)
    (bytes : List UInt8) : decodeFrom none (b :: bytes) = decodeFrom (some part) bytes := by
  have hb : ¬b.toNat < 0x80 := by omega
  simp [decodeFrom, hb, hpart]

/-- The last byte of a character. -/
theorem decodeFrom_last (hmore : part.more ≤ 1) (hlow : part.low ≤ b.toNat)
    (hhigh : b.toNat ≤ part.high) (bytes : List UInt8) :
    decodeFrom (some part) (b :: bytes) =
      some (Char.ofNat (part.payload * 64 + (b.toNat - 0x80))) :: decodeFrom none bytes := by
  simp [decodeFrom, Option.filter, hlow, hhigh, hmore]

/-- A byte of a character with more of them behind it. -/
theorem decodeFrom_more (hmore : 1 < part.more) (hlow : part.low ≤ b.toNat)
    (hhigh : b.toNat ≤ part.high) (bytes : List UInt8) :
    decodeFrom (some part) (b :: bytes) =
      decodeFrom (some ⟨part.more - 1, part.payload * 64 + (b.toNat - 0x80), 0x80, 0xbf⟩) bytes := by
  have hmore' : ¬part.more ≤ 1 := by omega
  simp [decodeFrom, Option.filter, hlow, hhigh, hmore']

/-- A byte that does not go on with a character breaks it off. -/
theorem decodeFrom_broken (h : ¬(part.low ≤ b.toNat ∧ b.toNat ≤ part.high)) (bytes : List UInt8) :
    decodeFrom (some part) (b :: bytes) = none :: decodeFrom none (b :: bytes) := by
  have hfilter : (some part).filter (fun part => part.low ≤ b.toNat && b.toNat ≤ part.high) = none := by
    simpa [Option.filter] using h
  rw [decodeFrom, hfilter]
  by_cases hb : b.toNat < 0x80
  · simp [decodeFrom, hb]
  · cases hpart : LeadByte.ofNat? b.toNat <;> simp [decodeFrom, hb, hpart]

/-! ## One character -/

theorem LeadByte.ofNat?_two {n : Nat} (hlow : 0xc2 ≤ n) (hhigh : n ≤ 0xdf) :
    ofNat? n = some ⟨1, n - 0xc0, 0x80, 0xbf⟩ :=
  if_pos ⟨hlow, hhigh⟩

theorem LeadByte.ofNat?_three {n : Nat} (hlow : 0xe0 ≤ n) (hhigh : n ≤ 0xef) :
    ofNat? n = some ⟨2, n - 0xe0, if n = 0xe0 then 0xa0 else 0x80, if n = 0xed then 0x9f else 0xbf⟩ := by
  rw [ofNat?, if_neg (by omega)]
  by_cases h : n = 0xe0
  · rw [if_pos h, if_pos h, if_neg (by omega), h]
  · rw [if_neg h, if_neg h]
    by_cases h' : n = 0xed
    · rw [if_pos h', if_pos h']
    · rw [if_neg h', if_neg h', if_pos (by omega)]

theorem LeadByte.ofNat?_four {n : Nat} (hlow : 0xf0 ≤ n) (hhigh : n ≤ 0xf4) :
    ofNat? n = some ⟨3, n - 0xf0, if n = 0xf0 then 0x90 else 0x80, if n = 0xf4 then 0x8f else 0xbf⟩ := by
  rw [ofNat?, if_neg (by omega), if_neg (by omega), if_neg (by omega), if_neg (by omega)]
  by_cases h : n = 0xf0
  · rw [if_pos h, if_pos h, if_neg (by omega), h]
  · rw [if_neg h, if_neg h]
    by_cases h' : n = 0xf4
    · rw [if_neg (by omega), if_pos h', if_pos h', h']
    · rw [if_pos (by omega), if_neg h']

theorem decodeFrom_two {b₁ b₂ : UInt8} (hlow : 0xc2 ≤ b₁.toNat) (hhigh : b₁.toNat ≤ 0xdf)
    (h₂ : 0x80 ≤ b₂.toNat ∧ b₂.toNat ≤ 0xbf) (bytes : List UInt8) :
    decodeFrom none (b₁ :: b₂ :: bytes) =
      some (Char.ofNat ((b₁.toNat - 0xc0) * 64 + (b₂.toNat - 0x80))) :: decodeFrom none bytes := by
  rw [decodeFrom_lead (by omega) (LeadByte.ofNat?_two hlow hhigh),
    decodeFrom_last (Nat.le_refl 1) h₂.1 h₂.2]

theorem decodeFrom_three {b₁ b₂ b₃ : UInt8} (hlow : 0xe0 ≤ b₁.toNat) (hhigh : b₁.toNat ≤ 0xef)
    (h₂ : (if b₁.toNat = 0xe0 then 0xa0 else 0x80) ≤ b₂.toNat ∧
      b₂.toNat ≤ if b₁.toNat = 0xed then 0x9f else 0xbf)
    (h₃ : 0x80 ≤ b₃.toNat ∧ b₃.toNat ≤ 0xbf) (bytes : List UInt8) :
    decodeFrom none (b₁ :: b₂ :: b₃ :: bytes) =
      some (Char.ofNat (((b₁.toNat - 0xe0) * 64 + (b₂.toNat - 0x80)) * 64 + (b₃.toNat - 0x80))) ::
        decodeFrom none bytes := by
  rw [decodeFrom_lead (by omega) (LeadByte.ofNat?_three hlow hhigh),
    decodeFrom_more (Nat.lt_add_one 1) h₂.1 h₂.2, decodeFrom_last (Nat.le_refl 1) h₃.1 h₃.2]

theorem decodeFrom_four {b₁ b₂ b₃ b₄ : UInt8} (hlow : 0xf0 ≤ b₁.toNat) (hhigh : b₁.toNat ≤ 0xf4)
    (h₂ : (if b₁.toNat = 0xf0 then 0x90 else 0x80) ≤ b₂.toNat ∧
      b₂.toNat ≤ if b₁.toNat = 0xf4 then 0x8f else 0xbf)
    (h₃ : 0x80 ≤ b₃.toNat ∧ b₃.toNat ≤ 0xbf) (h₄ : 0x80 ≤ b₄.toNat ∧ b₄.toNat ≤ 0xbf)
    (bytes : List UInt8) :
    decodeFrom none (b₁ :: b₂ :: b₃ :: b₄ :: bytes) =
      some (Char.ofNat ((((b₁.toNat - 0xf0) * 64 + (b₂.toNat - 0x80)) * 64 +
        (b₃.toNat - 0x80)) * 64 + (b₄.toNat - 0x80))) :: decodeFrom none bytes := by
  rw [decodeFrom_lead (by omega) (LeadByte.ofNat?_four hlow hhigh),
    decodeFrom_more (by decide : 1 < 3) h₂.1 h₂.2, decodeFrom_more (Nat.lt_add_one 1) h₃.1 h₃.2,
    decodeFrom_last (Nat.le_refl 1) h₄.1 h₄.2]

/-- The bytes of a character are read back as the character. -/
theorem decodeFrom_encodeChar (c : Char) (bytes : List UInt8) :
    decodeFrom none (String.utf8EncodeChar c ++ bytes) = some c :: decodeFrom none bytes := by
  have hvalid : c.val.toNat < 0xd800 ∨ 0xdfff < c.val.toNat ∧ c.val.toNat < 0x110000 := c.valid
  have hbyte {n : Nat} (hn : n < 256) : (UInt8.ofNat n).toNat = n := UInt8.toNat_ofNat_of_lt' hn
  have hcode {n : Nat} (hn : n = c.val.toNat) :
      some (Char.ofNat n) :: decodeFrom none bytes = some c :: decodeFrom none bytes := by
    rw [hn]
    exact congrArg (some · :: _) (Char.ofNat_toNat c)
  simp only [String.utf8EncodeChar]
  generalize c.val.toNat = v at hvalid hcode ⊢
  split
  next =>
    have h₁ : (UInt8.ofNat v).toNat = v := hbyte (by omega)
    rw [List.singleton_append, decodeFrom_ascii (by omega), h₁, hcode rfl]
  next =>
    split
    next =>
      have h₁ : (UInt8.ofNat (v / 64 % 32 + 192)).toNat = v / 64 % 32 + 192 := hbyte (by omega)
      have h₂ : (UInt8.ofNat (v % 64 + 128)).toNat = v % 64 + 128 := hbyte (by omega)
      rw [List.cons_append, List.singleton_append,
        decodeFrom_two (by omega) (by omega) ⟨by omega, by omega⟩, h₁, h₂, hcode (by omega)]
    next =>
      have h₃ : (UInt8.ofNat (v / 64 % 64 + 128)).toNat = v / 64 % 64 + 128 := hbyte (by omega)
      have h₄ : (UInt8.ofNat (v % 64 + 128)).toNat = v % 64 + 128 := hbyte (by omega)
      split
      next =>
        have h₁ : (UInt8.ofNat (v / 4096 % 16 + 224)).toNat = v / 4096 % 16 + 224 :=
          hbyte (by omega)
        rw [List.cons_append, List.cons_append, List.singleton_append,
          decodeFrom_three (by omega) (by omega) ⟨by split <;> omega, by split <;> omega⟩
            ⟨by omega, by omega⟩,
          h₁, h₃, h₄, hcode (by omega)]
      next =>
        have h₁ : (UInt8.ofNat (v / 262144 % 8 + 240)).toNat = v / 262144 % 8 + 240 :=
          hbyte (by omega)
        have h₂ : (UInt8.ofNat (v / 4096 % 64 + 128)).toNat = v / 4096 % 64 + 128 :=
          hbyte (by omega)
        rw [List.cons_append, List.cons_append, List.cons_append, List.singleton_append,
          decodeFrom_four (by omega) (by omega) ⟨by split <;> omega, by split <;> omega⟩
            ⟨by omega, by omega⟩ ⟨by omega, by omega⟩,
          h₁, h₂, h₃, h₄, hcode (by omega)]

theorem decodeFrom_encode (s : String) : decodeFrom none (encode s) = s.toList.map some := by
  rw [encode]
  induction s.toList with
  | nil => rfl
  | cons c cs ih => rw [List.flatMap_cons, decodeFrom_encodeChar, ih, List.map_cons]

/-- The bytes of a text are read back as the text. -/
theorem decodeLossy_encode (s : String) : decodeLossy (encode s) = s := by
  rw [decodeLossy, decodeFrom_encode, List.map_map]
  exact (congrArg String.ofList (List.map_id _)).trans String.ofList_toList

theorem decode?_encode (s : String) : decode? (encode s) = some s := by
  have hall (cs : List Char) : (cs.map some).mapM id = some cs := by
    induction cs with
    | nil => rfl
    | cons c cs ih => rw [List.map_cons, List.mapM_cons, ih]; rfl
  rw [decode?, decodeFrom_encode, hall, Option.map_some, String.ofList_toList]

theorem encode_injective : Function.Injective encode := fun s t h => by
  rw [← decodeLossy_encode s, h, decodeLossy_encode]

/-! ## What a character may become -/

theorem toNat_ofNat_of_isValidChar {n : Nat} (h : n.isValidChar) : (Char.ofNat n).toNat = n := by
  rw [Char.ofNat, dif_pos h]
  rfl

namespace LeadByte

/-- The least code of the characters that may come of it. -/
def least (part : LeadByte) : Nat :=
  (part.payload * 64 + (part.low - 0x80)) * 64 ^ (part.more - 1)

/-- One more than the greatest code of the characters that may come of it. -/
def bound (part : LeadByte) : Nat :=
  (part.payload * 64 + (part.high - 0x80) + 1) * 64 ^ (part.more - 1)

/-- Only characters that are not ASCII come of it, and all their codes are valid. -/
structure Sound (part : LeadByte) : Prop where
  more : 0 < part.more
  low : 0x80 ≤ part.low
  least : 0x80 ≤ part.least
  bound : part.bound ≤ 0xd800 ∨ 0xe000 ≤ part.least ∧ part.bound ≤ 0x110000

theorem Sound.of_ofNat? {n : Nat} (h : ofNat? n = some part) : part.Sound := by
  have hlow : 0xc2 ≤ n := by
    unfold ofNat? at h
    grind
  have hhigh : n ≤ 0xf4 := by
    unfold ofNat? at h
    grind
  rcases Nat.lt_or_ge n 0xe0 with hn | hn
  · rw [ofNat?_two hlow (by omega)] at h
    cases h
    refine ⟨Nat.one_pos, ?_, ?_, ?_⟩ <;> simp only [LeadByte.least, LeadByte.bound] <;> omega
  rcases Nat.lt_or_ge n 0xf0 with hn' | hn'
  · rw [ofNat?_three hn (by omega)] at h
    cases h
    refine ⟨Nat.two_pos, ?_, ?_, ?_⟩ <;> simp only [LeadByte.least, LeadByte.bound] <;> grind
  · rw [ofNat?_four hn' hhigh] at h
    cases h
    refine ⟨Nat.zero_lt_succ 2, ?_, ?_, ?_⟩ <;> simp only [LeadByte.least, LeadByte.bound] <;> grind

theorem Sound.next (h : part.Sound) (hmore : 1 < part.more) (hlow : part.low ≤ b.toNat)
    (hhigh : b.toNat ≤ part.high) :
    Sound ⟨part.more - 1, part.payload * 64 + (b.toNat - 0x80), 0x80, 0xbf⟩ := by
  have hpow : 64 ^ (part.more - 1) = 64 * 64 ^ (part.more - 1 - 1) := by
    rw [← Nat.pow_succ']
    congr 1
    omega
  have hleast : part.least ≤
      LeadByte.least ⟨part.more - 1, part.payload * 64 + (b.toNat - 0x80), 0x80, 0xbf⟩ := by
    simp only [LeadByte.least, hpow, Nat.sub_self, Nat.add_zero, ← Nat.mul_assoc]
    exact Nat.mul_le_mul_right _ (by omega)
  have hbound :
      LeadByte.bound ⟨part.more - 1, part.payload * 64 + (b.toNat - 0x80), 0x80, 0xbf⟩ ≤
        part.bound := by
    simp only [LeadByte.bound, hpow, ← Nat.mul_assoc]
    exact Nat.mul_le_mul_right _ (by omega)
  obtain ⟨-, -, hascii, hvalid⟩ := h
  exact ⟨by dsimp only; omega, Nat.le_refl _, Nat.le_trans hascii hleast, by omega⟩

/-- The character that is complete is valid, and is not ASCII. -/
theorem Sound.toNat_ofNat (h : part.Sound) (hmore : part.more ≤ 1) (hlow : part.low ≤ b.toNat)
    (hhigh : b.toNat ≤ part.high) :
    0x80 ≤ (Char.ofNat (part.payload * 64 + (b.toNat - 0x80))).toNat := by
  obtain ⟨-, -, hascii, hvalid⟩ := h
  have hpow : 64 ^ (part.more - 1) = 1 := by rw [show part.more - 1 = 0 by omega, Nat.pow_zero]
  simp only [LeadByte.least, LeadByte.bound, hpow, Nat.mul_one] at hascii hvalid
  have hchar : (part.payload * 64 + (b.toNat - 0x80)).isValidChar := by
    unfold Nat.isValidChar
    omega
  rw [toNat_ofNat_of_isValidChar hchar]
  omega

end LeadByte

theorem sound_of_mem_none : ∀ part ∈ (none : Option LeadByte), part.Sound := by
  rintro _ ⟨⟩

/-! ## Byte by byte -/

/-- What a byte adds to the text, and the character that is open behind it. -/
structure Step (open? : Option LeadByte) (b : UInt8) (shown : List (Option Char))
    (next? : Option LeadByte) : Prop where
  read : ∀ bytes, decodeFrom open? (b :: bytes) = shown ++ decodeFrom next? bytes
  sound : ∀ part ∈ next?, part.Sound
  /-- An ASCII character is shown for its own byte only. -/
  ascii : ∀ c : Char, c.toNat < 0x80 → (some c ∈ shown ↔ c.toNat = b.toNat)
  isSome : shown = [] → next?.isSome
  broken : open?.isSome → b.toNat < 0x80 → none ∈ shown

/-- A byte where no character is open. -/
theorem exists_step_none (b : UInt8) : ∃ shown next?, Step none b shown next? := by
  by_cases hb : b.toNat < 0x80
  · refine ⟨[some (Char.ofNat b.toNat)], none, decodeFrom_ascii hb, sound_of_mem_none, ?_,
      fun h => absurd h (List.cons_ne_nil _ _), fun h => (by cases h)⟩
    intro c _
    have hvalid : (Char.ofNat b.toNat).toNat = b.toNat :=
      toNat_ofNat_of_isValidChar (by unfold Nat.isValidChar; omega)
    rw [List.mem_singleton, Option.some_inj]
    exact ⟨fun h => h ▸ hvalid, fun h => by rw [← h, Char.ofNat_toNat]⟩
  · cases hpart : LeadByte.ofNat? b.toNat with
    | some part =>
      refine ⟨[], some part, decodeFrom_lead (by omega) hpart, ?_, ?_, fun _ => rfl,
        fun h => (by cases h)⟩
      · rintro _ ⟨⟩
        exact .of_ofNat? hpart
      · intro c hc
        exact ⟨fun h => absurd h List.not_mem_nil, fun h => by omega⟩
    | none =>
      refine ⟨[none], none, ?_, sound_of_mem_none, ?_,
        fun h => absurd h (List.cons_ne_nil _ _), fun h => (by cases h)⟩
      · intro bytes
        simp [decodeFrom, hb, hpart]
      · intro c hc
        exact ⟨fun h => by simp at h, fun h => by omega⟩

/-- A byte where a character is open goes on with it, or breaks it off and is read on its own. -/
theorem exists_step_some (hpart : part.Sound) (b : UInt8) :
    ∃ shown next?, Step (some part) b shown next? := by
  by_cases hfit : part.low ≤ b.toNat ∧ b.toNat ≤ part.high
  · have hb : 0x80 ≤ b.toNat := Nat.le_trans hpart.low hfit.1
    by_cases hmore : part.more ≤ 1
    · refine ⟨[some _], none, decodeFrom_last hmore hfit.1 hfit.2, sound_of_mem_none, ?_,
        fun h => absurd h (List.cons_ne_nil _ _), fun _ hb' => by omega⟩
      intro c hc
      have hcode := hpart.toNat_ofNat hmore hfit.1 hfit.2
      refine ⟨fun h => ?_, fun h => by omega⟩
      rw [← Option.some_inj.mp (List.mem_singleton.mp h)] at hcode
      exact absurd hcode (Nat.not_le.mpr hc)
    · refine ⟨[], _, decodeFrom_more (by omega) hfit.1 hfit.2, ?_, ?_, fun _ => rfl,
        fun _ hb' => by omega⟩
      · rintro _ ⟨⟩
        exact hpart.next (by omega) hfit.1 hfit.2
      · intro c hc
        exact ⟨fun h => absurd h List.not_mem_nil, fun h => by omega⟩
  · obtain ⟨shown, next?, hread, hsound, hascii, -, -⟩ := exists_step_none b
    refine ⟨none :: shown, next?, ?_, hsound, ?_, fun h => absurd h (List.cons_ne_nil _ _),
      fun _ _ => List.mem_cons_self⟩
    · intro bytes
      rw [decodeFrom_broken hfit, hread, List.cons_append]
    · intro c hc
      simpa using hascii c hc

theorem exists_step (hopen : ∀ part ∈ open?, part.Sound) (b : UInt8) :
    ∃ shown next?, Step open? b shown next? := by
  cases open? with
  | none => exact exists_step_none b
  | some part => exact exists_step_some (hopen part rfl) b

/-! ## ASCII -/

/-- Bytes may be cut in front of an ASCII byte. -/
theorem decodeFrom_append_cons (hopen : ∀ part ∈ open?, part.Sound) (hb : b.toNat < 0x80)
    (front back : List UInt8) :
    decodeFrom open? (front ++ b :: back) =
      decodeFrom open? front ++ some (Char.ofNat b.toNat) :: decodeFrom none back := by
  induction front generalizing open? with
  | nil =>
    cases open? with
    | none => exact decodeFrom_ascii hb back
    | some part =>
      have hlow := (hopen part rfl).low
      rw [List.nil_append, decodeFrom_broken (by omega), decodeFrom_ascii hb]
      rfl
  | cons c front ih =>
    obtain ⟨shown, next?, hstep⟩ := exists_step hopen c
    rw [List.cons_append, hstep.read, hstep.read, ih hstep.sound, List.append_assoc]

/-- An ASCII character is read where its byte stands. -/
theorem mem_decodeFrom_iff (hopen : ∀ part ∈ open?, part.Sound) {c : Char} (hc : c.toNat < 0x80)
    (bytes : List UInt8) :
    some c ∈ decodeFrom open? bytes ↔ UInt8.ofNat c.toNat ∈ bytes := by
  induction bytes generalizing open? with
  | nil => cases open? <;> simp [decodeFrom]
  | cons b bytes ih =>
    obtain ⟨shown, next?, hstep⟩ := exists_step hopen b
    have hbyte : c.toNat = b.toNat ↔ UInt8.ofNat c.toNat = b := by
      rw [← UInt8.toNat_inj, UInt8.toNat_ofNat_of_lt' (show c.toNat < 256 by omega)]
    rw [hstep.read, List.mem_append, hstep.ascii c hc, ih hstep.sound, List.mem_cons, hbyte]

/-- What is read as ASCII and nothing else is ASCII, with no character left open in front. -/
theorem ascii_of_decodeFrom (hopen : ∀ part ∈ open?, part.Sound)
    (h : ∀ c? ∈ decodeFrom open? bytes, ∃ c : Char, c? = some c ∧ c.toNat < 0x80) :
    open? = none ∧ ∀ b ∈ bytes, b.toNat < 0x80 := by
  induction bytes generalizing open? with
  | nil =>
    cases open? with
    | none => exact ⟨rfl, fun _ hb => absurd hb List.not_mem_nil⟩
    | some part =>
      obtain ⟨c, hc, -⟩ := h none List.mem_cons_self
      cases hc
  | cons b bytes ih =>
    obtain ⟨shown, next?, hstep⟩ := exists_step hopen b
    rw [hstep.read] at h
    obtain ⟨rfl, hbytes⟩ := ih hstep.sound fun c? hc => h c? (List.mem_append_right _ hc)
    have hb : b.toNat < 0x80 := by
      cases hshown : shown with
      | nil => cases hstep.isSome hshown
      | cons c? rest =>
        have hmem : c? ∈ shown := hshown ▸ List.mem_cons_self
        obtain ⟨c, rfl, hc⟩ := h c? (List.mem_append_left _ hmem)
        exact (hstep.ascii c hc).mp hmem ▸ hc
    refine ⟨?_, fun b' hb' => ?_⟩
    · cases open? with
      | none => rfl
      | some part =>
        obtain ⟨c, hc, -⟩ := h none (List.mem_append_left _ (hstep.broken rfl hb))
        cases hc
    · rcases List.mem_cons.mp hb' with rfl | hb'
      · exact hb
      · exact hbytes b' hb'

theorem encode_ofList (cs : List Char) : encode (.ofList cs) = cs.flatMap String.utf8EncodeChar := by
  rw [encode, String.toList_ofList]

theorem utf8EncodeChar_ofNat (h : b.toNat < 0x80) :
    String.utf8EncodeChar (Char.ofNat b.toNat) = [b] := by
  have hcode : (Char.ofNat b.toNat).val.toNat = b.toNat :=
    toNat_ofNat_of_isValidChar (by unfold Nat.isValidChar; omega)
  simp only [String.utf8EncodeChar, hcode]
  rw [if_pos (by omega), UInt8.ofNat_toNat]

/-- Bytes are read and written again on both sides of an ASCII byte. -/
theorem encode_decodeLossy_append_cons (h : b.toNat < 0x80) (front back : List UInt8) :
    encode (decodeLossy (front ++ b :: back)) =
      encode (decodeLossy front) ++ b :: encode (decodeLossy back) := by
  simp only [decodeLossy, encode_ofList]
  rw [decodeFrom_append_cons sound_of_mem_none h, List.map_append, List.map_cons,
    List.flatMap_append, List.flatMap_cons, Option.getD_some, utf8EncodeChar_ofNat h,
    List.singleton_append]

theorem mem_encode_iff {c : Char} (hc : c.toNat < 0x80) (s : String) :
    UInt8.ofNat c.toNat ∈ encode s ↔ c ∈ s.toList := by
  rw [← mem_decodeFrom_iff sound_of_mem_none hc, decodeFrom_encode]
  simp

theorem mem_decodeLossy_iff {c : Char} (hc : c.toNat < 0x80) (bytes : List UInt8) :
    c ∈ (decodeLossy bytes).toList ↔ UInt8.ofNat c.toNat ∈ bytes := by
  have hfill : c ≠ '\ufffd' := by
    rintro rfl
    exact absurd hc (by decide)
  rw [← mem_decodeFrom_iff sound_of_mem_none hc, decodeLossy, String.toList_ofList,
    List.mem_map]
  refine ⟨?_, fun h => ⟨some c, h, rfl⟩⟩
  rintro ⟨_ | c', hmem, hc'⟩
  · exact absurd hc'.symm hfill
  · exact hc' ▸ hmem

/-- Bytes that are read as an ASCII text are the bytes of that text. -/
theorem decodeLossy_eq_iff {s : String} (hs : ∀ c ∈ s.toList, c.toNat < 0x80) :
    decodeLossy bytes = s ↔ bytes = encode s := by
  refine ⟨?_, fun h => h ▸ decodeLossy_encode s⟩
  rintro rfl
  have hascii : ∀ b ∈ bytes, b.toNat < 0x80 := by
    refine (ascii_of_decodeFrom sound_of_mem_none ?_).2
    intro c? hc
    have hchar := hs (c?.getD '\ufffd') (by
      rw [decodeLossy, String.toList_ofList]
      exact List.mem_map_of_mem hc)
    cases c? with
    | none => exact absurd hchar (by decide)
    | some c => exact ⟨c, rfl, hchar⟩
  clear hs
  induction bytes with
  | nil => rfl
  | cons b bytes ih =>
    have hb := hascii b List.mem_cons_self
    rw [← List.nil_append (b :: bytes), encode_decodeLossy_append_cons hb,
      ← ih fun b' hb' => hascii b' (List.mem_cons_of_mem _ hb')]
    rfl

end SuiteScope.Text
