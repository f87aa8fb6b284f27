import SuiteScope.Text.Blank
import SuiteScope.Text.Digit

/-!
# Numerals

A number may be written with zeros in front (`Digits`). `readCount?` reads its value if that is
below the bound (`Digits.readCount?_chars`). In particular it reads back `numeral n`, which is `n`
as it is written in decimal (`readCount?_numeral`).
-/

namespace SuiteScope.Text

/-- A number in decimal, most significant digit first. -/
def numeral (n : Nat) : List Char :=
  Nat.toDigits 10 n

/-- A number is written in digits. -/
theorem isDigit_of_mem_numeral {n : Nat} {c : Char} (h : c ∈ numeral n) : c.isDigit = true :=
  Nat.isDigit_of_mem_toDigits (by decide) (by decide) h

theorem numeral_ne_nil (n : Nat) : numeral n ≠ [] :=
  Nat.toDigits_ne_nil

/-- The codes of the digits stand in one row. -/
theorem toNat_of_isDigit {c : Char} (h : c.isDigit = true) : 48 ≤ c.toNat ∧ c.toNat ≤ 57 := by
  simp only [Char.isDigit, Bool.and_eq_true, decide_eq_true_eq, UInt32.le_iff_toNat_le] at h
  exact h

/-- ASCII digits are among the decimal digits of all scripts. -/
theorem isDecimalDigit_of_isDigit {c : Char} (h : c.isDigit = true) : isDecimalDigit c = true := by
  have hcode := toNat_of_isDigit h
  rw [isDecimalDigit, if_pos (by omega), h]

/-- No digit is a blank. -/
theorem isBlank_of_isDigit {c : Char} (h : c.isDigit = true) : isBlank c = false := by
  have hcode := toNat_of_isDigit h
  have hspace : c ≠ ' ' := by
    rintro rfl
    exact absurd h (by decide)
  rw [isBlank, if_pos (by omega)]
  simp [hspace]
  omega

/-- A character that is no digit is in no numeral. -/
theorem not_mem_numeral {c : Char} (h : c.isDigit = false) (n : Nat) : c ∉ numeral n := by
  intro hmem
  rw [isDigit_of_mem_numeral hmem] at h
  exact absurd h (by decide)

/-! ## Numbers as they may be written -/

/-- At least one ASCII digit, and nothing else. -/
structure Digits where
  chars : List Char
  chars_ne_nil : chars ≠ []
  all_isDigit : chars.all Char.isDigit = true

namespace Digits

/-- The number that is written. -/
def value (d : Digits) : Nat :=
  Nat.ofDigitChars 10 d.chars 0

/-- A number as it is written in decimal, without zeros in front. -/
def ofNat (n : Nat) : Digits :=
  ⟨numeral n, numeral_ne_nil n, List.all_eq_true.mpr fun _ => isDigit_of_mem_numeral⟩

/-- The digits of a number have its value. -/
theorem value_ofNat (n : Nat) : (ofNat n).value = n :=
  Nat.ofDigitChars_ten_toDigits

theorem all_isDecimalDigit (d : Digits) : d.chars.all isDecimalDigit = true :=
  List.all_eq_true.mpr fun c hc =>
    isDecimalDigit_of_isDigit (List.all_eq_true.mp d.all_isDigit c hc)

/-- Digits stop everything that no digit belongs to. -/
theorem head_append {p : Char → Bool} (hp : ∀ c : Char, c.isDigit = true → p c = false)
    (d : Digits) (s : List Char) : ∀ c ∈ (d.chars ++ s).head?, p c = false := by
  obtain ⟨c, rest, hcons⟩ := List.exists_cons_of_ne_nil d.chars_ne_nil
  have hc : c.isDigit = true := List.all_eq_true.mp d.all_isDigit c (by simp [hcons])
  simpa [hcons] using hp c hc

/-- A written number is read if it is below the bound. -/
theorem readCount?_chars (bound : Nat) (d : Digits) :
    readCount? bound d.chars = if d.value < bound then some d.value else none := by
  have hne : d.chars.isEmpty = false := List.isEmpty_eq_false_iff.mpr d.chars_ne_nil
  have hvalue : digitsValue d.chars = d.value := rfl
  rw [readCount?, hne, d.all_isDigit, hvalue]
  rfl

end Digits

/-- A number that is written in decimal is read back if it is below the bound. -/
theorem readCount?_numeral (bound n : Nat) :
    readCount? bound (numeral n) = if n < bound then some n else none := by
  have hread := (Digits.ofNat n).readCount?_chars bound
  rwa [Digits.value_ofNat] at hread

end SuiteScope.Text
