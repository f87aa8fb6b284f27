import SuiteScope.Duration
import SuiteScope.Proofs.Text.Digit
import SuiteScope.Proofs.Text.Line

/-!
# Durations read back

A written duration shows milliseconds, hundredths of a second, or minutes and seconds (`Shown`), and
`Shown.read?` tells which and how many. `roundDiv` is off by half a unit at most (`roundDiv_near`).
The binary fraction that is rounded to hundredths is so close to the duration that this holds for
the two steps together, since a duration is a whole number of milliseconds (`near_toHundredths`).

So what is read is within half a unit of the duration. The form is chosen before the seconds are
rounded, though, and at the end of a minute they may be rounded up to sixty (`RoundsToSixty`).
`read?_format` says that this is the only way in which the seconds are not carried.
-/

namespace SuiteScope.Duration

open SuiteScope.Text

/-- What a written duration shows. -/
inductive Shown
  | milliseconds (n : Nat)
  /-- Seconds with two decimals, counted in hundredths. -/
  | seconds (hundredths : Nat)
  | minutes (minutes seconds : Nat)
  deriving DecidableEq, Repr

/-- The duration that is shown, in milliseconds. -/
def Shown.value : Shown → Nat
  | milliseconds n => n
  | seconds h => 10 * h
  | minutes m s => 60000 * m + 1000 * s

/-- Half a unit of the last digit, in milliseconds. Milliseconds are not rounded. -/
def Shown.halfUnit : Shown → Nat
  | milliseconds _ => 0
  | seconds _ => 5
  | minutes _ _ => 500

/-- The duration is within half a unit of what is shown. -/
def Shown.Near (x : Shown) (ms : Nat) : Prop :=
  x.value ≤ ms + x.halfUnit ∧ ms ≤ x.value + x.halfUnit

/-- The seconds that are shown do not make a minute. -/
def Shown.Carried : Shown → Prop
  | milliseconds _ => True
  | seconds h => h < 6000
  | minutes _ s => s ≤ 59

instance : DecidablePred Shown.Carried
  | .milliseconds _ => .isTrue trivial
  | .seconds h => inferInstanceAs (Decidable (h < 6000))
  | .minutes _ s => inferInstanceAs (Decidable (s ≤ 59))

/-- The number that a text starts with, and what follows it. -/
def number? (s : List Char) : Option (Nat × List Char) :=
  if s.takeWhile Char.isDigit = [] then none
  else some (digitsValue (s.takeWhile Char.isDigit), s.dropWhile Char.isDigit)

/-- What a text shows, if it is a duration in one of the three forms. -/
def Shown.read? (s : List Char) : Option Shown :=
  match number? s with
  | some (n, ['m', 's']) => some (milliseconds n)
  | some (n, ['.', d, d', 's']) =>
    if d.isDigit && d'.isDigit then some (seconds (100 * n + digitsValue [d, d'])) else none
  | some (n, 'm' :: ' ' :: rest) =>
    match number? rest with
    | some (k, ['s']) => some (minutes n k)
    | _ => none
  | _ => none

/-- The text of what is shown. -/
def Shown.text : Shown → String
  | milliseconds n => toString n ++ "ms"
  | seconds h => hundredths h ++ "s"
  | minutes m s => toString m ++ "m " ++ toString s ++ "s"

/-- The hundredths of a second that a duration is rounded to. -/
def toHundredths (ms : Nat) : Nat :=
  roundDiv ((nearestBinary ms 1000).1 * 100) (Nat.pow 2 (nearestBinary ms 1000).2)

/-- What `format` shows. -/
def shown (ms : Nat) : Shown :=
  if ms < 1000 then .milliseconds ms
  else if ms < 60000 then .seconds (toHundredths ms)
  else .minutes (ms / 60000) (roundDiv (ms % 60000) 1000)

/-- The seconds of the duration are rounded up to sixty. -/
def RoundsToSixty (ms : Nat) : Prop :=
  (59996 ≤ ms ∧ ms < 60000) ∨ (60000 ≤ ms ∧ 59500 ≤ ms % 60000)

/-- A duration is written as it is shown. -/
theorem format_eq_text (ms : Nat) : format ms = (shown ms).text := by
  unfold format shown
  split
  · rfl
  · split <;> rfl

/-! ## Reading what is written -/

/-- A number is read back. -/
theorem number?_numeral (n : Nat) {s : List Char} (hs : ∀ c ∈ s.head?, c.isDigit = false) :
    number? (numeral n ++ s) = some (n, s) := by
  have hdigits : (numeral n).all Char.isDigit = true :=
    List.all_eq_true.mpr fun c hc => isDigit_of_mem_numeral hc
  have hvalue : digitsValue (numeral n) = n := Digits.value_ofNat n
  rw [number?, takeWhile_append_of_head hdigits hs, dropWhile_append_of_head hdigits hs,
    if_neg (numeral_ne_nil n), hvalue]

/-- Less than a hundred hundredths are written with two digits. -/
theorem exists_two_digits {n : Nat} (hn : n < 100) : ∃ d d' : Char,
    (if n < 10 then "0" else "").toList ++ numeral n = [d, d'] ∧
      (d.isDigit && d'.isDigit) = true ∧ digitsValue [d, d'] = n := by
  have hall : ∀ n : Fin 100, (if n.val < 10 then "0" else "").toList ++ numeral n =
      [Nat.digitChar (n / 10), Nat.digitChar (n % 10)] ∧
        ((Nat.digitChar (n / 10)).isDigit && (Nat.digitChar (n % 10)).isDigit) = true ∧
          digitsValue [Nat.digitChar (n / 10), Nat.digitChar (n % 10)] = n := by decide +kernel
  exact ⟨_, _, hall ⟨n, hn⟩⟩

/-- So is a whole duration. -/
theorem read?_text (x : Shown) : Shown.read? x.text.toList = some x := by
  cases x with
  | milliseconds n =>
    have htext : (Shown.milliseconds n).text.toList = numeral n ++ ['m', 's'] := by
      simp [Shown.text, numeral]
    rw [htext, Shown.read?, number?_numeral n (by simp)]
    rfl
  | seconds h =>
    obtain ⟨d, d', hdigits, hd, hvalue⟩ := exists_two_digits (Nat.mod_lt h (by decide : 0 < 100))
    have htext : (Shown.seconds h).text.toList = numeral (h / 100) ++ ['.', d, d', 's'] := by
      have hcons : ['.', d, d', 's'] = '.' :: ([d, d'] ++ ['s']) := rfl
      rw [hcons, ← hdigits]
      simp [Shown.text, hundredths, numeral]
    have hsum : 100 * (h / 100) + h % 100 = h := Nat.div_add_mod h 100
    rw [htext, Shown.read?, number?_numeral _ (by simp)]
    simp only [hd, if_true, hvalue, hsum]
  | minutes m s =>
    have htext : (Shown.minutes m s).text.toList =
        numeral m ++ 'm' :: ' ' :: (numeral s ++ ['s']) := by
      simp [Shown.text, numeral]
    rw [htext, Shown.read?, number?_numeral m (by simp)]
    simp [number?_numeral s (s := ['s']) (by simp)]

/-! ## Rounding -/

/-- Rounding is off by half the denominator at most. -/
theorem roundDiv_near (num : Nat) {den : Nat} (hden : 0 < den) :
    2 * (roundDiv num den * den) ≤ 2 * num + den ∧
      2 * num ≤ 2 * (roundDiv num den * den) + den := by
  have hdiv := Nat.div_add_mod num den
  have hmod := Nat.mod_lt num hden
  have hsucc : (num / den + 1) * den = num / den * den + den := Nat.succ_mul _ _
  rw [Nat.mul_comm] at hdiv
  unfold roundDiv
  dsimp only
  split
  · omega
  · split
    · omega
    · split <;> omega

/-- There are enough binary digits behind the point. -/
theorem le_two_pow_nearestBinary {ms : Nat} (hms : ms < 60000) :
    1000 ≤ Nat.pow 2 (nearestBinary ms 1000).2 := by
  have hlog : Nat.log2 (ms / 1000) ≤ 5 := by
    rcases Nat.eq_zero_or_pos (ms / 1000) with hzero | hpos
    · rw [hzero]
      decide
    · have hlt := (Nat.log2_lt (k := 6) (Nat.ne_of_gt hpos)).mpr (by omega)
      omega
  have hdigits : 10 ≤ (nearestBinary ms 1000).2 := by
    simp only [nearestBinary, significandDigits]
    omega
  exact Nat.le_trans (by decide) (Nat.pow_le_pow_right (by decide) hdigits)

/-- Rounded twice, a duration is off by half a hundredth of a second at most : it is a whole number
of milliseconds, and the first rounding moves it by half of one at most. -/
theorem near_toHundredths {ms : Nat} (hms : ms < 60000) :
    10 * toHundredths ms ≤ ms + 5 ∧ ms ≤ 10 * toHundredths ms + 5 := by
  have hpow := le_two_pow_nearestBinary hms
  have hfirst : (nearestBinary ms 1000).1 =
      roundDiv (ms * Nat.pow 2 (nearestBinary ms 1000).2) 1000 := rfl
  unfold toHundredths
  generalize Nat.pow 2 (nearestBinary ms 1000).2 = p at hpow hfirst ⊢
  generalize (nearestBinary ms 1000).1 = m at hfirst ⊢
  have hden : 0 < 1000 := by decide
  obtain ⟨hbelow, habove⟩ := roundDiv_near (ms * p) hden
  rw [← hfirst] at hbelow habove
  obtain ⟨hbelow', habove'⟩ := roundDiv_near (m * 100) (Nat.lt_of_lt_of_le hden hpow)
  generalize roundDiv (m * 100) p = h at hbelow' habove' ⊢
  constructor
  · have hlt : 10 * h * p < (ms + 6) * p := by
      rw [Nat.mul_assoc, Nat.add_mul]
      omega
    have := Nat.lt_of_mul_lt_mul_right hlt
    omega
  · have hlt : ms * p < (10 * h + 6) * p := by
      rw [Nat.add_mul, Nat.mul_assoc 10]
      omega
    have := Nat.lt_of_mul_lt_mul_right hlt
    omega

/-! ## What is shown -/

/-- What is shown is the nearest multiple of its unit. -/
theorem near_shown (ms : Nat) : (shown ms).Near ms := by
  unfold shown
  split
  · exact ⟨Nat.le_refl _, Nat.le_refl _⟩
  · split
    next hms => exact near_toHundredths hms
    · have hden : 0 < 1000 := by decide
      have hround := roundDiv_near (ms % 60000) hden
      have hdiv := Nat.div_add_mod ms 60000
      simp only [Shown.Near, Shown.value, Shown.halfUnit]
      omega

/-- How far it may be off depends on the unit, and so on the length. -/
theorem halfUnit_shown (ms : Nat) :
    (shown ms).halfUnit = if ms < 1000 then 0 else if ms < 60000 then 5 else 500 := by
  unfold shown
  split
  · rfl
  · split <;> rfl

/-- Up to 59995 the hundredths are below a minute, and from 59996 on they are not. -/
theorem toHundredths_lt_iff {ms : Nat} (hms : ms < 60000) :
    toHundredths ms < 6000 ↔ ms < 59996 := by
  obtain ⟨hbelow, habove⟩ := near_toHundredths hms
  rcases Nat.lt_trichotomy ms 59995 with hlt | rfl | hgt
  · omega
  · -- half a unit on either side : the binary fraction lies below
    have hvalue : toHundredths 59995 = 5999 := by decide +kernel
    omega
  · omega

/-- A half goes to the even side, which is sixty. -/
theorem roundDiv_le_iff {r : Nat} (hr : r < 60000) : roundDiv r 1000 ≤ 59 ↔ r < 59500 := by
  unfold roundDiv
  dsimp only
  split
  · omega
  · split
    · omega
    · split <;> omega

/-- Sixty seconds are shown as such exactly where rounding reaches them. -/
theorem carried_shown_iff (ms : Nat) : (shown ms).Carried ↔ ¬RoundsToSixty ms := by
  unfold shown RoundsToSixty
  split
  · exact iff_of_true trivial (by omega)
  · split
    next hms =>
      refine (toHundredths_lt_iff hms).trans ?_
      omega
    · refine (roundDiv_le_iff (Nat.mod_lt ms (by decide))).trans ?_
      omega

/-- The text of a duration reads back to within half a unit of its last digit : nothing below a
second, five milliseconds below a minute, and half a second from there on. Its seconds are below
sixty unless they are rounded up to that. -/
theorem read?_format (ms : Nat) :
    ∃ x : Shown, Shown.read? (format ms).toList = some x ∧ x.Near ms ∧
      (x.halfUnit = if ms < 1000 then 0 else if ms < 60000 then 5 else 500) ∧
      (x.Carried ↔ ¬RoundsToSixty ms) := by
  refine ⟨shown ms, ?_, near_shown ms, halfUnit_shown ms, carried_shown_iff ms⟩
  rw [format_eq_text, read?_text]

/-- Sixty seconds in either form. -/
theorem format_of_sixty_seconds :
    Shown.read? (format 59996).toList = some (.seconds 6000) ∧
      ¬(Shown.seconds 6000).Carried ∧
      Shown.read? (format 119999).toList = some (.minutes 1 60) ∧
      ¬(Shown.minutes 1 60).Carried := by
  refine ⟨by decide +kernel, by decide, by decide +kernel, by decide⟩

end SuiteScope.Duration
