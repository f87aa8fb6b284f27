/-!
# Durations for people

`format` writes a number of milliseconds in one of three forms : whole milliseconds below a second,
seconds with two decimals below a minute, and minutes with whole seconds from there on. Seconds
with decimals are those of the nearest binary fraction of 53 significant digits, so half a unit is
rounded by the side on which that fraction lies. Ties go to the even neighbour.
-/

namespace SuiteScope.Duration

/-- The integer nearest to `num / den`, and the even one of two. -/
def roundDiv (num den : Nat) : Nat :=
  let q := num / den
  let twice := 2 * (num % den)
  if twice < den then q
  else if den < twice then q + 1
  else if q % 2 = 0 then q
  else q + 1

/-- The number of digits of a binary significand after its first. -/
def significandDigits : Nat := 52

/-- The fraction `m / 2 ^ k` of 53 significant binary digits nearest to `num / den`, for a quotient
from 1 up to `2 ^ 53`. -/
def nearestBinary (num den : Nat) : Nat × Nat :=
  let k := significandDigits - Nat.log2 (num / den)
  (roundDiv (num * Nat.pow 2 k) den, k)

/-- A number of hundredths, with a point before the last two digits. -/
def hundredths (n : Nat) : String :=
  toString (n / 100) ++ "." ++ (if n % 100 < 10 then "0" else "") ++ toString (n % 100)

/-- The text of a duration in milliseconds. -/
def format (ms : Nat) : String :=
  if ms < 1000 then toString ms ++ "ms"
  else if ms < 60000 then
    let (m, k) := nearestBinary ms 1000
    hundredths (roundDiv (m * 100) (Nat.pow 2 k)) ++ "s"
  else toString (ms / 60000) ++ "m " ++ toString (roundDiv (ms % 60000) 1000) ++ "s"

example : format 1015 = "1.01s" ∧ format 59996 = "60.00s" ∧ format 62500 = "1m 2s" := by
  decide +kernel

end SuiteScope.Duration
