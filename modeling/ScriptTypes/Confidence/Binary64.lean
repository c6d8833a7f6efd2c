/-!
# Doubles by their bit pattern

A finite double that is not negative is a whole number of units of `2 ^ -1074`, its *magnitude*,
and is named by its bit pattern. On such doubles the order of the patterns is the order of the
values, so comparisons are comparisons of natural numbers.

* `roundHalfEven`: a quotient rounded to the nearest whole number, a half to the even one.
* `magnitude`: the value behind a pattern, in units.
* `nearest`: the pattern of the double nearest to a quotient of units, a tie to the even pattern.
* `thousandfold`: a thousand times any double.
* `atMost`: the exact comparison of any double with a whole number.
-/

namespace ScriptTypes.Binary64

/-- `num / den` rounded to the nearest whole number, a half to the even one. -/
def roundHalfEven (num den : Nat) : Nat :=
  if den < 2 * (num % den) ∨ (2 * (num % den) = den ∧ num / den % 2 = 1) then num / den + 1
  else num / den

/-- The number of units in one: a unit is the smallest positive double, `2 ^ -1074`. -/
def unitsPerOne : Nat := 1 <<< 1074

/-- The number of patterns in which a double keeps its exponent, `2 ^ 52`. -/
def binade : Nat := 1 <<< 52

/-- The pattern of `1.0`. -/
def onePattern : Nat := 1023 * binade

/-- The pattern of positive infinity. Patterns above it are those of NaN and of the doubles with
a minus sign. -/
def infinityPattern : Nat := 2047 * binade

/-- The value of a finite pattern without a sign, in units. In the first binade the doubles are
subnormal and the pattern is the number of units. -/
def magnitude (pattern : Nat) : Nat :=
  if pattern < binade then pattern
  else (binade + pattern % binade) <<< (pattern / binade - 1)

/-- The pattern of the double nearest to `num / den` units. The significand has 53 bits, so `k`
low bits are rounded away; a carry out of the significand moves into the exponent by itself. -/
def nearest (num den : Nat) : Nat :=
  let k := (num / den).log2 - 52
  k * binade + roundHalfEven num (den <<< k)

/-! ## Any doubles

A pattern of 64 bits is that of a double without a sign, with the sign bit or without it.
-/

/-- The bit of the minus sign. -/
def signBit : Nat := 1 <<< 63

/-- The bit that a NaN has after arithmetic. -/
def quietBit : Nat := 1 <<< 51

/-- A thousand times a double, rounded once. What is too large becomes infinite, and a NaN stays the
one it is, made quiet. -/
def thousandfold (bits : Nat) : Nat :=
  let sign := bits / signBit * signBit
  let pattern := bits % signBit
  if infinityPattern < pattern then sign + (pattern ||| quietBit)
  else if pattern = infinityPattern then bits
  else sign + min (nearest (magnitude pattern * 1000) 1) infinityPattern

/-- Whether a double is at most a whole number, compared exactly. NaN is not. -/
def atMost (bits n : Nat) : Bool :=
  if bits < infinityPattern then magnitude bits ≤ n * unitsPerOne
  else signBit ≤ bits && bits ≤ signBit + infinityPattern

end ScriptTypes.Binary64
