import ScriptTypes.Confidence.Binary64

/-!
# Confidences

A confidence is a double between 0 and 1, kept as its bit pattern. It is ordered by value, which
for these patterns is the order of the patterns. Products are rounded once, as one multiplication
of doubles is.

* `Confidence.ofBits`: any double, brought into range.
* `Confidence.percent`: the double nearest to a number of hundredths.
* `Confidence.scale`: times any double, brought into range.
* `Confidence.millionths`: the value rounded to six decimal places.
* `Confidence.sixPlaces`: the decimal text with these places.
-/

namespace ScriptTypes

open Binary64

/-- A double in `[0, 1]`, by its bit pattern. -/
structure Confidence where
  pattern : Nat
  le_one : pattern ≤ onePattern
deriving DecidableEq

namespace Confidence

instance : LE Confidence := ⟨fun a b => a.pattern ≤ b.pattern⟩

instance : LT Confidence := ⟨fun a b => a.pattern < b.pattern⟩

instance (a b : Confidence) : Decidable (a ≤ b) :=
  inferInstanceAs (Decidable (a.pattern ≤ b.pattern))

instance (a b : Confidence) : Decidable (a < b) :=
  inferInstanceAs (Decidable (a.pattern < b.pattern))

instance : Min Confidence := ⟨fun a b => if a ≤ b then a else b⟩

instance : Max Confidence := ⟨fun a b => if a ≤ b then b else a⟩

/-- A pattern without a sign, with everything above one brought down to one. -/
def upToOne (pattern : Nat) : Confidence := ⟨min pattern onePattern, Nat.min_le_right _ _⟩

/-- No confidence at all. -/
def zero : Confidence := ⟨0, Nat.zero_le _⟩

/-- Full confidence. -/
def one : Confidence := ⟨onePattern, Nat.le_refl _⟩

/-- The confidence nearest to `n / 100`. -/
def percent (n : Nat) : Confidence := upToOne (nearest (n * unitsPerOne) 100)

/-- A double, by its bits, brought into range: values above one become one; negative values, a minus
zero and NaN become zero. -/
def ofBits (bits : Nat) : Confidence :=
  if infinityPattern < bits then zero else upToOne bits

/-- The product with a value given in units, rounded once. -/
def times (c : Confidence) (units : Nat) : Confidence :=
  upToOne (nearest (magnitude c.pattern * units) unitsPerOne)

instance : Mul Confidence := ⟨fun c d => c.times (magnitude d.pattern)⟩

/-- The product with any double, by its bits, brought into range. Zero times infinity is NaN, hence
zero. -/
def scale (c : Confidence) (bits : Nat) : Confidence :=
  if infinityPattern < bits then zero
  else if bits = infinityPattern then (if c.pattern = 0 then zero else one)
  else c.times (magnitude bits)

/-- The exact value in millionths, rounded to a whole number of them, a half to the even one. -/
def millionths (c : Confidence) : Nat := roundHalfEven (magnitude c.pattern * 1000000) unitsPerOne

/-- The text of the rounded value, with six decimal places. -/
def sixPlaces (c : Confidence) : String :=
  let digit (place : Nat) : Char := Nat.digitChar (c.millionths / place % 10)
  String.ofList (digit 1000000 :: '.' :: [100000, 10000, 1000, 100, 10, 1].map digit)

end Confidence

end ScriptTypes
