/-!
# Doubles as exact binary fractions

A finite double is `± mantissa · 2 ^ power`.  `Double.decode` reads these parts off the word, and
`Double.nearestBits` goes the other way: it takes any fraction of natural numbers to the word of the
closest double, a tie to the even mantissa, so a value computed exactly is rounded once and at the
end.
-/

namespace Antimeridian.Double

/-- The word of positive infinity, which is also the first magnitude too large to be finite. -/
def infinityBits : Nat := 0x7ff0000000000000

/-- The word of a double without its sign bit. -/
def magnitudeBits (x : Float) : Nat := x.toBits.toNat % Nat.pow 2 63

/-- The sign bit, which a zero and a NaN carry too. -/
def signBit (x : Float) : Bool := decide (Nat.pow 2 63 ≤ x.toBits.toNat)

/-- A magnitude `mantissa · 2 ^ (exponent - 1074)`. -/
structure Magnitude where
  mantissa : Nat
  exponent : Nat
  deriving DecidableEq, Repr

/-- The magnitude of a finite double.  The exponent counts from the least power of two a double can
hold, so it is never negative, and a subnormal number shares the exponent of the least normal ones.
-/
def decode (x : Float) : Magnitude :=
  let bits := magnitudeBits x
  let field := bits / Nat.pow 2 52
  if field = 0 then ⟨bits, 0⟩ else ⟨bits % Nat.pow 2 52 + Nat.pow 2 52, field - 1⟩

/-- How many of the least positive double make up one. -/
def unitsPerOne : Nat := Nat.pow 2 1074

/-- The numerator over `unitsPerOne` of a finite double's magnitude. -/
def Magnitude.units (m : Magnitude) : Nat := m.mantissa * Nat.pow 2 m.exponent

/-- The quotient rounded to the nearest natural number, a half to the even neighbour. -/
def roundDiv (num den : Nat) : Nat :=
  let floor := num / den
  let twice := 2 * (num % den)
  if twice < den then floor
  else if den < twice then floor + 1
  else floor + floor % 2

/-- The exponent, counted as in `Magnitude`, at which the mantissa of `num / den` has 53 binary
digits, or zero where a subnormal number has fewer. -/
def exponentFor (num den : Nat) : Nat :=
  -- `num / den` lies strictly between the powers `2 ^ (size - 1)` and `2 ^ (size + 1)`
  let size := num.log2 + 1074
  let exponent := size - den.log2 - 52
  if num * unitsPerOne < den * Nat.pow 2 (52 + exponent) then exponent - 1 else exponent

/-- The word of the double nearest to `num / den`, infinity when that is past the largest double.
Consecutive doubles have consecutive words, so a mantissa rounded up to 54 digits carries into the
exponent field by itself. -/
def nearestBits (num den : Nat) : Nat :=
  if num = 0 then 0
  else
    let exponent := exponentFor num den
    let mantissa := roundDiv (num * unitsPerOne) (den * Nat.pow 2 exponent)
    min (exponent * Nat.pow 2 52 + mantissa) infinityBits

/-- The double with this sign and, without its sign bit, this word. -/
def ofMagnitude (negative : Bool) (bits : Nat) : Float :=
  Float.ofBits (if negative then bits + Nat.pow 2 63 else bits).toUInt64

/-- The quiet NaN. -/
def nan : Float := Float.ofBits 0x7ff8000000000000

/-- Positive infinity. -/
def infinity : Float := Float.ofBits 0x7ff0000000000000

end Antimeridian.Double
