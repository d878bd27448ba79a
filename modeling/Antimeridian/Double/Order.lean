import Antimeridian.Double.Nearest

/-!
# Comparing doubles

The numeric comparisons of doubles leave a NaN unordered and cannot tell the two zeros apart.  The
operations here say what becomes of both: a sign, the lesser and the greater of two numbers, a
clamp, and a total order for sorting.
-/

namespace Antimeridian.Double

/-- The sign of a number: `-1` below zero, `1` above it, and `0` for both zeros and for a NaN. -/
def sign (x : Float) : Int :=
  if x < 0 then -1 else if 0 < x then 1 else 0

/-- The lesser of two numbers; next to a NaN, the other one. -/
def least (x y : Float) : Float :=
  if x.isNaN then y else if y < x then y else x

/-- The greater of two numbers; next to a NaN, the other one. -/
def greatest (x y : Float) : Float :=
  if x.isNaN then y else if x < y then y else x

/-- The nearest number between `-1` and `1`; a NaN stays a NaN. -/
def clampUnit (x : Float) : Float :=
  if x < -1 then -1 else if 1 < x then 1 else x

/-- Whether two numbers are equal or closer than the gap between one and the next double. -/
def almostEqual (x y : Float) : Bool :=
  x == y || decide ((x - y).abs < Float.ofBits 0x3cb0000000000000)

/-- The place of a double in the total order: negative numbers first, then `-0`, `+0`, positive
numbers, infinity and NaN. -/
def orderKey (x : Float) : Int :=
  if signBit x then -(magnitudeBits x : Int) - 1 else magnitudeBits x

/-- The total order of doubles. -/
def totalLe (x y : Float) : Bool := decide (orderKey x ≤ orderKey y)

end Antimeridian.Double
