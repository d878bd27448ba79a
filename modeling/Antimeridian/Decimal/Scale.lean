import Antimeridian.Decimal.Shortest

/-!
# Decimals scaled to doubles

A quick way from a decimal to a double works in double arithmetic: the digits are rounded to a
double and then multiplied or divided by a power of ten that is rounded too.  The result is the
nearest double as long as digits and power are doubles themselves, and may be a neighbour of it
otherwise.
-/

namespace Antimeridian.Decimal

/-- The double nearest to a whole number. -/
def wholeDouble (n : Nat) : Float := Double.ofMagnitude false (Double.nearestBits n 1)

/-- The double nearest to a power of ten; `10 ^ 308` is the last one with such a double. -/
def tenTo (n : Nat) : Float := wholeDouble (Nat.pow 10 n)

/-- Divides by a power of ten, by at most `10 ^ 308` at a time.  What is left of a number below
`2 ^ 64` after two such divisions is zero. -/
def divideByTens (x : Float) (n : Nat) : Float :=
  if n ≤ 308 then x / tenTo n
  else if n ≤ 616 then x / tenTo 308 / tenTo (n - 308)
  else 0

/-- Multiplies by a power of ten, when the result is a finite double. -/
def multiplyByTens? (x : Float) (n : Nat) : Option Float :=
  if n ≤ 308 then
    let y := x * tenTo n
    if y.isInf then none else some y
  else if x == 0 then some x
  else none

/-- The double that a decimal with digits below `2 ^ 64` is scaled to, when it is finite. -/
def toDouble? (d : Decimal) : Option Float :=
  match d.exponent with
  | .ofNat n => multiplyByTens? (wholeDouble d.digits) n
  | .negSucc n => some (divideByTens (wholeDouble d.digits) (n + 1))

end Antimeridian.Decimal
