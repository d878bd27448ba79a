import Antimeridian.Double.Nearest

/-!
# Shortest decimals

The decimal written for a double has as few digits as a decimal can have to which that double is
still the nearest one, and among those of that length it is the nearest to the double.
-/

namespace Antimeridian

/-- The number `digits · 10 ^ exponent`. -/
structure Decimal where
  digits : Nat
  exponent : Int
  deriving DecidableEq, Repr

namespace Decimal

/-- The word of the double nearest to a decimal, infinity when the decimal is past them all. -/
def nearestBits (d : Decimal) : Nat :=
  Double.nearestBits (d.digits * Nat.pow 10 d.exponent.toNat) (Nat.pow 10 (-d.exponent).toNat)

/-- Which of two equally near decimals is written. -/
inductive Tie where
  | even
  | up
  deriving DecidableEq, Repr

/-- The two multiples of `10 ^ exponent` around `units / unitsPerOne`, the nearer one first. -/
def neighbours (tie : Tie) (units : Nat) (exponent : Int) : Decimal × Decimal :=
  let num := units * Nat.pow 10 (-exponent).toNat
  let den := Double.unitsPerOne * Nat.pow 10 exponent.toNat
  let low := num / den
  let twice := 2 * (num % den)
  let below : Decimal := ⟨low, exponent⟩
  let above : Decimal := ⟨low + 1, exponent⟩
  let upward := den < twice || (twice = den && (tie = .up || low % 2 = 1))
  if upward then (above, below) else (below, above)

/-- The nearer of the two neighbours to which the double with the word `bits` is the nearest. -/
def standsFor (tie : Tie) (bits units : Nat) (exponent : Int) : Option Decimal :=
  let (near, far) := neighbours tie units exponent
  if near.nearestBits = bits then some near
  else if far.nearestBits = bits then some far
  else none

/-- Tries ever finer powers of ten, from `exponent` downwards. -/
def search (tie : Tie) (bits units : Nat) : (steps : Nat) → (exponent : Int) → Option Decimal
  | 0, _ => none
  | steps + 1, exponent =>
    match standsFor tie bits units exponent with
    | some d => some d
    | none => search tie bits units steps (exponent - 1)

/-- An exponent of ten at which the double `units / unitsPerOne` is less than one unit. -/
def aboveExponent (units : Nat) : Int :=
  let twos : Int := (units.log2 : Int) + 1 - 1074
  Int.fdiv (twos * 30103) 100000 + 2

/-- The decimal equal to `units / unitsPerOne`. -/
def exact (units : Nat) : Decimal := ⟨units * Nat.pow 5 1074, -1074⟩

/-- The shortest decimal that stands for the magnitude of a finite double.  Seventeen digits are
always enough, so the exact decimal is never needed. -/
def shortest (tie : Tie) (x : Float) : Decimal :=
  let units := (Double.decode x).units
  if units = 0 then ⟨0, 0⟩
  else
    (search tie (Double.magnitudeBits x) units 24 (aboveExponent units)).getD (exact units)

end Decimal

end Antimeridian
