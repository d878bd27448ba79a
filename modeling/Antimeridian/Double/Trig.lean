import Antimeridian.Double.Order

/-!
# Sine, cosine, arcsine and arctangent

Each function is evaluated in fixed point, on natural numbers scaled by a power of two with more
than a hundred bits to spare, and the value is rounded once.  The result is the nearest double,
except where the value lies so close to the midpoint of two doubles that functions in common use
differ on which of the two they return.  There the machine's own function chooses between them, so
that results agree with those of other programs on the same machine; it has no say beyond this
choice.

Truncation could push a fixed-point value past the bound that the function itself never exceeds.  It
is capped there: a sine at one, an angle between positive directions at a right angle.

Geometry does not name these functions.  It is written for any `Trig`, and they are the one that is
meant when nothing else is said.
-/

namespace Antimeridian.Double

/-- The word of the double that `num / den` is rounded to.  A value within a thirty-second of
their gap from the midpoint of two doubles goes to `choice` if that is one of the two, and every
other value to the nearest double. -/
def roundedBits (choice num den : Nat) : Nat :=
  let exponent := exponentFor num den
  let scaled := num * unitsPerOne
  let unit := den * Nat.pow 2 exponent
  let low := exponent * Nat.pow 2 52 + scaled / unit
  let twice := 2 * (scaled % unit)
  let offset := if twice < unit then unit - twice else twice - unit
  if 16 * offset ≤ unit && (choice = low || choice = low + 1) then choice
  else nearestBits num den

/-- The double that `num / den` is rounded to, under a sign and with the machine's choice. -/
def rounded (negative : Bool) (machine : Float) (num den : Nat) : Float :=
  ofMagnitude negative (roundedBits (magnitudeBits machine) num den)

/-- How many units make up one where `π` is given in fixed point. -/
def piUnit : Nat := Nat.pow 2 1344

/-- The number `π · piUnit`, rounded down. -/
def piScaled : Nat :=
  0x3243f6a8885a308d313198a2e03707344a4093822299f31d0082efa98ec4e6c89452821e638d01377be5466cf34e90c6cc0ac29b7c97c50dd3f84d5b5b54709179216d5d98979fb1bd1310ba698dfb5ac2ffd72dbd01adfb7b8e1afed6a267e96ba7c9045f12c7f9924a19947b3916cf70801f2e2858efc16636920d871574e69a458fea3f4933d7e0d95748f728eb658718bcd5882154aee7b54a41dc25a59b59c30d5392af26013

/-- A right angle with `places` binary places, rounded down. -/
def quarterTurn (places : Nat) : Nat := piScaled * Nat.pow 2 places / (2 * piUnit)

/-- The sum `t - t·s/((n+1)(n+2)) + t·s²/((n+1)…(n+4)) - …`, with the square `s` and every term in
fixed point: the series of the sine from `t = x`, `n = 1`, and of the cosine from `t = 1`,
`n = 0`. -/
def alternatingSeries (places square : Nat) : (terms n term : Nat) → Int
  | 0, _, _ => 0
  | terms + 1, n, term =>
    if term = 0 then 0
    else
      let next := term * square / Nat.pow 2 places / ((n + 1) * (n + 2))
      term - alternatingSeries places square terms (n + 2) next

/-- The binary places kept for a function of a number with this exponent: all of its own, and enough
more to decide the rounding. -/
def placesFor (m : Magnitude) : Nat := max 192 (1202 - m.exponent)

/-- An angle as whole quarter turns and the rest of a turn, in fixed point. -/
structure Reduced where
  quarters : Nat
  rest : Nat

/-- Takes the quarter turns out of an angle.  This is done with 1344 places, so that the error of
`π` stays small even when the angle is as large as a double can be. -/
def reduce (m : Magnitude) (places : Nat) : Reduced :=
  let angle := m.units * Nat.pow 2 270
  let quarter := quarterTurn 1344
  ⟨angle / quarter, angle % quarter * Nat.pow 2 places / piUnit⟩

/-- The sine of an angle below a quarter turn, in fixed point. -/
def sineOf (places angle : Nat) : Nat :=
  let one := Nat.pow 2 places
  min (alternatingSeries places (angle * angle / one) 64 1 angle).toNat one

/-- The cosine of an angle below a quarter turn, in fixed point. -/
def cosineOf (places angle : Nat) : Nat :=
  let one := Nat.pow 2 places
  min (alternatingSeries places (angle * angle / one) 64 0 one).toNat one

/-- The sine of an angle in radians; a NaN has none, nor has an infinity. -/
def sin (x : Float) : Float :=
  if x.isFinite then
    let m := decode x
    let places := placesFor m
    let r := reduce m places
    let size := if r.quarters % 2 = 0 then sineOf places r.rest else cosineOf places r.rest
    rounded (xor (signBit x) (decide (2 ≤ r.quarters % 4))) (Float.sin x.abs) size
      (Nat.pow 2 places)
  else nan

/-- The cosine of an angle in radians; a NaN has none, nor has an infinity. -/
def cos (x : Float) : Float :=
  if x.isFinite then
    let m := decode x
    let places := placesFor m
    let r := reduce m places
    let size := if r.quarters % 2 = 0 then cosineOf places r.rest else sineOf places r.rest
    rounded (decide (r.quarters % 4 = 1 ∨ r.quarters % 4 = 2)) (Float.cos x.abs) size
      (Nat.pow 2 places)
  else nan

/-- The whole part of the square root of a number below `4 ^ digits`, one binary digit at a time. -/
def squareRoot : (digits n : Nat) → Nat
  | 0, _ => 0
  | digits + 1, n =>
    let root := 2 * squareRoot digits (n / 4)
    if (root + 1) * (root + 1) ≤ n then root + 1 else root

/-- The positive series `t + t·u·2/3 + t·u²·(2·4)/(3·5) + …` in fixed point.  It sums to the angle
whose sine squared is `u` when `t` is the product of the angle's sine and cosine. -/
def angleSeries (places square : Nat) : (terms n term : Nat) → Nat
  | 0, _, _ => 0
  | terms + 1, n, term =>
    if term = 0 then 0
    else
      let next := term * square / Nat.pow 2 places * (2 * n) / (2 * n + 1)
      term + angleSeries places square terms (n + 1) next

/-- The angle in fixed point of a direction at most an eighth turn above the first axis.  A steep
direction is first turned back by an eighth turn, which keeps the series short. -/
def lowAngle (places y x : Nat) : Nat :=
  let angle (y x : Nat) :=
    let square := x * x + y * y
    angleSeries places (y * y * Nat.pow 2 places / square) (2 * places) 1
      (y * x * Nat.pow 2 places / square)
  if 2 * y ≤ x then angle y x
  else quarterTurn places / 2 - angle (x - y) (x + y)

/-- The angle in fixed point, from zero to a right angle, of a direction with both parts positive or
zero. -/
def angleOf (places y x : Nat) : Nat :=
  let quarter := quarterTurn places
  min (if y ≤ x then lowAngle places y x else quarter - lowAngle places x y) quarter

/-- The angle from `-π/2` to `π/2` with this sine; a NaN beyond `-1` and `1`. -/
def asin (x : Float) : Float :=
  if x.abs ≤ 1 then
    let m := decode x
    let places := placesFor m
    let sine := m.units * Nat.pow 2 places / unitsPerOne
    let cosine := squareRoot (places + 1) (Nat.pow 2 (2 * places) - sine * sine)
    rounded (signBit x) (Float.asin x.abs) (angleOf places sine cosine) (Nat.pow 2 places)
  else nan

/-- The direction of a point in the first quadrant as two natural numbers; an infinite part
outweighs every finite one, and the origin lies in the direction of the first axis. -/
def direction (y x : Float) : Nat × Nat :=
  if y.isInf then (1, if x.isInf then 1 else 0)
  else if x.isInf then (0, 1)
  else
    let high := (decode y).units
    let wide := (decode x).units
    if high = 0 then (0, 1) else (high, wide)

/-- The angle from `-π` to `π` of the direction of `(x, y)`, where the signs of zeros count. -/
def atan2 (y x : Float) : Float :=
  if y.isNaN || x.isNaN then nan
  else
    let (high, wide) := direction y x
    if signBit x then
      let angle := 2 * quarterTurn 192 - angleOf 192 high wide
      rounded (signBit y) (Float.atan2 y.abs x) angle (Nat.pow 2 192)
    else
      let places := 192 + (wide.log2 - high.log2)
      rounded (signBit y) (Float.atan2 y.abs x) (angleOf places high wide) (Nat.pow 2 places)

end Antimeridian.Double

namespace Antimeridian

/-- A library of the functions of angles. -/
class Trig where
  sin : Float → Float
  cos : Float → Float
  asin : Float → Float
  /-- The angle of the direction of `(x, y)`, the second part first. -/
  atan2 : Float → Float → Float

/-- The functions that round to the nearest double. -/
instance Double.trig : Trig := ⟨Double.sin, Double.cos, Double.asin, Double.atan2⟩

end Antimeridian
