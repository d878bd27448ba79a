import Antimeridian.Double.Trig

/-!
# Angles

Angles are doubles in radians unless a name says degrees.  Each conversion is one multiplication by
a constant that is itself a quotient of doubles.
-/

namespace Antimeridian.Angle

/-- Half a turn. -/
def pi : Float := Float.ofBits 0x400921fb54442d18

/-- A whole turn. -/
def turn : Float := 2 * pi

/-- One degree in radians. -/
def degree : Float := pi / 180

/-- One radian in degrees. -/
def radian : Float := 180 / pi

/-- An angle given in degrees. -/
def ofDegrees (x : Float) : Float := x * degree

/-- The degrees of an angle. -/
def toDegrees (x : Float) : Float := x * radian

end Antimeridian.Angle
