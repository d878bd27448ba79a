import Antimeridian.Angle

/-!
# Coordinates on the sphere

A coordinate is a latitude and a longitude in radians.  The hemisphere of a longitude is its sign:
`-1` to the west of the prime meridian, `1` to the east, and `0` on the meridian itself.
-/

namespace Antimeridian

/-- A point on the sphere. -/
structure Coord where
  lat : Float
  lng : Float

namespace Coord

/-- The point where the equator meets the prime meridian. -/
def origin : Coord := ⟨0, 0⟩

/-- Numeric equality of both parts, under which the two zeros are the same and a NaN differs from
everything. -/
def same (a b : Coord) : Bool := a.lat == b.lat && a.lng == b.lng

/-- The numeric order of two doubles, absent next to a NaN. -/
def compareDouble (x y : Float) : Option Ordering :=
  if x < y then some .lt else if y < x then some .gt else if x == y then some .eq else none

/-- The order by latitude and then longitude, absent as soon as an unordered pair has to be
compared. -/
def compare? (a b : Coord) : Option Ordering :=
  match compareDouble a.lat b.lat with
  | some .eq => compareDouble a.lng b.lng
  | other => other

/-- The hemisphere of a coordinate. -/
def hemisphere (c : Coord) : Int := Double.sign c.lng

/-- A coordinate given in degrees. -/
def ofDegrees (c : Coord) : Coord := ⟨Angle.ofDegrees c.lat, Angle.ofDegrees c.lng⟩

/-- A coordinate converted to degrees. -/
def toDegrees (c : Coord) : Coord := ⟨Angle.toDegrees c.lat, Angle.toDegrees c.lng⟩

end Coord

end Antimeridian
