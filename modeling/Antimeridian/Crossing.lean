import Antimeridian.Ring
import Antimeridian.Vec

/-!
# Crossing the antimeridian

An edge crosses the antimeridian when it changes hemisphere and its longitudes are more than half a
turn apart.  The latitude at which it does so is that of its great circle.
-/

namespace Antimeridian

/-- Whether the edge from `a` to `b` crosses the antimeridian. -/
def crosses (a b : Coord) : Bool :=
  a.hemisphere ≠ b.hemisphere && decide (Angle.pi < (a.lng - b.lng).abs)

/-- The latitude at which the great circle through `a` and `b` meets the circle of the prime
meridian and the antimeridian, on the side where the edge from `a` to `b` passes. -/
def cutLatitude [Trig] (a b : Coord) : Float :=
  let normal := (Vec3.ofCoord a).cross (Vec3.ofCoord b)
  -- the meridian circle has the normal `(0, y, 0)`
  let y : Float := if a.lng < 0 || 0 < b.lng then -1 else 1
  let point : Vec3 := ⟨-(normal.z * y), 0, normal.x * y⟩
  Trig.asin (Double.clampUnit point.normalize.z)

namespace Ring

/-- How many edges of a ring cross the antimeridian. -/
def crossings (ring : Ring) : Nat := ring.edges.countP fun (a, b) => Antimeridian.crosses a b

/-- Whether some edge of a ring crosses the antimeridian. -/
def crosses (ring : Ring) : Bool := ring.edges.any fun (a, b) => Antimeridian.crosses a b

end Ring

end Antimeridian
