import Antimeridian.Crossing
import Antimeridian.Traced

/-!
# Rings around a pole

A ring around a pole crosses the antimeridian exactly once.  It is opened there: the ring goes along
the antimeridian up to a latitude limit, over to the other side and back, and so becomes an ordinary
ring on a flat map.
-/

namespace Antimeridian.Ring

variable [Trig]

/-- The four vertices put into the edge from `a` to `b`: along the antimeridian on the side of `a`
up to the limit, and back on the side of `b`. -/
def capVertices (limit : Float) (a b : Coord) : List Coord :=
  let cut := cutLatitude a b
  let lng := if a.lng < 0 then -Angle.pi else Angle.pi
  let pole := Float.ofInt (Double.sign cut) * limit
  [⟨cut, lng⟩, ⟨pole, lng⟩, ⟨pole, -lng⟩, ⟨cut, -lng⟩]

/-- Opens a ring around a pole at the antimeridian, with a latitude limit in radians. -/
def openAtPole (ring : Ring) (limit : Float) : Traced Ring :=
  if ring.crossings ≠ 1 then
    let fault := Fault.polarCrossings ring.crossings
    .failWith fault (.openingFailed fault)
  else
    .ok (ring.edges.flatMap fun (a, b) =>
      if Antimeridian.crosses a b then a :: capVertices limit a b else [a])

end Antimeridian.Ring
