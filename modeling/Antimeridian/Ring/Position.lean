import Antimeridian.Box

/-!
# Points inside a ring

A ring in one hemisphere is told from its outside by counting how often it crosses the arc from the
point to its reflection in the other hemisphere, which is outside the ring.
-/

namespace Antimeridian

/-- Where a point lies relative to a ring. -/
inductive Position where
  | outside
  /-- The point lies on a vertex or an edge. -/
  | boundary
  | inside
  deriving DecidableEq, Repr

namespace Ring

/-- How far a point on the prime meridian is moved to leave the hemisphere of the ring. -/
def nudge : Float := 1e-10

/-- The reflection of a point in the other hemisphere; a point on the prime meridian is moved just
past it, away from the hemisphere `side`. -/
def escape (side : Int) (c : Coord) : Coord :=
  ⟨c.lat, if c.lng == 0 then -(Float.ofInt side) * nudge else -c.lng⟩

/-- Goes along the edges of a ring and counts those that cross the arc by which a point escapes.
The scan ends at an edge that leaves the point itself or that only touches the arc.  An edge without
a length is passed over. -/
def scan (way : Arc) : (crossings : Nat) → List (Vec3 × Vec3) → Position
  | crossings, [] => if crossings % 2 = 0 then .outside else .inside
  | crossings, (a, b) :: rest =>
    if way.first.almostEqual a then .boundary
    else if a.almostEqual b then scan way crossings rest
    else
      match Arc.meet ⟨a, b⟩ way with
      | .touching => .boundary
      | .crossing => scan way (crossings + 1) rest
      | .disjoint => scan way crossings rest

/-- Places a point relative to a ring in the hemisphere `side` whose interior lies in `box`.  A ring
of one vertex has a box of one point, so a point in the box is a match. -/
def locate [Trig] (ring : Ring) (side : Int) (box : Box) (c : Coord) : Position :=
  if c.hemisphere ≠ 0 && c.hemisphere ≠ side then .outside
  else
    let point := Vec3.ofCoord c
    if !box.contains point then .outside
    else if ring.length = 1 then .inside
    else scan ⟨point, .ofCoord (escape side c)⟩ 0 (cyclicPairs (ring.map Vec3.ofCoord))

end Ring

end Antimeridian
