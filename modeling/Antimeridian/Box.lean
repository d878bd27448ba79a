import Antimeridian.Arc
import Antimeridian.Ring

/-!
# Bounding boxes

A box bounds points of the sphere in space, one interval for each axis.  Such boxes need no care at
the antimeridian or at a pole, and they refuse most points far from a ring cheaply.
-/

namespace Antimeridian

/-- The numbers from `lo` to `hi`. -/
structure Extent where
  lo : Float
  hi : Float

namespace Extent

/-- An extent without numbers, which joined to another gives that one. -/
def empty : Extent := ⟨Double.infinity, -Double.infinity⟩

/-- The extent of a single number. -/
def single (x : Float) : Extent := ⟨x, x⟩

/-- The least extent around two others; a NaN bound yields to the other one. -/
def join (a b : Extent) : Extent := ⟨Double.least a.lo b.lo, Double.greatest a.hi b.hi⟩

/-- Whether a number lies in the extent. -/
def contains (e : Extent) (x : Float) : Bool := decide (e.lo ≤ x) && decide (x ≤ e.hi)

/-- The distance of the extent from zero. -/
def gap (e : Extent) : Float :=
  if 0 < e.lo then e.lo else if e.hi < 0 then -e.hi else 0

/-- Moves each bound away from zero by a factor, to one at most. -/
def stretch (e : Extent) (factor : Float) : Extent :=
  ⟨if e.lo < 0 then Double.greatest (e.lo * factor) (-1) else e.lo,
   if 0 < e.hi then Double.least (e.hi * factor) 1 else e.hi⟩

end Extent

/-- A box in space with its sides along the axes. -/
structure Box where
  x : Extent
  y : Extent
  z : Extent

namespace Box

/-- A box without points, which merged with another gives that one. -/
def empty : Box := ⟨.empty, .empty, .empty⟩

/-- The box of the origin alone. -/
def zero : Box := ⟨.single 0, .single 0, .single 0⟩

/-- The box of every point of the sphere. -/
def whole : Box := ⟨⟨-1, 1⟩, ⟨-1, 1⟩, ⟨-1, 1⟩⟩

/-- The box of a single point. -/
def ofVec (v : Vec3) : Box := ⟨.single v.x, .single v.y, .single v.z⟩

/-- The least box around two others. -/
def merge (a b : Box) : Box := ⟨a.x.join b.x, a.y.join b.y, a.z.join b.z⟩

/-- Whether a point lies in the box. -/
def contains (box : Box) (v : Vec3) : Bool :=
  box.x.contains v.x && box.y.contains v.y && box.z.contains v.z

/-- The unit vectors along the axes.  Where an arc reaches its extreme in a coordinate without
ending, its plane comes closest to one of them. -/
def axes : List Vec3 :=
  [⟨1, 0, 0⟩, ⟨-1, 0, 0⟩, ⟨0, 1, 0⟩, ⟨0, -1, 0⟩, ⟨0, 0, 1⟩, ⟨0, 0, -1⟩]

/-- The points at which an arc reaches its extreme in a coordinate between its ends.  In the plane
of the arc, with its first end and a vector across it as basis, they are the axes that project to
the far side of the chord from the origin. -/
def extremes (arc : Arc) : List Vec3 :=
  let across := arc.normal.cross arc.first
  let start : Vec2 := ⟨1, 0⟩
  let stop : Vec2 := ⟨arc.last.dot arc.first, arc.last.dot across⟩
  let near := Vec2.side start stop ⟨0, 0⟩
  axes.filterMap fun axis =>
    let p := Vec2.normalize ⟨axis.dot arc.first, axis.dot across⟩
    if Vec2.side start stop p ≠ near then
      some ⟨p.x * arc.first.x + p.y * across.x,
            p.x * arc.first.y + p.y * across.y,
            p.x * arc.first.z + p.y * across.z⟩
    else none

/-- The box of a whole arc. -/
def ofArc (arc : Arc) : Box :=
  let ends := (ofVec arc.first).merge (ofVec arc.last)
  if arc.first.almostEqual arc.last then ends
  else (extremes arc).foldl (fun box v => box.merge (ofVec v)) ends

/-- The box of the arc between two coordinates. -/
def ofCoords [Trig] (a b : Coord) : Box := ofArc ⟨.ofCoord a, .ofCoord b⟩

/-- The box of a ring: of all its edges that have a length. -/
def ofRing [Trig] (ring : Ring) : Box :=
  match ring.map Vec3.ofCoord with
  | [] => empty
  | [v] => ofVec v
  | v :: rest =>
    (cyclicPairs (v :: rest)).foldl
      (fun box (a, b) => if a.almostEqual b then box else box.merge (ofArc ⟨a, b⟩))
      (ofVec v)

/-- Grows the box of a ring to bound the ring's interior too.  Inside a hemisphere an interior point
is a positive combination of points of the ring, scaled to length one, so it is a point of the box
multiplied by at most one over the distance of the box from the origin. -/
def interior (box : Box) : Box :=
  let dx := box.x.gap
  let dy := box.y.gap
  let dz := box.z.gap
  let distance := (dx * dx + dy * dy + dz * dz).sqrt
  if distance ≤ 0 || !distance.isFinite then whole
  else
    let factor := 1 / distance
    ⟨box.x.stretch factor, box.y.stretch factor, box.z.stretch factor⟩

end Box

end Antimeridian
