import Antimeridian.Coord

/-!
# Vectors

Points of the sphere as vectors in space, and vectors in the plane of an arc.  The order of every
sum and product is fixed, since doubles round after each step.
-/

namespace Antimeridian

/-- A vector in a plane. -/
structure Vec2 where
  x : Float
  y : Float

namespace Vec2

/-- The vector scaled to length one; one without a positive length becomes zero. -/
def normalize (v : Vec2) : Vec2 :=
  let length := (v.x * v.x + v.y * v.y).sqrt
  if 0 < length then ⟨v.x / length, v.y / length⟩ else ⟨0, 0⟩

/-- The side of the line from `a` to `b` on which `p` lies: `0` on the line, `-1` on its left, and
`1` on its right or when a NaN leaves the side open. -/
def side (a b p : Vec2) : Int :=
  let area := (p.x - a.x) * (b.y - a.y) - (b.x - a.x) * (p.y - a.y)
  if area == 0 then 0 else if area < 0 then -1 else 1

end Vec2

/-- A vector in space; a point of the sphere is one of length one. -/
structure Vec3 where
  x : Float
  y : Float
  z : Float

namespace Vec3

/-- The zero vector. -/
def zero : Vec3 := ⟨0, 0, 0⟩

/-- The sum of two vectors. -/
def add (v w : Vec3) : Vec3 := ⟨v.x + w.x, v.y + w.y, v.z + w.z⟩

/-- The difference of two vectors. -/
def sub (v w : Vec3) : Vec3 := ⟨v.x - w.x, v.y - w.y, v.z - w.z⟩

/-- A vector multiplied by a number. -/
def scale (v : Vec3) (k : Float) : Vec3 := ⟨v.x * k, v.y * k, v.z * k⟩

/-- The scalar product. -/
def dot (v w : Vec3) : Float := v.x * w.x + v.y * w.y + v.z * w.z

/-- The vector product. -/
def cross (v w : Vec3) : Vec3 :=
  ⟨v.y * w.z - v.z * w.y, v.z * w.x - v.x * w.z, v.x * w.y - v.y * w.x⟩

/-- The vector scaled to length one; one without a positive length becomes zero. -/
def normalize (v : Vec3) : Vec3 :=
  let length := (v.dot v).sqrt
  if 0 < length then ⟨v.x / length, v.y / length, v.z / length⟩ else zero

/-- Whether all three parts are almost equal. -/
def almostEqual (v w : Vec3) : Bool :=
  Double.almostEqual v.x w.x && Double.almostEqual v.y w.y && Double.almostEqual v.z w.z

variable [Trig]

/-- The point of the sphere at a coordinate. -/
def ofCoord (c : Coord) : Vec3 :=
  let radius := Trig.cos c.lat
  ⟨Trig.cos c.lng * radius, Trig.sin c.lng * radius, Trig.sin c.lat⟩

/-- The coordinate of a point of the sphere. -/
def toCoord (v : Vec3) : Coord :=
  ⟨Trig.asin (Double.clampUnit v.z), Trig.atan2 v.y v.x⟩

end Vec3

end Antimeridian
