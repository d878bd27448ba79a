import Antimeridian.Vec

/-!
# Great-circle arcs

An arc is the shorter way along a great circle between two points of the sphere.  `Arc.locate`
places a point of the great circle relative to the arc, and `Arc.meet` says how two arcs meet.
-/

namespace Antimeridian

/-- The shorter great-circle arc between two points. -/
structure Arc where
  first : Vec3
  last : Vec3

namespace Arc

/-- Where a point of an arc's great circle lies. -/
inductive Place where
  | outside
  /-- The point coincides with an end of the arc. -/
  | endpoint
  | inside
  deriving DecidableEq, Repr

/-- How two arcs meet. -/
inductive Meeting where
  | disjoint
  /-- An end of one arc lies on the other. -/
  | touching
  | crossing
  deriving DecidableEq, Repr

/-- How little the scalar product of an end and the bisector may differ from one before the arc is
too short for the bisector test. -/
def shortness : Float := 1e-10

/-- Whether a point of the arc's great circle that is not one of its ends lies between them.  On a
long arc such a point is closer to the bisector than the ends are.  On a short one rounding blurs
this, and the ends are seen from the point in opposite directions instead. -/
def encloses (arc : Arc) (p : Vec3) : Bool :=
  let middle := (arc.first.add arc.last).normalize
  let reach := arc.first.dot middle
  if shortness < (1 - reach).abs then
    decide (reach < p.dot middle)
  else
    decide ((p.sub arc.first).normalize.dot (p.sub arc.last).normalize < 0)

/-- Places a point of the arc's great circle. -/
def locate (arc : Arc) (p : Vec3) : Place :=
  if p.almostEqual arc.first || p.almostEqual arc.last then .endpoint
  else if arc.encloses p then .inside
  else .outside

/-- The unit normal of the arc's great circle. -/
def normal (arc : Arc) : Vec3 := (arc.first.cross arc.last).normalize

/-- Whether the great circles with these unit normals coincide. -/
def sameCircle (n m : Vec3) : Bool := Double.almostEqual (n.dot m).abs 1

/-- How two arcs of one great circle meet: the first end found on the other arc decides. -/
def meetAlong (v u : Arc) : Meeting :=
  let places := [v.locate u.first, v.locate u.last, u.locate v.first, u.locate v.last]
  match places.find? (· ≠ .outside) with
  | some .endpoint => .touching
  | some .inside => .crossing
  | _ => .disjoint

/-- Whether both arcs pass through a point where their great circles meet. -/
def bothReach (v u : Arc) (p : Vec3) : Bool :=
  v.locate p ≠ .outside && u.locate p ≠ .outside

/-- The sides of a great circle, given by its normal, on which the two ends of an arc lie. -/
def sides (arc : Arc) (normal : Vec3) : Int × Int :=
  (Double.sign (normal.dot arc.first), Double.sign (normal.dot arc.last))

/-- Both ends are strictly on one side. -/
def oneSided (s : Int × Int) : Bool := s.1 = s.2 && s.1 ≠ 0

/-- The ends are strictly on opposite sides. -/
def straddles (s : Int × Int) : Bool := s.1 + s.2 = 0 && s.1 ≠ 0

/-- How two arcs meet.  Arcs of different great circles cross only if each straddles the circle of
the other and one of the two antipodal points common to both circles lies on both arcs. -/
def meet (v u : Arc) : Meeting :=
  let vn := v.normal
  let un := u.normal
  if sameCircle vn un then meetAlong v u
  else
    let vs := v.sides un
    let us := u.sides vn
    if oneSided vs || oneSided us then .disjoint
    else if !(straddles vs && straddles us) then .touching
    else
      let common := (vn.cross un).normalize
      if bothReach v u common || bothReach v u (common.scale (-1)) then .crossing
      else .disjoint

end Arc

end Antimeridian
