import Antimeridian.Ring.Position
import Antimeridian.Split.Walk
import Antimeridian.Traced

/-!
# Holes and their parts

A hole that crosses nothing is kept whole.  It goes to the first part that accepts it, and a part
accepts a hole by the first vertex of the hole that does not lie on the exterior of the part.
-/

namespace Antimeridian.Split

variable [Trig]

/-- A hole that is still without a part, with the number of its ring in the polygon. -/
structure Pending where
  ring : Nat
  hole : Ring

/-- The box of the inside of a part. -/
def Part.box (part : Part) : Box := (Box.ofRing part.exterior).interior

/-- Where a hole lies: at the first of its vertices that is not on the boundary of the part, and on
the boundary if all are. -/
def Part.place (part : Part) (box : Box) (hole : Ring) : Position :=
  let off (c : Coord) : Option Position :=
    match part.exterior.locate part.side box c with
    | .boundary => none
    | other => some other
  (hole.findSome? off).getD .boundary

/-- Whether a part takes a hole: it does unless the hole lies outside. -/
def Part.accepts (part : Part) (box : Box) (hole : Ring) : Bool :=
  part.place box hole ≠ .outside

/-- Asks a part for every pending hole in turn whether it takes it.  A hole that is taken is
reported, the others stay pending. -/
def Part.assign (part : Part) (box : Box) : List Pending → Traced (List Pending × List Pending)
  | [] => .ok ([], [])
  | h :: rest =>
    if part.accepts box h.hole then do
      .note (.holeAssigned h.ring part.side)
      let (taken, kept) ← part.assign box rest
      return (h :: taken, kept)
    else do
      let (taken, kept) ← part.assign box rest
      return (taken, h :: kept)

/-- The polygon of a part with the pending holes that it takes, and the holes that stay pending. -/
def Part.fill (part : Part) (pending : List Pending) : Traced (Polygon × List Pending) := do
  let (taken, kept) ← part.assign part.box pending
  return (⟨part.exterior, taken.map Pending.hole⟩, kept)

end Antimeridian.Split
