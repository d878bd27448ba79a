import Antimeridian.Split.Holes

/-!
# Splitting at the antimeridian

A polygon whose exterior crosses the antimeridian is split into parts that each stay in one
hemisphere.  The exterior and the holes that cross are cut along the meridian circle, and the other
holes are given to the parts.
-/

namespace Antimeridian

namespace Split

/-- The rings of a polygon that are cut: the exterior and the holes that cross. -/
def cutRings (p : Polygon) : List Ring := p.exterior :: p.holes.filter Ring.crosses

/-- The holes that are kept whole, under their ring numbers; the exterior has number zero. -/
def pendingHoles (p : Polygon) : List Pending :=
  (p.holes.zipIdx 1).filterMap fun (hole, ring) =>
    if hole.crosses then none else some ⟨ring, hole⟩

/-- A fault that is reported as a failed split. -/
def failed {α : Type} (fault : Fault) : Traced α := .failWith fault (.splitFailed fault)

/-- A fault of a walk, reported where it comes up. -/
def reported {α : Type} : Except Fault α → Traced α
  | .ok a => .ok a
  | .error fault => failed fault

variable [Trig]

/-- Goes around the parts over the unused vertices, each begun at the first vertex still unused, for
a number of rounds at most.  A part is given its holes before the next one is begun. -/
def polygonsFor (arena : Arena) (meridian : Meridian) : (rounds : Nat) → (left : List Nat) →
    (pending : List Pending) → Traced (List Polygon × List Pending)
  | 0, _, pending => .ok ([], pending)
  | _ + 1, [], pending => .ok ([], pending)
  | rounds + 1, start :: left, pending => do
    let tour ← reported (tourAt arena meridian (start :: left) start)
    let (polygon, kept) ← tour.part.fill pending
    let (polygons, loose) ← polygonsFor arena meridian rounds tour.walk.left kept
    return (polygon :: polygons, loose)

/-- The parts of an arena as polygons, in the order of their first vertices, and the holes that no
part takes.  Every round uses up its start, so there are at most as many of them as vertices. -/
def polygonsOf (arena : Arena) (meridian : Meridian) (pending : List Pending) :
    Traced (List Polygon × List Pending) :=
  polygonsFor arena meridian arena.length (List.range arena.length) pending

end Split

variable [Trig]

open Split in
/-- Splits a polygon.  A hole that crosses has at least two vertices, so only the exterior can be
too short to be cut. -/
def Polygon.split (p : Polygon) : Traced (List Polygon) :=
  if p.exterior.length < 2 then failed (.degenerateRing p.exterior.length)
  else
    let arena := Arena.ofRings (cutRings p)
    let crossings := arena.crossings
    if crossings.length % 2 = 1 then failed (.oddCrossings crossings.length)
    else do
      let (polygons, loose) ← polygonsOf arena (.ofCrossings crossings) (pendingHoles p)
      match loose with
      | hole :: _ => failed (.unassignedHole hole.ring)
      | [] =>
        .note (.polygonSplit p.rings.length p.vertexCount crossings.length polygons.length)
        return polygons

/-- Splits the polygons of a region that cross, each replaced by its parts. -/
def Region.split : Region → Traced Region
  | [] => .ok []
  | p :: rest => do
    let parts ← if p.crosses then p.split else .ok [p]
    return parts ++ (← split rest)

end Antimeridian
