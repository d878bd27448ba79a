import Antimeridian.Polygon

/-!
# Rings laid out for cutting

The rings that are to be cut are laid out one after the other in an arena, where each vertex knows
its neighbours by index.  On the way every vertex gets a hemisphere, a vertex on the prime meridian
that of the ring so far, and every edge that changes hemisphere gets a crossing of the meridian
circle, which is the prime meridian together with the antimeridian.
-/

namespace Antimeridian.Split

/-- Where an edge crosses the meridian circle. -/
structure Crossing where
  /-- The edge leads from the western to the eastern hemisphere. -/
  eastward : Bool
  /-- The edge crosses the prime meridian and not the antimeridian. -/
  prime : Bool
  lat : Float
  /-- The index of the vertex that the edge leaves. -/
  vertex : Nat

namespace Crossing

/-- The place along the meridian circle.  It grows with the latitude on the antimeridian, and past
either pole it goes on along the prime meridian. -/
def key (c : Crossing) : Float :=
  if c.prime then (if c.lat < 0 then -Angle.pi else Angle.pi) - c.lat else c.lat

/-- The vertex put at a crossing on the edge of the hemisphere `side`. -/
def point (c : Crossing) (side : Int) : Coord :=
  ⟨c.lat, if c.prime then 0 else if 0 < side then Angle.pi else -Angle.pi⟩

/-- The crossing on the edge from `a` to `b`, which leaves the hemisphere `side`. -/
def ofEdge [Trig] (side : Int) (vertex : Nat) (a b : Coord) : Crossing where
  eastward := side < 0
  prime := (a.lng - b.lng).abs < Angle.pi
  lat := cutLatitude a b
  vertex := vertex

end Crossing

/-- A vertex in the arena. -/
structure Node where
  coord : Coord
  /-- The hemisphere, that of the ring so far for a vertex on the prime meridian. -/
  side : Int
  /-- The index of the next vertex of the ring. -/
  next : Nat
  /-- The index of the previous vertex of the ring. -/
  prev : Nat
  /-- The crossing on the edge to the next vertex. -/
  crossing : Option Crossing

/-- The first hemisphere that a ring has a vertex in, zero when all lie on the prime meridian. -/
def leadingSide (ring : Ring) : Int :=
  ((ring.map Coord.hemisphere).find? (· ≠ 0)).getD 0

/-- Whether an edge leaves the hemisphere `side` for the one of its end `b`. -/
def leaves (side : Int) (b : Coord) : Bool :=
  side ≠ 0 && b.hemisphere ≠ 0 && b.hemisphere ≠ side

variable [Trig]

/-- The nodes of the edges of a ring that takes the indices from `first` up to `first + size`,
beginning with the edge that leaves the vertex `index` in the hemisphere `side`. -/
def nodesFrom (first size : Nat) : (side : Int) → (index : Nat) → List (Coord × Coord) → List Node
  | _, _, [] => []
  | side, index, (a, b) :: rest =>
    let changes := leaves side b
    let node : Node :=
      { coord := a
        side := side
        next := if index + 1 = first + size then first else index + 1
        prev := if index = first then first + size - 1 else index - 1
        crossing := if changes then some (.ofEdge side index a b) else none }
    node :: nodesFrom first size (if changes then b.hemisphere else side) (index + 1) rest

/-- The nodes of a ring whose first vertex gets the index `first`. -/
def ringNodes (first : Nat) (ring : Ring) : List Node :=
  nodesFrom first ring.length (leadingSide ring) first ring.edges

/-- The nodes of several rings, the indices counted from `first`. -/
def layOut : (first : Nat) → List Ring → List Node
  | _, [] => []
  | first, ring :: rest => ringNodes first ring ++ layOut (first + ring.length) rest

/-- The vertices of the rings to be cut, in order. -/
abbrev Arena := List Node

/-- The arena of a list of rings. -/
def Arena.ofRings (rings : List Ring) : Arena := layOut 0 rings

/-- The crossings of an arena in the order of its vertices. -/
def Arena.crossings (arena : Arena) : List Crossing := arena.filterMap Node.crossing

end Antimeridian.Split
