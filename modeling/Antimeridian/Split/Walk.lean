import Antimeridian.Split.Meridian
import Antimeridian.Fault

/-!
# Walking along the parts

The exterior of a part is found by walking along the rings.  Where the edge ahead leaves the
hemisphere, the walk follows the seam to the partner crossing and goes on from there into its own
hemisphere again, which may be against the order of the ring.  It ends at a vertex that was passed
before.
-/

namespace Antimeridian.Split

/-- A place in the arena and the direction in which the walk goes on from it. -/
structure Heading where
  index : Nat
  forward : Bool
  deriving DecidableEq, Repr

/-- The vertices passed in one step of a walk and where it leads. -/
structure Step where
  passed : List Coord
  target : Heading

/-- The node with an index. -/
def Arena.node (arena : Arena) (index : Nat) : Except Fault Node :=
  match arena[index]? with
  | some node => .ok node
  | none => .error (.vertexOutOfBounds index arena.length)

/-- The partner of a crossing. -/
def Meridian.partner (meridian : Meridian) (c : Crossing) : Except Fault Crossing :=
  match meridian.partner? c with
  | some d => .ok d
  | none => .error (.oddCrossings meridian.length)

/-- Goes on into the hemisphere `side` from the edge of a crossing: along the edge if it enters that
hemisphere, and otherwise back to the vertex that the edge leaves. -/
def resume (arena : Arena) (side : Int) (c : Crossing) : Except Fault Heading := do
  let forward := decide (0 < side) == c.eastward
  if forward then return ⟨(← arena.node c.vertex).next, true⟩
  else return ⟨c.vertex, false⟩

/-- One step of a walk in the hemisphere `side`: along the next edge, or along the seam if that edge
leaves the hemisphere. -/
def step (arena : Arena) (meridian : Meridian) (side : Int) (h : Heading) : Except Fault Step := do
  let node ← arena.node h.index
  let next := if h.forward then node.next else node.prev
  -- an edge belongs to the vertex it leaves in the order of the ring
  let owner ← arena.node (if h.forward then h.index else next)
  match owner.crossing with
  | none => return ⟨[node.coord], next, h.forward⟩
  | some c =>
    let d ← meridian.partner c
    return ⟨[node.coord, c.point side, d.point side], ← resume arena side d⟩

/-- A walk from its start to its end. -/
structure Walk where
  /-- The indices of the vertices it stood on, in order. -/
  visited : List Nat
  /-- All vertices it passed, those on seams included. -/
  passed : List Coord
  /-- The indices that it leaves unused. -/
  left : List Nat
  /-- Where it stopped. -/
  stop : Heading

/-- The walk that is at its end, if its heading is at a vertex at all. -/
def ended (arena : Arena) (left : List Nat) (h : Heading) : Except Fault Walk := do
  let _ ← arena.node h.index
  return ⟨[], [], left, h⟩

/-- Walks on, for a number of steps at most, until a vertex whose index is not `left` any more. -/
def walkFor (arena : Arena) (meridian : Meridian) (side : Int) :
    (steps : Nat) → (left : List Nat) → (h : Heading) → Except Fault Walk
  | 0, left, h => ended arena left h
  | steps + 1, left, h =>
    if h.index ∈ left then do
      let s ← step arena meridian side h
      let rest ← walkFor arena meridian side steps (left.erase h.index) s.target
      return { rest with visited := h.index :: rest.visited, passed := s.passed ++ rest.passed }
    else ended arena left h

/-- Walks until a vertex whose index is not `left` any more.  Every step uses up one index. -/
def walk (arena : Arena) (meridian : Meridian) (side : Int) (left : List Nat) (h : Heading) :
    Except Fault Walk :=
  walkFor arena meridian side left.length left h

/-- Removes each vertex that repeats the one kept before it, after `last` was kept. -/
def withoutRepeatsAfter (last : Coord) : Ring → Ring
  | [] => []
  | a :: rest =>
    if last.same a then withoutRepeatsAfter last rest else a :: withoutRepeatsAfter a rest

/-- Removes each vertex that repeats the one kept before it. -/
def withoutRepeats : Ring → Ring
  | [] => []
  | a :: rest => a :: withoutRepeatsAfter a rest

/-- One connected piece of the cut rings in one hemisphere. -/
structure Part where
  side : Int
  exterior : Ring

/-- A walk with the vertex it begins at and the hemisphere it keeps to. -/
structure Tour where
  start : Nat
  side : Int
  walk : Walk

/-- The part that a tour goes around. -/
def Tour.part (t : Tour) : Part := ⟨t.side, withoutRepeats t.walk.passed⟩

/-- The tour that begins at a vertex, in the order of its ring. -/
def tourAt (arena : Arena) (meridian : Meridian) (left : List Nat) (start : Nat) :
    Except Fault Tour := do
  let node ← arena.node start
  return ⟨start, node.side, ← walk arena meridian node.side left ⟨start, true⟩⟩

end Antimeridian.Split
