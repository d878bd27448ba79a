import Antimeridian.Coord

/-!
# Rings

A ring is the list of its vertices in order, and its last vertex is joined to its first.  Whether
the list repeats the first vertex at its end is left open: `Ring.closed` tells.
-/

namespace Antimeridian

/-- Each element of a list with its successor, the last one with the first. -/
def cyclicPairs {α : Type} : List α → List (α × α)
  | [] => []
  | a :: rest => (a :: rest).zip (rest ++ [a])

/-- The vertices of a closed curve in order. -/
abbrev Ring := List Coord

namespace Ring

/-- The edges of a ring in order, the one from the last vertex back to the first included. -/
def edges (ring : Ring) : List (Coord × Coord) := cyclicPairs ring

/-- Whether the first vertex is repeated at the end; a ring of at most one vertex is closed, unless
that vertex holds a NaN. -/
def closed (ring : Ring) : Bool :=
  match ring.head?, ring.getLast? with
  | some first, some last => first.same last
  | _, _ => true

/-- The vertices in degrees. -/
def toDegrees (ring : Ring) : Ring := ring.map Coord.toDegrees

/-- Moves every vertex more than half a turn from the first one by a whole turn, outward on the side
of the first, so that a small ring over the antimeridian becomes one piece past it. -/
def extend : Ring → Ring
  | [] => []
  | first :: rest =>
    let shift := if first.lng < 0 then -Angle.turn else Angle.turn
    (first :: rest).map fun c =>
      if Angle.pi < (c.lng - first.lng).abs then ⟨c.lat, c.lng + shift⟩ else c

end Ring

end Antimeridian
