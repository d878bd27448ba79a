import Antimeridian.Decimal.Text

/-!
# Faults

What can go wrong, as causes.  The wording is in `Fault.message` alone.
-/

namespace Antimeridian

/-- The reason why a request has no result. -/
inductive Fault where
  /-- A ring to be cut has fewer than two vertices. -/
  | degenerateRing (vertices : Nat)
  /-- The crossings of the meridian circle do not pair up. -/
  | oddCrossings (count : Nat)
  /-- A walk along the rings left them. -/
  | vertexOutOfBounds (index count : Nat)
  /-- The hole with this ring number lies in no part. -/
  | unassignedHole (ring : Nat)
  /-- A boundary to be opened at a pole does not cross the antimeridian exactly once. -/
  | polarCrossings (count : Nat)
  /-- A cell boundary has no room for this many vertices. -/
  | boundaryTooLarge (vertices : Nat)
  /-- An encoding has another size than was computed for it. -/
  | sizeMismatch (expected written : Nat)
  /-- The latitude limit for polar cells is not a latitude above the equator. -/
  | polarLimit (degrees : Float)
  /-- The source of cell outlines refused. -/
  | source (reason : String)

namespace Fault

/-- The text of a fault. -/
def message : Fault → String
  | degenerateRing n => s!"polygon ring must have at least 2 vertices, got {n}"
  | oddCrossings n => s!"intersection number must be even, got {n}"
  | vertexOutOfBounds i n => s!"vertex index {i} out of bounds ({n} vertices)"
  | unassignedHole i => s!"hole {i} is not contained in any split polygon"
  | polarCrossings n => s!"polar cell boundary must cross the antimeridian once, got {n}"
  | boundaryTooLarge n => s!"cell boundary cannot hold {n} vertices"
  | sizeMismatch e w => s!"# of written bytes ({w}) must match allocation size ({e})"
  | polarLimit x =>
    "invalid configuration: polar latitude limit must be in (0, 90] degrees, got "
      ++ Decimal.plainText x
  | source reason => "grid source error: " ++ reason

end Fault

end Antimeridian
