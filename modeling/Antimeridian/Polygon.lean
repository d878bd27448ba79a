import Antimeridian.Crossing

/-!
# Polygons and regions

A polygon is an exterior ring with holes cut out of it, and a region is a list of polygons.
-/

namespace Antimeridian

/-- The sum of sizes. -/
def total (sizes : List Nat) : Nat := sizes.foldr (· + ·) 0

/-- An exterior ring and the rings of its holes. -/
structure Polygon where
  exterior : Ring
  holes : List Ring

namespace Polygon

/-- The rings in order, the exterior first. -/
def rings (p : Polygon) : List Ring := p.exterior :: p.holes

/-- The number of vertices over all rings. -/
def vertexCount (p : Polygon) : Nat := total (p.rings.map List.length)

/-- Whether the exterior crosses the antimeridian, so that the polygon has to be split. -/
def crosses (p : Polygon) : Bool := p.exterior.crosses

/-- The vertices of all rings in degrees. -/
def toDegrees (p : Polygon) : Polygon := ⟨p.exterior.toDegrees, p.holes.map Ring.toDegrees⟩

end Polygon

/-- The polygons that make up an area, in order. -/
abbrev Region := List Polygon

namespace Region

/-- Whether some polygon has to be split. -/
def crosses (region : Region) : Bool := region.any Polygon.crosses

/-- The vertices of all polygons in degrees. -/
def toDegrees (region : Region) : Region := region.map Polygon.toDegrees

end Region

end Antimeridian
