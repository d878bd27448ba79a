import Antimeridian.Cell

/-!
# Regions and grids

The encoding of a region, and of cells whose geometry is looked up in a grid.
-/

namespace Antimeridian

/-- Encodes a region in degrees, with the polygons that cross the antimeridian split. -/
def Region.encode [Trig] (region : Region) (settings : Settings) : Traced Ewkb.Bytes := do
  .ofExcept settings.validate
  if region.crosses then
    let parts ← region.split
    .note (.regionSplit region.length parts.length)
    Ewkb.encodeRegion parts.toDegrees settings.srid
  else
    Ewkb.encodeRegion region.toDegrees settings.srid

/-- Where the geometry of cells comes from. -/
structure Grid where
  /-- The boundary of a cell. -/
  boundary : CellIndex → Except Fault CellBoundary
  /-- The outline of a list of cells. -/
  region : List CellIndex → Except Fault Region

namespace Grid

/-- Encodes the boundary of a cell. -/
def encodeCell [Trig] (grid : Grid) (cell : CellIndex) (settings : Settings) : Traced Ewkb.Bytes := do
  (← .ofExcept (grid.boundary cell)).encode settings

/-- Encodes the outline of a list of cells. -/
def encodeRegion [Trig] (grid : Grid) (cells : List CellIndex) (settings : Settings) :
    Traced Ewkb.Bytes := do
  Region.encode (← .ofExcept (grid.region cells)) settings

end Grid

/-- Cell boundaries by cell, the latest first. -/
abbrev CellTable := List (CellIndex × CellBoundary)

namespace CellTable

/-- The boundary that a cell was given last. -/
def find? (table : CellTable) (cell : CellIndex) : Option CellBoundary := table.lookup cell

/-- Gives a cell a boundary in place of any earlier one. -/
def insert (table : CellTable) (cell : CellIndex) (b : CellBoundary) : CellTable :=
  (cell, b) :: table.filter fun entry => entry.1 ≠ cell

/-- Takes a cell out of the table. -/
def erase (table : CellTable) (cell : CellIndex) : CellTable :=
  table.filter fun entry => entry.1 ≠ cell

/-- The boundary of a cell, which has to be in the table. -/
def boundary (table : CellTable) (cell : CellIndex) : Except Fault CellBoundary :=
  match table.find? cell with
  | some b => .ok b
  | none => .error (.source ("unknown cell " ++ String.ofList (Nat.toDigits 16 cell.toNat)))

/-- The grid of the cells in a table.  The outline of several cells has a polygon for each one. -/
def grid (table : CellTable) : Grid where
  boundary := table.boundary
  region cells := cells.mapM fun cell => return ⟨(← table.boundary cell).vertices, []⟩

end CellTable

end Antimeridian
