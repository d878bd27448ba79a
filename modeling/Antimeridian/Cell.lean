import Antimeridian.Ewkb
import Antimeridian.PolarCap
import Antimeridian.Settings
import Antimeridian.Split

/-!
# Cells

The boundary of a cell of a grid, and its encoding.  A boundary that does not cross the antimeridian
is encoded as it is, one around a pole is opened there, and any other one is split.
-/

namespace Antimeridian

/-- The number of a cell. -/
abbrev CellIndex := UInt64

/-- The boundary of a cell: room for ten vertices, of which the first `count` are meant. -/
structure CellBoundary where
  count : UInt64
  slots : Vector Coord 10

namespace CellBoundary

/-- The boundary with the given vertices; slots that are not needed lie at the origin. -/
def ofRing (ring : Ring) : Except Fault CellBoundary :=
  if h : 10 < ring.length then .error (.boundaryTooLarge ring.length)
  else
    let slots := ring ++ List.replicate (10 - ring.length) .origin
    .ok ⟨ring.length.toUInt64, ⟨slots.toArray, by simp [slots]; omega⟩⟩

/-- The vertices that are meant; a count past the slots means all of them. -/
def vertices (b : CellBoundary) : Ring := b.slots.toList.take b.count.toNat

/-- Encodes the boundary of a cell in degrees. -/
def encode [Trig] (b : CellBoundary) (settings : Settings) : Traced Ewkb.Bytes := do
  .ofExcept settings.validate
  let ring := b.vertices
  match ring.crossings with
  | 0 => Ewkb.encodeBoundary ring.toDegrees settings.srid
  | 1 =>
    .note (.poleEnclosed ring.length)
    let opened ← ring.openAtPole settings.polarLimit
    Ewkb.encodeBoundary opened.toDegrees settings.srid
  | crossings =>
    .note (.antimeridianCrossed crossings)
    let parts ← Polygon.split ⟨ring, []⟩
    Ewkb.encodeBoundaries (parts.map fun p => p.exterior.toDegrees) settings.srid

/-- The boundary of a cell as a single ring in degrees. -/
def outline (b : CellBoundary) (settings : Settings) : Ring :=
  let ring := b.vertices
  (if settings.extendAntimeridian then ring.extend else ring).toDegrees

end CellBoundary

end Antimeridian
