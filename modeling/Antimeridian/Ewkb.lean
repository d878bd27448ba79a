import Antimeridian.Ewkb.Bytes
import Antimeridian.Polygon
import Antimeridian.Traced

/-!
# Extended well-known binary

A geometry begins with a byte-order mark, its type with the flag for a spatial reference, and the
number of that reference.  A point is its longitude and latitude.  A ring is written closed, whether
its vertices repeat the first one or not.

Beside every writer stands the size of what it writes, and an encoding is checked against its size.
-/

namespace Antimeridian.Ewkb

/-- The order of the bytes in a number. -/
inductive ByteOrder where
  | bigEndian
  | littleEndian
  deriving DecidableEq, Repr

/-- The mark of a byte order. -/
def ByteOrder.code : ByteOrder → UInt8
  | bigEndian => 0
  | littleEndian => 1

/-- The geometries that are written. -/
inductive GeometryType where
  | polygon
  | multiPolygon
  deriving DecidableEq, Repr

/-- The number of a geometry type. -/
def GeometryType.code : GeometryType → UInt32
  | polygon => 3
  | multiPolygon => 6

/-- Marks a type whose header gives a spatial reference. -/
def referenceFlag : UInt32 := 0x20000000

/-- The header of a geometry. -/
def header (type : GeometryType) (srid : UInt32) : Bytes :=
  ByteOrder.littleEndian.code :: (ofWord (type.code ||| referenceFlag) ++ ofWord srid)

/-- A point, the longitude first. -/
def point (c : Coord) : Bytes := ofDouble c.lng ++ ofDouble c.lat

/-- The vertices of a ring with the first one repeated at the end, unless it is there already. -/
def closedVertices (ring : Ring) : Ring := if ring.closed then ring else ring ++ ring.head?.toList

/-- The number of points written for a ring. -/
def pointCount (r : Ring) : Nat := if r.closed then r.length else r.length + 1

/-- A ring: the number of its points, and the points.  The number is computed on its own, and
`closing_length` says that it is the right one. -/
def ring (r : Ring) : Bytes := ofCount (pointCount r) ++ (closedVertices r).flatMap point

/-- A polygon after its header: the number of its rings, and the rings. -/
def polygonBody (p : Polygon) : Bytes := ofCount p.rings.length ++ p.rings.flatMap ring

/-- A polygon of one ring with its header; an empty ring gives a polygon without rings. -/
def boundary (srid : UInt32) (r : Ring) : Bytes :=
  header .polygon srid ++ if r.isEmpty then ofCount 0 else ofCount 1 ++ ring r

/-- A region: several polygons with a header each under a common one, a polygon for one alone, and a
polygon without rings for none. -/
def region (srid : UInt32) : Region → Bytes
  | [] => header .polygon srid ++ ofCount 0
  | [p] => header .polygon srid ++ polygonBody p
  | ps =>
    header .multiPolygon srid ++ ofCount ps.length ++
      ps.flatMap fun p => header .polygon srid ++ polygonBody p

/-- Several polygons of one ring each, under a common header. -/
def boundaries (srid : UInt32) (rings : List Ring) : Bytes :=
  header .multiPolygon srid ++ ofCount rings.length ++ rings.flatMap (boundary srid)

/-! ### Sizes -/

/-- The bytes of a header. -/
def headerSize : Nat := 9

/-- The bytes of a count. -/
def countSize : Nat := 4

/-- The bytes of a point. -/
def pointSize : Nat := 16

/-- The bytes of a ring. -/
def ringSize (r : Ring) : Nat := countSize + pointCount r * pointSize

/-- The bytes of a polygon after its header. -/
def polygonBodySize (p : Polygon) : Nat := countSize + total (p.rings.map ringSize)

/-- The bytes of a polygon of one ring. -/
def boundarySize (r : Ring) : Nat :=
  headerSize + countSize + if r.isEmpty then 0 else ringSize r

/-- The bytes of several polygons of one ring each. -/
def boundariesSize (rings : List Ring) : Nat :=
  headerSize + countSize + total (rings.map boundarySize)

/-- The bytes of a region. -/
def regionSize : Region → Nat
  | [] => headerSize + countSize
  | [p] => headerSize + polygonBodySize p
  | ps => headerSize + countSize + total (ps.map fun p => headerSize + polygonBodySize p)

/-! ### Checked encodings -/

/-- Accepts bytes that have the size computed for them. -/
def checked (expected : Nat) (bytes : Bytes) : Traced Bytes :=
  if bytes.length = expected then .ok bytes
  else
    let fault := Fault.sizeMismatch expected bytes.length
    .failWith fault (.encodingFailed fault)

/-- Encodes a single ring as a polygon. -/
def encodeBoundary (r : Ring) (srid : UInt32) : Traced Bytes :=
  checked (boundarySize r) (boundary srid r)

/-- Encodes rings as polygons of one ring each. -/
def encodeBoundaries (rings : List Ring) (srid : UInt32) : Traced Bytes :=
  checked (boundariesSize rings) (boundaries srid rings)

/-- Encodes a region. -/
def encodeRegion (ps : Region) (srid : UInt32) : Traced Bytes :=
  checked (regionSize ps) (region srid ps)

end Antimeridian.Ewkb
