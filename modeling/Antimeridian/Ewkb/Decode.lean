import Antimeridian.Ewkb

/-!
# Reading extended well-known binary

A reader for the geometries that are written: the byte order is the little-endian one, and every
header gives a spatial reference.  Each reader takes the bytes ahead and returns what it read with
the bytes after it.
-/

namespace Antimeridian.Ewkb

/-- A polygon that was read: its spatial reference and its rings as they stand. -/
structure PolygonRecord where
  srid : UInt32
  rings : List Ring

/-- A geometry that was read. -/
inductive Geometry where
  | polygon (p : PolygonRecord)
  | multiPolygon (srid : UInt32) (members : List PolygonRecord)

/-- A number in the given count of bytes, the least significant first. -/
def readNat : (count : Nat) → Bytes → Option (Nat × Bytes)
  | 0, bytes => some (0, bytes)
  | _ + 1, [] => none
  | count + 1, b :: bytes => do
    let (n, rest) ← readNat count bytes
    return (b.toNat + 256 * n, rest)

/-- A double. -/
def readDouble (bytes : Bytes) : Option (Float × Bytes) := do
  let (n, rest) ← readNat 8 bytes
  return (Float.ofBits n.toUInt64, rest)

/-- A point, the longitude first. -/
def readPoint (bytes : Bytes) : Option (Coord × Bytes) := do
  let (lng, rest) ← readDouble bytes
  let (lat, rest) ← readDouble rest
  return (⟨lat, lng⟩, rest)

/-- A number of things of one kind. -/
def readMany {α : Type} (read : Bytes → Option (α × Bytes)) :
    (count : Nat) → Bytes → Option (List α × Bytes)
  | 0, bytes => some ([], bytes)
  | count + 1, bytes => do
    let (a, rest) ← read bytes
    let (as, rest) ← readMany read count rest
    return (a :: as, rest)

/-- A count and as many things of one kind. -/
def readCounted {α : Type} (read : Bytes → Option (α × Bytes)) (bytes : Bytes) :
    Option (List α × Bytes) := do
  let (count, rest) ← readNat 4 bytes
  readMany read count rest

/-- A ring. -/
def readRing (bytes : Bytes) : Option (Ring × Bytes) := readCounted readPoint bytes

/-- The number that stands for a geometry type in a header with a spatial reference. -/
def typeNumber : GeometryType → Nat
  | .polygon => 0x20000003
  | .multiPolygon => 0x20000006

/-- The header of a geometry of the given type, from which the spatial reference is taken.  The mark
`01` announces little-endian numbers. -/
def readHeader (type : GeometryType) : Bytes → Option (UInt32 × Bytes)
  | [] => none
  | mark :: bytes =>
    if mark = 0x01 then do
      let (number, rest) ← readNat 4 bytes
      let (srid, rest) ← readNat 4 rest
      if number = typeNumber type then return (srid.toUInt32, rest) else none
    else none

/-- A polygon with its header. -/
def readPolygon (bytes : Bytes) : Option (PolygonRecord × Bytes) := do
  let (srid, rest) ← readHeader .polygon bytes
  let (rings, rest) ← readCounted readRing rest
  return (⟨srid, rings⟩, rest)

/-- A multipolygon with its header. -/
def readMultiPolygon (bytes : Bytes) : Option (Geometry × Bytes) := do
  let (srid, rest) ← readHeader .multiPolygon bytes
  let (members, rest) ← readCounted readPolygon rest
  return (.multiPolygon srid members, rest)

/-- The geometry that all of the bytes make up. -/
def decode (bytes : Bytes) : Option Geometry :=
  match readPolygon bytes with
  | some (p, []) => some (.polygon p)
  | some _ => none
  | none =>
    match readMultiPolygon bytes with
    | some (g, []) => some g
    | _ => none

end Antimeridian.Ewkb
