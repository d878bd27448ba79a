import Antimeridian.Box
import Antimeridian.Cell
import Antimeridian.Settings.Text

/-!
# Geometry as JSON

How each kind of value is written as JSON and read back.  A record with doubles can be written only
if they are finite: null, which stands for any other double, is not read as one.
-/

namespace Antimeridian

open Json (Value DoubleFormat)

/-- A way to write values of a type as JSON and to read them. -/
structure Codec (α : Type) where
  write : α → Value
  read : Value → Option α

namespace Codec

variable {α : Type}

/-- The value that a text holds. -/
def parse (c : Codec α) (text : String) : Option α := (Json.parse text).bind c.read

/-- The text of a value, without blanks. -/
def text (c : Codec α) (a : α) : String := String.ofList (c.write a).compact

/-- A whole number below `2 ^ 64`. -/
def word : Codec UInt64 where
  write n := .ofNat n.toNat
  read v := (v.toNatBelow? UInt64.size).map Nat.toUInt64

/-- The number of a cell. -/
def cellIndex : Codec CellIndex := word

/-- A list, as an array. -/
def list (r : Codec α) : Codec (List α) where
  write as := .array (as.map r.write)
  read v := v.toList? r.read

variable [DoubleFormat]

/-- A coordinate. -/
def coord : Codec Coord where
  write c := .ofFields [("lat", .ofDouble c.lat), ("lng", .ofDouble c.lng)]
  read v :=
    match Json.allFields ["lat", "lng"] v with
    | some [lat, lng] => do return ⟨← lat.toDouble?, ← lng.toDouble?⟩
    | _ => none

/-- A vector in a plane. -/
def vec2 : Codec Vec2 where
  write v := .ofFields [("x", .ofDouble v.x), ("y", .ofDouble v.y)]
  read v :=
    match Json.allFields ["x", "y"] v with
    | some [x, y] => do return ⟨← x.toDouble?, ← y.toDouble?⟩
    | _ => none

/-- A vector in space. -/
def vec3 : Codec Vec3 where
  write v :=
    .ofFields [("x", .ofDouble v.x), ("y", .ofDouble v.y), ("z", .ofDouble v.z)]
  read v :=
    match Json.allFields ["x", "y", "z"] v with
    | some [x, y, z] => do return ⟨← x.toDouble?, ← y.toDouble?, ← z.toDouble?⟩
    | _ => none

/-- A box. -/
def box : Codec Box where
  write b :=
    .ofFields [("xmin", .ofDouble b.x.lo), ("xmax", .ofDouble b.x.hi),
      ("ymin", .ofDouble b.y.lo), ("ymax", .ofDouble b.y.hi),
      ("zmin", .ofDouble b.z.lo), ("zmax", .ofDouble b.z.hi)]
  read v :=
    match Json.allFields ["xmin", "xmax", "ymin", "ymax", "zmin", "zmax"] v with
    | some [xmin, xmax, ymin, ymax, zmin, zmax] => do
      return ⟨⟨← xmin.toDouble?, ← xmax.toDouble?⟩, ⟨← ymin.toDouble?, ← ymax.toDouble?⟩,
        ⟨← zmin.toDouble?, ← zmax.toDouble?⟩⟩
    | _ => none

/-- A cell boundary with all its slots. -/
def cellBoundary : Codec CellBoundary where
  write b :=
    .ofFields [("num_verts", word.write b.count),
      ("verts", coord.list.write b.slots.toList)]
  read v :=
    match Json.allFields ["num_verts", "verts"] v with
    | some [count, slots] => do
      let count ← word.read count
      let slots ← coord.list.read slots
      if h : slots.length = 10 then return ⟨count, ⟨slots.toArray, by simpa using h⟩⟩ else none
    | _ => none

/-- A ring. -/
def ring : Codec Ring where
  write r := .ofFields [("verts", coord.list.write r)]
  read v :=
    match Json.allFields ["verts"] v with
    | some [vertices] => coord.list.read vertices
    | _ => none

/-- A polygon. -/
def polygon : Codec Polygon where
  write p :=
    .ofFields [("geoloop", ring.write p.exterior), ("holes", ring.list.write p.holes)]
  read v :=
    match Json.allFields ["geoloop", "holes"] v with
    | some [exterior, holes] => do return ⟨← ring.read exterior, ← ring.list.read holes⟩
    | _ => none

/-- A region. -/
def region : Codec Region where
  write r := .ofFields [("polygons", polygon.list.write r)]
  read v :=
    match Json.allFields ["polygons"] v with
    | some [polygons] => polygon.list.read polygons
    | _ => none

/-- A byte order, by its mark. -/
def byteOrder : Codec Ewkb.ByteOrder where
  write o := .ofNat o.code.toNat
  read v :=
    match v.toNatBelow? UInt8.size with
    | some 0 => some .bigEndian
    | some 1 => some .littleEndian
    | _ => none

/-- A geometry type, by its number. -/
def geometryType : Codec Ewkb.GeometryType where
  write t := .ofNat t.code.toNat
  read v :=
    match v.toNatBelow? UInt32.size with
    | some 3 => some .polygon
    | some 6 => some .multiPolygon
    | _ => none

/-- Settings, valid or not. -/
def settings : Codec Settings where
  write := Settings.toValue
  read := Settings.ofValue?

end Codec

end Antimeridian
