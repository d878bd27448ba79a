import Antimeridian.Ewkb.Decode
import Antimeridian.Proofs.Ewkb.Layout

/-!
# Reading back what was written

Each reader takes exactly the bytes of its writer from the front and gives back what was written
there, whatever bytes come after.  Counts have to fit in 32 bits.  A ring comes back closed; all else
comes back as it was.
-/

namespace Antimeridian.Ewkb

/-- The reader takes `bytes` from the front of any longer sequence and finds `a` there. -/
def Reads {α : Type} (read : Bytes → Option (α × Bytes)) (bytes : Bytes) (a : α) : Prop :=
  ∀ rest, read (bytes ++ rest) = some (a, rest)

/-! ## Numbers -/

/-- A number that fits into its bytes is read back. -/
theorem reads_littleEndian {count n : Nat} (fits : n < 256 ^ count) :
    Reads (readNat count) (littleEndian count n) n := by
  induction count generalizing n with
  | zero =>
    intro rest
    obtain rfl : n = 0 := by omega
    rfl
  | succ count ih =>
    intro rest
    have quotient : n / 256 < 256 ^ count := by
      rw [Nat.div_lt_iff_lt_mul (by decide), ← Nat.pow_succ]
      exact fits
    have byte : n.toUInt8.toNat = n % 256 := by simp
    rw [littleEndian, List.cons_append, readNat, ih quotient rest]
    simp only [Option.bind_eq_bind, Option.bind_some, byte, Nat.mod_add_div]
    rfl

theorem reads_ofCount {n : Nat} (fits : n < 2 ^ 32) : Reads (readNat 4) (ofCount n) n :=
  reads_littleEndian (by omega)

theorem reads_ofWord (n : UInt32) : Reads (readNat 4) (ofWord n) n.toNat :=
  reads_littleEndian n.toNat_lt

/-- Every double is read back, a NaN included. -/
theorem reads_ofDouble (x : Float) : Reads readDouble (ofDouble x) x := by
  intro rest
  have bits : Reads (readNat 8) (ofDouble x) x.toBits.toNat := reads_littleEndian x.toBits.toNat_lt
  rw [readDouble, bits rest]
  simp

theorem reads_point (c : Coord) : Reads readPoint (point c) c := by
  intro rest
  rw [readPoint, point, List.append_assoc, reads_ofDouble c.lng]
  simp only [Option.bind_eq_bind, Option.bind_some]
  rw [reads_ofDouble c.lat]
  rfl

/-! ## Sequences -/

section

variable {α β : Type} {read : Bytes → Option (β × Bytes)} {write : α → Bytes} {view : α → β}

theorem reads_many {l : List α} (each : ∀ a ∈ l, Reads read (write a) (view a)) :
    Reads (readMany read l.length) (l.flatMap write) (l.map view) := by
  induction l with
  | nil => exact fun rest => rfl
  | cons a l ih =>
    intro rest
    have first := each a List.mem_cons_self (l.flatMap write ++ rest)
    have others := ih (fun b member => each b (List.mem_cons_of_mem a member)) rest
    rw [List.flatMap_cons, List.append_assoc, List.length_cons, readMany, first]
    simp only [Option.bind_eq_bind, Option.bind_some]
    rw [others]
    rfl

/-- A count and as many things come back one by one. -/
theorem reads_counted {l : List α} (each : ∀ a ∈ l, Reads read (write a) (view a))
    (fits : l.length < 2 ^ 32) :
    Reads (readCounted read) (ofCount l.length ++ l.flatMap write) (l.map view) := by
  intro rest
  rw [readCounted, List.append_assoc, reads_ofCount fits]
  exact reads_many each rest

end

/-! ## Geometries -/

/-- A ring comes back closed. -/
theorem reads_ring {r : Ring} (fits : (closing r).length < 2 ^ 32) :
    Reads readRing (ring r) (closing r) := by
  have points := reads_counted (fun c _ => reads_point c) fits
  rw [List.map_id'] at points
  rwa [ring_eq]

theorem typeNumber_eq (type : GeometryType) :
    (type.code ||| referenceFlag).toNat = typeNumber type := by
  cases type <;> rfl

/-- The header of one type read as that of another. -/
theorem readHeader_header (expected type : GeometryType) (srid : UInt32) (rest : Bytes) :
    readHeader expected (header type srid ++ rest) =
      if type = expected then some (srid, rest) else none := by
  have mark : ByteOrder.littleEndian.code = 0x01 := rfl
  have number : typeNumber type = typeNumber expected ↔ type = expected := by
    cases type <;> cases expected <;> decide
  rw [header, List.cons_append, readHeader, if_pos mark, List.append_assoc, reads_ofWord]
  simp only [Option.bind_eq_bind, Option.bind_some]
  rw [reads_ofWord]
  simp only [Option.bind_some, typeNumber_eq, number, Nat.toUInt32_eq, UInt32.ofNat_toNat]
  rfl

/-- What is read of a polygon: its rings closed, the exterior first. -/
def PolygonRecord.ofPolygon (srid : UInt32) (p : Polygon) : PolygonRecord :=
  ⟨srid, closing p.exterior :: p.holes.map closing⟩

/-- What is read of a boundary: its ring closed, and no ring if it is empty. -/
def PolygonRecord.ofBoundary (srid : UInt32) (r : Ring) : PolygonRecord :=
  ⟨srid, if r = [] then [] else [closing r]⟩

/-- What is read of a region: a polygon without rings if it is empty, a polygon if it has only one,
and otherwise a multipolygon. -/
def Geometry.ofRegion (srid : UInt32) : Region → Geometry
  | [] => .polygon ⟨srid, []⟩
  | [p] => .polygon (.ofPolygon srid p)
  | ps => .multiPolygon srid (ps.map (.ofPolygon srid))

/-- The numbers of rings and of points fit in 32 bits. -/
structure Fits (p : Polygon) : Prop where
  rings : p.rings.length < 2 ^ 32
  points : ∀ r ∈ p.rings, (closing r).length < 2 ^ 32

instance (p : Polygon) : Decidable (Fits p) :=
  decidable_of_iff (p.rings.length < 2 ^ 32 ∧ ∀ r ∈ p.rings, (closing r).length < 2 ^ 32)
    ⟨fun h => ⟨h.1, h.2⟩, fun h => ⟨h.rings, h.points⟩⟩

section

variable {srid : UInt32}

theorem reads_rings {body : Bytes} {rings : List Ring}
    (counted : Reads (readCounted readRing) body rings) :
    Reads readPolygon (header .polygon srid ++ body) ⟨srid, rings⟩ := by
  intro rest
  rw [readPolygon, List.append_assoc, readHeader_header, if_pos rfl]
  simp only [Option.bind_eq_bind, Option.bind_some]
  rw [counted rest]
  rfl

/-- A polygon is read back, with its rings closed. -/
theorem reads_polygon {p : Polygon} (fits : Fits p) :
    Reads readPolygon (header .polygon srid ++ polygonBody p) (.ofPolygon srid p) :=
  reads_rings (reads_counted (fun r member => reads_ring (fits.points r member)) fits.rings)

theorem reads_no_rings : Reads (readCounted readRing) (ofCount 0) [] := by
  intro rest
  rw [readCounted, reads_ofCount (by decide)]
  rfl

theorem reads_boundary {r : Ring} (fits : (closing r).length < 2 ^ 32) :
    Reads readPolygon (boundary srid r) (.ofBoundary srid r) := by
  by_cases empty : r = []
  · subst empty
    exact reads_rings reads_no_rings
  · rw [boundary_eq srid empty, PolygonRecord.ofBoundary, if_neg empty]
    apply reads_polygon
    exact ⟨by simp [Polygon.rings], by simpa [Polygon.rings] using fits⟩

theorem decode_of_polygon {bytes : Bytes} {p : PolygonRecord} (polygon : Reads readPolygon bytes p) :
    decode bytes = some (.polygon p) := by
  have whole := polygon []
  rw [List.append_nil] at whole
  rw [decode, whole]

/-- Members under a common header come back as a multipolygon. -/
theorem decode_of_members {α : Type} {write : α → Bytes} {view : α → PolygonRecord} {l : List α}
    (each : ∀ a ∈ l, Reads readPolygon (write a) (view a)) (fits : l.length < 2 ^ 32) :
    decode (header .multiPolygon srid ++ ofCount l.length ++ l.flatMap write) =
      some (.multiPolygon srid (l.map view)) := by
  rw [List.append_assoc]
  have members := reads_counted each fits []
  rw [List.append_nil] at members
  -- the header tells a multipolygon from a polygon
  have other : readPolygon (header .multiPolygon srid ++ (ofCount l.length ++ l.flatMap write)) =
      none := by
    rw [readPolygon, readHeader_header]
    rfl
  have whole : readMultiPolygon (header .multiPolygon srid ++
      (ofCount l.length ++ l.flatMap write)) = some (.multiPolygon srid (l.map view), []) := by
    rw [readMultiPolygon, readHeader_header, if_pos rfl]
    simp only [Option.bind_eq_bind, Option.bind_some]
    rw [members]
    rfl
  rw [decode, other, whole]

/-- A region is decoded to its polygons, with their rings closed. -/
theorem decode_region {ps : Region} (fits : ps.length < 2 ^ 32) (each : ∀ p ∈ ps, Fits p) :
    decode (region srid ps) = some (.ofRegion srid ps) := by
  match ps with
  | [] => exact decode_of_polygon (reads_rings reads_no_rings)
  | [p] => exact decode_of_polygon (reads_polygon (each p List.mem_cons_self))
  | p :: q :: rest => exact decode_of_members (fun p member => reads_polygon (each p member)) fits

end

/-- A region and a list of boundaries are always encoded, and all of the bytes make up one geometry:
the polygons in order with their rings in order, each ring closed, under the given spatial reference
everywhere. -/
theorem decode_encode (srid : UInt32) :
    (∀ ps : Region, ps.length < 2 ^ 32 → (∀ p ∈ ps, Fits p) →
      ∃ bytes, (encodeRegion ps srid).result = .ok bytes ∧
        decode bytes = some (.ofRegion srid ps)) ∧
    (∀ rings : List Ring, rings.length < 2 ^ 32 → (∀ r ∈ rings, (closing r).length < 2 ^ 32) →
      ∃ bytes, (encodeBoundaries rings srid).result = .ok bytes ∧
        decode bytes = some (.multiPolygon srid (rings.map (.ofBoundary srid)))) := by
  constructor
  · intro ps fits each
    refine ⟨region srid ps, ?_, decode_region fits each⟩
    rw [encodeRegion_eq]
    rfl
  · intro rings fits each
    refine ⟨boundaries srid rings, ?_, ?_⟩
    · rw [encodeBoundaries_eq]
      rfl
    · exact decode_of_members (fun r member => reads_boundary (each r member)) fits

/-- A triangle with a hole that repeats its first vertex. -/
def pane : Polygon :=
  ⟨[⟨0, 0⟩, ⟨0, 1⟩, ⟨1, 0⟩], [[⟨0.25, 0.25⟩, ⟨0.25, 0.5⟩, ⟨0.5, 0.25⟩, ⟨0.25, 0.25⟩]]⟩

/-- A polygon with a hole and an empty one are decoded again. -/
theorem decode_encode_pane :
    (∃ bytes, (encodeRegion [pane, ⟨[], []⟩] 4326).result = .ok bytes ∧
      decode bytes = some (.multiPolygon 4326
        [⟨4326, (pane.exterior ++ [⟨0, 0⟩]) :: pane.holes⟩, ⟨4326, [[]]⟩])) ∧
    ∃ bytes, (encodeBoundaries [pane.exterior, []] 4326).result = .ok bytes ∧
      decode bytes = some (.multiPolygon 4326
        [⟨4326, [pane.exterior ++ [⟨0, 0⟩]]⟩, ⟨4326, []⟩]) := by
  have polygons : ∀ p ∈ [pane, ⟨[], []⟩], Fits p := by decide +kernel
  have points : ∀ r ∈ [pane.exterior, []], (closing r).length < 2 ^ 32 := by decide +kernel
  have region := (decode_encode 4326).1 [pane, ⟨[], []⟩] (by decide) polygons
  have boundaries := (decode_encode 4326).2 [pane.exterior, []] (by decide) points
  exact ⟨region, boundaries⟩

end Antimeridian.Ewkb
