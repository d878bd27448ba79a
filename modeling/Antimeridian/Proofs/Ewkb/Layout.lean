import Antimeridian.Ewkb
import Mathlib

/-!
# What is written

Every writer writes as many bytes as are computed for it, so no encoding is refused.  A ring that
is not empty has one written form, whether it is encoded as a boundary or as a polygon without holes,
and so have two or more such rings.
-/

namespace Antimeridian

theorem total_eq_sum (sizes : List Nat) : total sizes = sizes.sum := rfl

namespace Ewkb

/-! ## Sizes -/

@[simp] theorem littleEndian_length (count n : Nat) : (littleEndian count n).length = count := by
  induction count generalizing n with
  | zero => rfl
  | succ count ih => rw [littleEndian, List.length_cons, ih]

@[simp] theorem ofCount_length (n : Nat) : (ofCount n).length = countSize :=
  littleEndian_length 4 n

@[simp] theorem header_length (type : GeometryType) (srid : UInt32) :
    (header type srid).length = headerSize := by
  simp [header, ofWord, headerSize]

@[simp] theorem point_length (c : Coord) : (point c).length = pointSize := by
  simp [point, ofDouble, pointSize]

/-- Things written one after the other take up the sum of their sizes. -/
theorem flatMap_length {α : Type} {write : α → Bytes} {size : α → Nat} (l : List α)
    (sized : ∀ a, (write a).length = size a) : (l.flatMap write).length = total (l.map size) := by
  rw [List.length_flatMap, total_eq_sum, funext sized]

/-- A ring with a copy of its first vertex at the end, unless its last vertex is numerically equal to
the first. -/
def closing : Ring → Ring
  | [] => []
  | first :: rest =>
    if first.same (rest.getLastD first) then first :: rest else first :: rest ++ [first]

theorem closed_cons (first : Coord) (rest : Ring) :
    Ring.closed (first :: rest) = first.same (rest.getLastD first) := by
  simp [Ring.closed, List.getLast?_cons, List.getLastD_eq_getLast?]

/-- The vertices of a ring are written as they stand in its closing. -/
theorem closedVertices_eq (r : Ring) : closedVertices r = closing r := by
  cases r with
  | nil => rfl
  | cons first rest => rw [closedVertices, closed_cons, closing]; rfl

/-- The count that is computed for a ring is the number of points that are written. -/
theorem closing_length (r : Ring) : (closing r).length = pointCount r := by
  cases r with
  | nil => rfl
  | cons first rest =>
    rw [closing, pointCount, closed_cons]
    split <;> simp

/-- What is written for a ring depends on its closing alone. -/
theorem ring_eq (r : Ring) : ring r = ofCount (closing r).length ++ (closing r).flatMap point := by
  rw [ring, closedVertices_eq, closing_length]

/-- A ring that is not closed has a first vertex, and is written with a copy of it. -/
theorem closed_or_exists_first (r : Ring) :
    r.closed = true ∨ ∃ first rest, r = first :: rest ∧ closedVertices r = r ++ [first] := by
  cases r with
  | nil => exact Or.inl rfl
  | cons first rest =>
    by_cases closed : Ring.closed (first :: rest) = true
    · exact Or.inl closed
    · exact Or.inr ⟨first, rest, rfl, if_neg closed⟩

/-- The bytes of a ring are as many as announced. -/
theorem ring_length (r : Ring) : (ring r).length = ringSize r := by
  have points : ((closing r).flatMap point).length = pointCount r * pointSize := by
    rw [List.length_flatMap, funext point_length, List.map_const', List.sum_replicate,
      closing_length, smul_eq_mul]
  rw [ring, closedVertices_eq, List.length_append, ofCount_length, points, ringSize]

theorem polygonBody_length (p : Polygon) : (polygonBody p).length = polygonBodySize p := by
  rw [polygonBody, List.length_append, ofCount_length, flatMap_length _ ring_length,
    polygonBodySize]

theorem boundary_length (srid : UInt32) (r : Ring) :
    (boundary srid r).length = boundarySize r := by
  rw [boundary, boundarySize, List.length_append, header_length]
  split
  · simp
  · rw [List.length_append, ofCount_length, ring_length, Nat.add_assoc]

theorem boundaries_length (srid : UInt32) (rings : List Ring) :
    (boundaries srid rings).length = boundariesSize rings := by
  rw [boundaries, List.length_append, List.length_append, header_length, ofCount_length,
    flatMap_length _ (boundary_length srid), boundariesSize]

/-- The bytes of a region are as many as announced. -/
theorem region_length (srid : UInt32) (ps : Region) : (region srid ps).length = regionSize ps := by
  have polygon : ∀ p, (header .polygon srid ++ polygonBody p).length =
      headerSize + polygonBodySize p := by
    intro p
    rw [List.length_append, header_length, polygonBody_length]
  match ps with
  | [] => simp [region, regionSize]
  | [p] => rw [region, regionSize, polygon]
  | p :: q :: rest =>
    simp only [region, regionSize]
    rw [List.length_append, List.length_append, header_length, ofCount_length,
      flatMap_length _ polygon]

theorem checked_eq {expected : Nat} {bytes : Bytes} (size : bytes.length = expected) :
    checked expected bytes = .ok bytes := if_pos size

theorem encodeBoundary_eq (r : Ring) (srid : UInt32) :
    encodeBoundary r srid = .ok (boundary srid r) := checked_eq (boundary_length srid r)

theorem encodeBoundaries_eq (rings : List Ring) (srid : UInt32) :
    encodeBoundaries rings srid = .ok (boundaries srid rings) :=
  checked_eq (boundaries_length srid rings)

theorem encodeRegion_eq (ps : Region) (srid : UInt32) :
    encodeRegion ps srid = .ok (region srid ps) := checked_eq (region_length srid ps)

/-- A boundary, a list of boundaries and a region have exactly the size that is computed beforehand,
so they are always encoded and nothing is reported.  No ring is without a vertex to close it with. -/
theorem encode_sized (srid : UInt32) :
    (∀ r : Ring, (boundary srid r).length = boundarySize r ∧
      encodeBoundary r srid = .ok (boundary srid r)) ∧
    (∀ rings : List Ring, (boundaries srid rings).length = boundariesSize rings ∧
      encodeBoundaries rings srid = .ok (boundaries srid rings)) ∧
    (∀ ps : Region, (region srid ps).length = regionSize ps ∧
      encodeRegion ps srid = .ok (region srid ps)) ∧
    ∀ r : Ring, r.closed = true ∨
      ∃ first rest, r = first :: rest ∧ closedVertices r = r ++ [first] := by
  refine ⟨fun r => ?_, fun rings => ?_, fun ps => ?_, closed_or_exists_first⟩
  · exact ⟨boundary_length srid r, encodeBoundary_eq r srid⟩
  · exact ⟨boundaries_length srid rings, encodeBoundaries_eq rings srid⟩
  · exact ⟨region_length srid ps, encodeRegion_eq ps srid⟩

/-- A vertex that is not a number differs from itself, and is written twice. -/
example : (closedVertices [⟨0, 0 / 0⟩]).length = 2 ∧ boundarySize [⟨0, 0 / 0⟩] = 49 := by
  decide +kernel

/-! ## Boundaries as regions -/

/-- A polygon of one ring. -/
theorem polygonBody_of_ring (r : Ring) : polygonBody ⟨r, []⟩ = ofCount 1 ++ ring r := by
  simp [polygonBody, Polygon.rings]

theorem boundary_eq (srid : UInt32) {r : Ring} (nonempty : r ≠ []) :
    boundary srid r = header .polygon srid ++ polygonBody ⟨r, []⟩ := by
  rw [boundary, polygonBody_of_ring, if_neg (by simpa using nonempty)]

/-- A boundary that is not empty is written as a region of one polygon. -/
theorem boundary_eq_region (srid : UInt32) {r : Ring} (nonempty : r ≠ []) :
    boundary srid r = region srid [⟨r, []⟩] := boundary_eq srid nonempty

/-- Two or more polygons stand under a common header. -/
theorem region_of_several (srid : UInt32) {ps : Region} (several : 2 ≤ ps.length) :
    region srid ps = header .multiPolygon srid ++ ofCount ps.length ++
      ps.flatMap fun p => header .polygon srid ++ polygonBody p := by
  match ps, several with
  | _ :: _ :: _, _ => rfl

/-- Two or more boundaries that are not empty are written as a region. -/
theorem boundaries_eq_region (srid : UInt32) {rings : List Ring} (several : 2 ≤ rings.length)
    (nonempty : ∀ r ∈ rings, r ≠ []) :
    boundaries srid rings = region srid (rings.map fun r => ⟨r, []⟩) := by
  have members : rings.flatMap (boundary srid) =
      (rings.map fun r => (⟨r, []⟩ : Polygon)).flatMap fun p =>
        header .polygon srid ++ polygonBody p := by
    rw [List.flatMap_map]
    apply List.flatMap_congr
    intro r member
    exact boundary_eq srid (nonempty r member)
  rw [region_of_several srid (by simpa using several), boundaries, members, List.length_map]

/-- An empty ring is left out of a boundary, and is a ring without points in a polygon. -/
theorem polygonSize_of_ring (r : Ring) : headerSize + polygonBodySize ⟨r, []⟩ =
    boundarySize r + if r.isEmpty then countSize else 0 := by
  cases r with
  | nil => rfl
  | cons first rest =>
    simp only [polygonBodySize, boundarySize, Polygon.rings, List.map_cons, List.map_nil, total,
      List.foldr_cons, List.foldr_nil, List.isEmpty_cons, Bool.false_eq_true, if_false]
    omega

theorem total_polygonSize (rings : List Ring) :
    total (rings.map fun r => headerSize + polygonBodySize ⟨r, []⟩) =
      total (rings.map boundarySize) + rings.countP List.isEmpty * countSize := by
  induction rings with
  | nil => rfl
  | cons r rest ih =>
    rw [total_eq_sum, total_eq_sum] at ih ⊢
    rw [List.map_cons, List.map_cons, List.sum_cons, List.sum_cons, ih, polygonSize_of_ring,
      List.countP_cons, Nat.add_mul, ite_mul, Nat.one_mul, Nat.zero_mul]
    omega

/-- Written as a region, rings take up one more count for every empty ring among them. -/
theorem regionSize_of_rings {rings : List Ring} (several : 2 ≤ rings.length) :
    regionSize (rings.map fun r => ⟨r, []⟩) =
      boundariesSize rings + rings.countP List.isEmpty * countSize := by
  have members := total_polygonSize rings
  match rings, several with
  | r :: s :: rest, _ =>
    simp only [List.map_cons, regionSize, boundariesSize, List.map_map, Function.comp_def]
      at members ⊢
    omega

/-- The second byte of a header is that of the type, so it tells the types apart. -/
theorem header_append_inj {type type' : GeometryType} {srid srid' : UInt32} {rest rest' : Bytes}
    (equal : header type srid ++ rest = header type' srid' ++ rest') : type = type' := by
  have second : ∀ (t : GeometryType) (n : UInt32) (bytes : Bytes),
      (header t n ++ bytes)[1]? = some t.code.toUInt8 := by
    intro t n bytes
    cases t <;> rfl
  have codes : some type.code.toUInt8 = some type'.code.toUInt8 := by
    rw [← second type srid rest, equal, second]
  revert codes
  cases type <;> cases type' <;> decide

/-- A boundary is written like a region of one polygon, unless it is empty. -/
theorem boundary_eq_region_iff (srid : UInt32) (r : Ring) :
    boundary srid r = region srid [⟨r, []⟩] ↔ r ≠ [] := by
  constructor
  · rintro equal rfl
    have sizes := congrArg List.length equal
    rw [boundary_length, region_length] at sizes
    cases sizes
  · exact boundary_eq_region srid

/-- Boundaries are written like a region, unless there are fewer than two or one is empty. -/
theorem boundaries_eq_region_iff (srid : UInt32) (rings : List Ring) :
    boundaries srid rings = region srid (rings.map fun r => ⟨r, []⟩) ↔
      2 ≤ rings.length ∧ ∀ r ∈ rings, r ≠ [] := by
  constructor
  · intro equal
    have several : 2 ≤ rings.length := by
      -- a region of at most one polygon has the header of a polygon
      have bytes := equal
      rw [boundaries, List.append_assoc] at bytes
      match rings with
      | [] => cases header_append_inj bytes
      | [r] => cases header_append_inj bytes
      | _ :: _ :: _ => simp
    refine ⟨several, ?_⟩
    have sizes := congrArg List.length equal
    rw [boundaries_length, region_length, regionSize_of_rings several] at sizes
    have none : rings.countP List.isEmpty = 0 := by
      unfold countSize at sizes
      omega
    intro r member empty
    exact List.countP_eq_zero.1 none r member (by simp [empty])
  · rintro ⟨several, nonempty⟩
    exact boundaries_eq_region srid several nonempty

/-- A list of rings is encoded as boundaries just as it is as a region of polygons without holes
exactly if there are two or more and none is empty, and a single ring exactly if it is not empty. -/
theorem encode_eq_encodeRegion_iff (srid : UInt32) :
    (∀ rings : List Ring, (encodeBoundaries rings srid).result =
        (encodeRegion (rings.map fun r => ⟨r, []⟩) srid).result ↔
      2 ≤ rings.length ∧ ∀ r ∈ rings, r ≠ []) ∧
    ∀ r : Ring, (encodeBoundary r srid).result = (encodeRegion [⟨r, []⟩] srid).result ↔ r ≠ [] := by
  constructor
  · intro rings
    rw [encodeBoundaries_eq, encodeRegion_eq, ← boundaries_eq_region_iff srid rings]
    exact Iff.of_eq (Except.ok.injEq _ _)
  · intro r
    rw [encodeBoundary_eq, encodeRegion_eq, ← boundary_eq_region_iff srid r]
    exact Iff.of_eq (Except.ok.injEq _ _)

end Ewkb

end Antimeridian
