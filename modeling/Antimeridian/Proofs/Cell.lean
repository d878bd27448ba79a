import Antimeridian.Grid
import Antimeridian.Proofs.Ewkb.Layout
import Antimeridian.Proofs.Region

/-!
# Cells as regions

The boundary of a cell is encoded by a way of its own: it is split only if it crosses the
antimeridian more than once, and its parts are written as boundaries.  A region is split if anything
in it crosses, and its polygons are written with their holes.  Unless the cell lies around a pole,
both ways lead to the same bytes or the same fault.
-/

namespace Antimeridian
open Split

/-- The encoding of a region is that of its split, whether or not anything in it crosses. -/
theorem Region.encode_result [Trig] (region : Region) (settings : Settings) :
    (region.encode settings).result = settings.validate >>= fun _ =>
      region.split.result >>= fun parts => .ok (Ewkb.region settings.srid parts.toDegrees) := by
  rw [Region.encode, Traced.result_bind]
  refine bind_congr fun _ => ?_
  by_cases across : region.crosses = true
  · rw [if_pos across, Traced.result_bind]
    refine bind_congr fun parts => ?_
    rw [Traced.result_bind, Ewkb.encodeRegion_eq]
    rfl
  · rw [if_neg across, Ewkb.encodeRegion_eq, Region.split_of_not_crosses (by simpa using across)]
    rfl

namespace CellBoundary

variable {b : CellBoundary}

/-- A boundary that does not lie around a pole crosses the antimeridian several times or not at
all. -/
theorem crossings_cases (regular : b.vertices.crossings ≠ 1) :
    (b.vertices.crosses = false ∧ b.vertices.crossings = 0) ∨
      (b.vertices.crosses = true ∧ ∃ n, b.vertices.crossings = n + 2) := by
  by_cases across : b.vertices.crosses = true
  · have positive := Ring.crosses_iff.1 across
    exact Or.inr ⟨across, b.vertices.crossings - 2, by omega⟩
  · have none := mt Ring.crosses_iff.2 across
    exact Or.inl ⟨by simpa using across, by omega⟩

/-- The encoding of a boundary that does not lie around a pole. -/
theorem encode_result [Trig] (settings : Settings) (regular : b.vertices.crossings ≠ 1) :
    (b.encode settings).result = settings.validate >>= fun _ =>
      if b.vertices.crosses then
        (Polygon.split ⟨b.vertices, []⟩).result >>= fun parts =>
          .ok (Ewkb.boundaries settings.srid (parts.map fun p => p.exterior.toDegrees))
      else .ok (Ewkb.boundary settings.srid b.vertices.toDegrees) := by
  rw [encode, Traced.result_bind]
  refine bind_congr fun _ => ?_
  rcases crossings_cases regular with ⟨clear, none⟩ | ⟨across, n, several⟩
  · simp only [none, clear]
    rw [Ewkb.encodeBoundary_eq]
    rfl
  · simp only [several, across]
    rw [Traced.result_bind]
    change (Polygon.split ⟨b.vertices, []⟩ >>= _).result = _
    rw [Traced.result_bind]
    refine bind_congr fun parts => ?_
    rw [Ewkb.encodeBoundaries_eq]
    rfl

/-- Parts without holes that are not empty are written the same as boundaries and as a region. -/
theorem boundaries_of_parts {srid : UInt32} {parts : List Polygon} (several : 2 ≤ parts.length)
    (simple : ∀ q ∈ parts, q.holes = []) (nonempty : ∀ q ∈ parts, q.exterior ≠ []) :
    Ewkb.boundaries srid (parts.map fun p => p.exterior.toDegrees) =
      Ewkb.region srid (Region.toDegrees parts) := by
  have polygons : (parts.map fun p => p.exterior.toDegrees).map (fun r => (⟨r, []⟩ : Polygon)) =
      Region.toDegrees parts := by
    rw [List.map_map, Region.toDegrees]
    refine List.map_congr_left fun q member => ?_
    simp [Polygon.toDegrees, simple q member]
  rw [← polygons]
  apply Ewkb.boundaries_eq_region
  · simpa using several
  · intro r member
    obtain ⟨q, inParts, rfl⟩ := List.mem_map.1 member
    simpa [Ring.toDegrees] using nonempty q inParts

/-- The boundary of a cell that has a vertex and does not lie around a pole is encoded like the
region of the one polygon without holes that it goes around. -/
theorem encode_eq_region_encode (settings : Settings) (nonempty : b.vertices ≠ [])
    (onMap : ∀ c ∈ b.vertices, c.OnMap) (regular : b.vertices.crossings ≠ 1) :
    (b.encode settings).result = (Region.encode [⟨b.vertices, []⟩] settings).result := by
  rw [encode_result settings regular, Region.encode_result, Region.split_cons]
  refine bind_congr fun _ => ?_
  cases across : b.vertices.crosses with
  | false =>
    have whole : (Polygon.mk b.vertices []).pieces = .ok [⟨b.vertices, []⟩] := by
      rw [Polygon.pieces, Polygon.crosses, across]
      rfl
    rw [whole, Ewkb.boundary_eq_region settings.srid (by simpa [Ring.toDegrees] using nonempty)]
    rfl
  | true =>
    have pieces : (Polygon.mk b.vertices []).pieces = (Polygon.split ⟨b.vertices, []⟩).result := by
      rw [Polygon.pieces, Polygon.crosses, across]
      rfl
    rw [pieces]
    cases ok : (Polygon.split ⟨b.vertices, []⟩).result with
    | error fault => rfl
    | ok parts =>
      have balanced := balanced_of_split rfl ok
      have bytes : Ewkb.boundaries settings.srid (parts.map fun p => p.exterior.toDegrees) =
          Ewkb.region settings.srid (Region.toDegrees (parts ++ [])) := by
        rw [List.append_nil]
        exact boundaries_of_parts (two_le_parts onMap balanced across ok)
          (holes_eq_nil_of_split rfl ok) (exterior_ne_nil_of_split ok)
      exact congrArg Except.ok bytes

/-- A cell across the antimeridian. -/
def patch : CellBoundary :=
  ⟨4, #v[⟨-0.2, 3⟩, ⟨-0.2, -3⟩, ⟨0.2, -3⟩, ⟨0.2, 3⟩, .origin, .origin, .origin, .origin, .origin,
    .origin]⟩

/-- A cell that crosses twice is encoded as the region of its boundary. -/
theorem encode_eq_region_encode_patch : 2 ≤ patch.vertices.crossings ∧
    (patch.encode .default).result =
      (Region.encode [⟨patch.vertices, []⟩] .default).result ∧
    (patch.encode .default).result.isOk = true := by
  have several : 2 ≤ patch.vertices.crossings := by decide +kernel
  have nonempty : patch.vertices ≠ [] := by decide +kernel
  have onMap : ∀ c ∈ patch.vertices, c.OnMap := by decide +kernel
  have regular : patch.vertices.crossings ≠ 1 := by omega
  refine ⟨several, encode_eq_region_encode .default nonempty onMap regular, by decide +kernel⟩

end CellBoundary

end Antimeridian
