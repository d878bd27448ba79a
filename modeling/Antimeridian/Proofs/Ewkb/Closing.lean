import Antimeridian.Proofs.Cut
import Antimeridian.Proofs.Ewkb.RoundTrip

/-!
# Rings that repeat their first vertex

A ring is written closed, so it makes no difference whether a caller has closed it beforehand.  Any
choice of open rings among the exteriors and holes of a region may be closed by a copy of the first
vertex, and the bytes stay the same.  A copy in any other place is written once more: after a ring
that is closed already, and after one whose first vertex holds a NaN, which never counts as closed.
-/

namespace Antimeridian

/-- The second ring is the first one, or the first one is open and the second has a copy of its
first vertex at the end. -/
inductive Ring.Closes : Ring → Ring → Prop
  | kept (r : Ring) : Closes r r
  | closed (first : Coord) (rest : Ring) (unclosed : Ring.closed (first :: rest) = false)
      (number : first.IsNumber) : Closes (first :: rest) (first :: rest ++ [first])

/-- Some rings of the polygon have been closed. -/
structure Polygon.Closes (p q : Polygon) : Prop where
  exterior : Ring.Closes p.exterior q.exterior
  holes : List.Forall₂ Ring.Closes p.holes q.holes

namespace Ewkb

/-! ## Rings -/

/-- A ring that ends with its first vertex is closed, unless that vertex holds a NaN. -/
theorem closed_append_first (first : Coord) (rest : Ring) :
    Ring.closed (first :: rest ++ [first]) = first.same first := by
  rw [List.cons_append, closed_cons, List.getLastD_concat]

/-- A ring that is closed by a copy of its first vertex is written as before. -/
theorem closing_of_closes {r s : Ring} (closes : r.Closes s) : closing s = closing r := by
  cases closes with
  | kept => rfl
  | closed first rest unclosed number =>
    rw [← closedVertices_eq, ← closedVertices_eq, closedVertices, closedVertices,
      closed_append_first, if_pos number.same_self, unclosed]
    rfl

/-- A ring and its closed form are written as the same bytes. -/
theorem ring_of_closes {r s : Ring} (closes : r.Closes s) : ring s = ring r := by
  rw [ring_eq, ring_eq, closing_of_closes closes]

theorem boundary_of_closes (srid : UInt32) {r s : Ring} (closes : r.Closes s) :
    boundary srid s = boundary srid r := by
  have empty : s.isEmpty = r.isEmpty := by
    cases closes <;> rfl
  rw [boundary, boundary, empty, ring_of_closes closes]

/-- A copy of the first vertex is one more point unless it closes the ring. -/
theorem pointCount_append_first_iff (first : Coord) (rest : Ring) :
    pointCount (first :: rest ++ [first]) = pointCount (first :: rest) ↔
      Ring.closed (first :: rest) = false ∧ first.IsNumber := by
  rw [pointCount, pointCount, closed_append_first, ← Coord.same_self_iff]
  cases Ring.closed (first :: rest) <;> cases first.same first <;> simp
  omega

/-- Closing a ring beforehand keeps its bytes exactly if it was open and its first vertex is a
number. -/
theorem boundary_append_first_iff (srid : UInt32) (first : Coord) (rest : Ring) :
    boundary srid (first :: rest ++ [first]) = boundary srid (first :: rest) ↔
      Ring.closed (first :: rest) = false ∧ first.IsNumber := by
  constructor
  · intro equal
    have sizes := congrArg List.length equal
    rw [boundary_length, boundary_length] at sizes
    simp only [boundarySize, ringSize, List.cons_append, List.isEmpty_cons] at sizes
    rw [← pointCount_append_first_iff, List.cons_append]
    unfold pointSize at sizes
    simpa using sizes
  · rintro ⟨unclosed, number⟩
    exact boundary_of_closes srid (.closed first rest unclosed number)

/-! ## Nested rings -/

/-- Things that are written alike one by one are written alike one after the other. -/
theorem flatMap_of_forall₂ {α : Type} {related : α → α → Prop} {write : α → Bytes} {l m : List α}
    (pairs : List.Forall₂ related l m) (alike : ∀ {a b}, related a b → write b = write a) :
    m.flatMap write = l.flatMap write := by
  induction pairs with
  | nil => rfl
  | cons pair _ ih => rw [List.flatMap_cons, List.flatMap_cons, alike pair, ih]

theorem polygonBody_of_closes {p q : Polygon} (closes : p.Closes q) :
    polygonBody q = polygonBody p := by
  have rings : List.Forall₂ Ring.Closes p.rings q.rings := .cons closes.exterior closes.holes
  rw [polygonBody, polygonBody, rings.length_eq, flatMap_of_forall₂ rings ring_of_closes]

theorem region_of_closes (srid : UInt32) {ps qs : Region}
    (closes : List.Forall₂ Polygon.Closes ps qs) : region srid qs = region srid ps := by
  have count := closes.length_eq
  have members : qs.flatMap (fun p => header .polygon srid ++ polygonBody p) =
      ps.flatMap (fun p => header .polygon srid ++ polygonBody p) :=
    flatMap_of_forall₂ closes fun pair => by rw [polygonBody_of_closes pair]
  match closes with
  | .nil => rfl
  | .cons pair .nil => rw [region, region, polygonBody_of_closes pair]
  | .cons _ (.cons _ _) =>
    rw [region_of_several srid (by simp), region_of_several srid (by simp), members, count]

theorem boundaries_of_closes (srid : UInt32) {rs ss : List Ring}
    (closes : List.Forall₂ Ring.Closes rs ss) : boundaries srid ss = boundaries srid rs := by
  rw [boundaries, boundaries, closes.length_eq,
    flatMap_of_forall₂ closes (boundary_of_closes srid)]

/-- Closing open rings beforehand, in a region, a boundary or a list of boundaries, leaves the
encoding as it is.  For a single ring a copy of the first vertex does so only if the ring is open
and that vertex is a number. -/
theorem encode_closes (srid : UInt32) :
    (∀ ps qs : Region, List.Forall₂ Polygon.Closes ps qs →
      encodeRegion qs srid = encodeRegion ps srid) ∧
    (∀ r s : Ring, r.Closes s → encodeBoundary s srid = encodeBoundary r srid) ∧
    (∀ rs ss : List Ring, List.Forall₂ Ring.Closes rs ss →
      encodeBoundaries ss srid = encodeBoundaries rs srid) ∧
    ∀ (first : Coord) (rest : Ring), encodeBoundary (first :: rest ++ [first]) srid =
        encodeBoundary (first :: rest) srid ↔
      Ring.closed (first :: rest) = false ∧ first.IsNumber := by
  refine ⟨fun ps qs closes => ?_, fun r s closes => ?_, fun rs ss closes => ?_,
    fun first rest => ?_⟩
  · rw [encodeRegion_eq, encodeRegion_eq, region_of_closes srid closes]
  · rw [encodeBoundary_eq, encodeBoundary_eq, boundary_of_closes srid closes]
  · rw [encodeBoundaries_eq, encodeBoundaries_eq, boundaries_of_closes srid closes]
  · rw [encodeBoundary_eq, encodeBoundary_eq, ← boundary_append_first_iff srid]
    simp [Traced.ok]

/-- The exterior of `pane` and a hole of two vertices are closed; the hole of `pane` is so already,
and an empty exterior has no vertex to repeat. -/
theorem encode_closes_pane :
    encodeRegion [⟨pane.exterior ++ [⟨0, 0⟩], pane.holes⟩,
        ⟨[], [[⟨0.5, 0⟩, ⟨0, 1⟩, ⟨0.5, 0⟩]]⟩] 4326 =
      encodeRegion [pane, ⟨[], [[⟨0.5, 0⟩, ⟨0, 1⟩]]⟩] 4326 ∧
    encodeBoundary (pane.exterior ++ [⟨0, 0⟩]) 4326 = encodeBoundary pane.exterior 4326 ∧
    encodeBoundaries [pane.exterior ++ [⟨0, 0⟩], []] 4326 =
      encodeBoundaries [pane.exterior, []] 4326 ∧
    encodeBoundary [⟨0, 1⟩, ⟨1, 1⟩, ⟨-0, 1⟩, ⟨0, 1⟩] 4326 ≠
      encodeBoundary [⟨0, 1⟩, ⟨1, 1⟩, ⟨-0, 1⟩] 4326 := by
  have exterior : Ring.Closes pane.exterior (pane.exterior ++ [⟨0, 0⟩]) :=
    .closed ⟨0, 0⟩ [⟨0, 1⟩, ⟨1, 0⟩] (by decide +kernel) (by decide +kernel)
  have hole : Ring.Closes [⟨0.5, 0⟩, ⟨0, 1⟩] [⟨0.5, 0⟩, ⟨0, 1⟩, ⟨0.5, 0⟩] :=
    .closed ⟨0.5, 0⟩ [⟨0, 1⟩] (by decide +kernel) (by decide +kernel)
  have holes : List.Forall₂ Ring.Closes pane.holes pane.holes := .cons (.kept _) .nil
  obtain ⟨region, boundary, boundaries, single⟩ := encode_closes 4326
  refine ⟨region _ _ (.cons ⟨exterior, holes⟩ (.cons ⟨.kept _, .cons hole .nil⟩ .nil)),
    boundary _ _ exterior, boundaries _ _ (.cons exterior (.cons (.kept _) .nil)), ?_⟩
  exact mt (single ⟨0, 1⟩ [⟨1, 1⟩, ⟨-0, 1⟩]).1 (by decide +kernel)

end Ewkb

end Antimeridian
