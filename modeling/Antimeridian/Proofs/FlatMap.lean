import Antimeridian.Proofs.Cell
import Antimeridian.Proofs.Ewkb.RoundTrip
import Antimeridian.Proofs.PolarCap
import Antimeridian.Proofs.Split.Extent

/-!
# Encodings on the flat map

What is encoded lies on the flat map, from -180 to 180 degrees of longitude and from -90 to 90 of
latitude, in closed rings.  The limits themselves survive: half a turn, a right angle and a latitude
limit of ninety degrees all come out exactly, and rounding is monotone in between.
-/

namespace Antimeridian
open Double

/-! ## Degrees -/

/-- The point lies on the map of degrees. -/
def Coord.InDegrees (c : Coord) : Prop := Within 90 c.lat ∧ Within 180 c.lng

/-- Angles in range are degrees in range: the two conversions of a bound do not round past it. -/
theorem Coord.InRange.toDegrees {c : Coord} (inRange : c.InRange) : c.toDegrees.InDegrees := by
  have radian : Within Angle.radian Angle.radian := by decide +kernel
  have finite : Angle.radian.isFinite = true := by decide +kernel
  constructor
  · have lat := within_mul inRange.1 radian isFinite_half_pi finite
    rwa [show Angle.pi / 2 * Angle.radian = 90 by decide +kernel] at lat
  · have lng := within_mul inRange.2 radian isFinite_pi finite
    rwa [show Angle.pi * Angle.radian = 180 by decide +kernel] at lng

/-- Every vertex of the ring lies on the map of degrees. -/
def Ring.InDegrees (ring : Ring) : Prop := ∀ c ∈ ring, c.InDegrees

theorem Ring.inDegrees_toDegrees {ring : Ring} (inRange : ∀ c ∈ ring, c.InRange) :
    ring.toDegrees.InDegrees := by
  intro c member
  obtain ⟨c, inRing, rfl⟩ := List.mem_map.1 member
  exact (inRange c inRing).toDegrees

/-- A ring on the map of degrees whose last point is its first. -/
structure Ring.Flat (ring : Ring) : Prop where
  inside : ring.InDegrees
  closed : ∀ {first last : Coord}, ring.head? = some first → ring.getLast? = some last →
    first.same last = true

theorem Coord.InDegrees.isFinite {c : Coord} (inside : c.InDegrees) : c.IsFinite :=
  ⟨inside.1.isFinite (by decide +kernel), inside.2.isFinite (by decide +kernel)⟩

/-- A ring is written as a closed one. -/
theorem Ewkb.flat_closing {r : Ring} (inside : r.InDegrees) : (closing r).Flat := by
  cases r with
  | nil => exact ⟨inside, fun start => by cases start⟩
  | cons first rest =>
    rw [closing]
    split
    · rename_i equal
      refine ⟨inside, ?_⟩
      intro start final begins ends
      cases begins
      rw [List.getLast?_cons, Option.some.injEq] at ends
      rwa [← ends, ← List.getLastD_eq_getLast?]
    · refine ⟨?_, ?_⟩
      · intro c member
        rcases List.mem_append.1 member with inRing | added
        · exact inside c inRing
        · rw [List.mem_singleton.1 added]
          exact inside first List.mem_cons_self
      · intro start final begins ends
        cases begins
        rw [List.getLast?_append_of_ne_nil _ (by simp)] at ends
        cases ends
        exact (inside first List.mem_cons_self).isFinite.same_self

/-! ## Rings around a pole -/

theorem within_ofInt_sign (x : Float) : Within 1 (Float.ofInt (sign x)) := by
  rcases sign_cases x with west | none | east
  · rw [west]; decide +kernel
  · rw [none]; decide +kernel
  · rw [east]; decide +kernel

/-- The vertices that open a ring at a pole are in range. -/
theorem inRange_capVertices [Trig] [Trig.Lawful] {a b : Coord} {limit : Float}
    (aRange : a.InRange) (bRange : b.InRange) (within : Within (Angle.pi / 2) limit) :
    ∀ c ∈ Ring.capVertices limit a b, c.InRange := by
  have cut := within_cutLatitude aRange.isFinite bRange.isFinite
  have lng := Ring.onMap_cap a (cutLatitude a b)
  have pole := within_mul (within_ofInt_sign (cutLatitude a b)) within isFinite_one isFinite_half_pi
  rw [show 1 * (Angle.pi / 2) = Angle.pi / 2 by decide +kernel] at pole
  intro c member
  simp only [Ring.capVertices, List.mem_cons, List.not_mem_nil, or_false] at member
  rcases member with rfl | rfl | rfl | rfl
  · exact ⟨cut, lng.1⟩
  · exact ⟨pole, lng.1⟩
  · exact ⟨pole, lng.2⟩
  · exact ⟨cut, lng.2⟩

/-- Opening a ring at a pole keeps its vertices in range, and the ring does not get much longer. -/
theorem inRange_openAtPole [Trig] [Trig.Lawful] {ring opened : Ring} {limit : Float}
    (inRange : ∀ c ∈ ring, c.InRange) (within : Within (Angle.pi / 2) limit)
    (ok : (ring.openAtPole limit).result = .ok opened) :
    (∀ c ∈ opened, c.InRange) ∧ opened.length ≤ 5 * ring.length := by
  unfold Ring.openAtPole at ok
  split at ok
  · cases ok
  · obtain rfl := Except.ok.inj ok
    constructor
    · intro c member
      obtain ⟨⟨a, b⟩, inEdges, added⟩ := List.mem_flatMap.1 member
      obtain ⟨starts, ends⟩ := Ring.mem_of_mem_edges inEdges
      dsimp only at added
      split at added
      · rcases List.mem_cons.1 added with rfl | inCap
        · exact inRange c starts
        · exact inRange_capVertices (inRange a starts) (inRange b ends) within c inCap
      · rw [List.mem_singleton.1 added]
        exact inRange a starts
    · have length : ring.edges.length = ring.length := cyclicPairs_length ring
      rw [Nat.mul_comm, ← length]
      apply Split.length_flatMap_le
      intro e _
      dsimp only
      split <;> simp [Ring.capVertices]

/-- The limit of valid settings is an angle within a right angle. -/
theorem within_polarLimit {settings : Settings} (valid : settings.valid = true) :
    Within (Angle.pi / 2) settings.polarLimit := by
  have degree : Within Angle.degree Angle.degree := by decide +kernel
  have degreeFinite : Angle.degree.isFinite = true := by decide +kernel
  have ninetyFinite : (90 : Float).isFinite = true := by decide +kernel
  have ninety := isNumber_of_isFinite ninetyFinite
  simp only [Settings.valid, Bool.not_or, Bool.not_not, Bool.and_eq_true, Bool.not_eq_true',
    decide_eq_false_iff_not] at valid
  obtain ⟨⟨finite, above⟩, below⟩ := valid
  have number := isNumber_of_isFinite finite
  have low := mt (fun le => le_iff_rank.2 ⟨number, isNumber_zero, le⟩) above
  have high := mt (fun less => lt_iff_rank.2 ⟨ninety, number, less⟩) below
  have limit : Within 90 settings.polarLimitDegrees := by
    rw [rank_zero] at low
    exact within_iff.2 ⟨ninety, number, by omega⟩
  have product := within_mul limit degree ninetyFinite degreeFinite
  rwa [show 90 * Angle.degree = Angle.pi / 2 by decide +kernel] at product

/-! ## Reading back -/

namespace Ewkb

/-- The rings of a geometry that was read. -/
def Geometry.rings : Geometry → List Ring
  | .polygon p => p.rings
  | .multiPolygon _ members => members.flatMap PolygonRecord.rings

theorem flat_ofBoundary {srid : UInt32} {r : Ring} (inside : r.InDegrees) :
    ∀ ring ∈ (PolygonRecord.ofBoundary srid r).rings, ring.Flat := by
  intro ring member
  unfold PolygonRecord.ofBoundary at member
  dsimp only at member
  split at member
  · cases member
  · rw [List.mem_singleton.1 member]
    exact flat_closing inside

theorem flat_ofPolygon {srid : UInt32} {p : Polygon} (inside : ∀ r ∈ p.rings, r.InDegrees) :
    ∀ ring ∈ (PolygonRecord.ofPolygon srid p).rings, ring.Flat := by
  intro ring member
  have closed : ring ∈ p.rings.map closing := member
  obtain ⟨r, inRings, rfl⟩ := List.mem_map.1 closed
  exact flat_closing (inside r inRings)

theorem flat_ofRegion {srid : UInt32} {ps : Region}
    (inside : ∀ p ∈ ps, ∀ r ∈ p.rings, r.InDegrees) :
    ∀ ring ∈ (Geometry.ofRegion srid ps).rings, ring.Flat := by
  match ps with
  | [] => simp [Geometry.ofRegion, Geometry.rings]
  | [p] => exact flat_ofPolygon (inside p List.mem_cons_self)
  | p :: q :: rest =>
    intro ring member
    obtain ⟨record, inMembers, inRecord⟩ := List.mem_flatMap.1 member
    obtain ⟨p', inRegion, rfl⟩ := List.mem_map.1 inMembers
    exact flat_ofPolygon (inside p' inRegion) ring inRecord

theorem closing_length_le (r : Ring) : (closing r).length ≤ r.length + 1 := by
  rw [closing_length, pointCount]
  split <;> omega

theorem decode_boundary_flat (srid : UInt32) {r : Ring} (inside : r.InDegrees)
    (fits : r.length + 1 < 2 ^ 32) :
    ∃ g, decode (boundary srid r) = some g ∧ ∀ ring ∈ g.rings, ring.Flat :=
  ⟨_, decode_of_polygon (reads_boundary ((closing_length_le r).trans_lt fits)),
    flat_ofBoundary inside⟩

theorem decode_boundaries_flat (srid : UInt32) {rings : List Ring}
    (inside : ∀ r ∈ rings, r.InDegrees) (fits : rings.length < 2 ^ 32)
    (each : ∀ r ∈ rings, r.length + 1 < 2 ^ 32) :
    ∃ g, decode (boundaries srid rings) = some g ∧ ∀ ring ∈ g.rings, ring.Flat := by
  refine ⟨_, decode_of_members (fun r member =>
    reads_boundary ((closing_length_le r).trans_lt (each r member))) fits, ?_⟩
  intro ring member
  obtain ⟨record, inMembers, inRecord⟩ := List.mem_flatMap.1 member
  obtain ⟨r, inRings, rfl⟩ := List.mem_map.1 inMembers
  exact flat_ofBoundary (inside r inRings) ring inRecord

/-! ## Counts and sizes -/

/-- What is written for each of several things bounds their number and the size of each. -/
theorem le_total {α : Type} {l : List α} {size : α → Nat} {least : Nat}
    (sized : ∀ a, least ≤ size a) : l.length * least ≤ total (l.map size) ∧
      ∀ a ∈ l, size a ≤ total (l.map size) := by
  rw [total_eq_sum]
  constructor
  · have sum := List.card_nsmul_le_sum (l.map size) least (by
      intro n member
      obtain ⟨a, -, rfl⟩ := List.mem_map.1 member
      exact sized a)
    rwa [List.length_map, smul_eq_mul] at sum
  · intro a member
    exact List.le_sum_of_mem (List.mem_map_of_mem member)

theorem fits_of_size {p : Polygon} (small : polygonBodySize p < 2 ^ 34) : Fits p := by
  obtain ⟨count, each⟩ := @le_total _ p.rings ringSize 4 (fun r => Nat.le_add_right _ _)
  unfold polygonBodySize at small
  constructor
  · omega
  · intro r member
    have size := each r member
    rw [closing_length]
    simp only [ringSize, pointSize] at size
    omega

/-- A region whose bytes are few enough has counts that fit into 32 bits. -/
theorem fits_of_length {srid : UInt32} {ps : Region} (small : (region srid ps).length < 2 ^ 34) :
    ps.length < 2 ^ 32 ∧ ∀ p ∈ ps, Fits p := by
  rw [region_length] at small
  match ps with
  | [] => simp
  | [p] =>
    have body : polygonBodySize p < 2 ^ 34 := by
      simp only [regionSize] at small
      omega
    exact ⟨by simp, by simpa using fits_of_size body⟩
  | p :: q :: rest =>
    obtain ⟨count, each⟩ := @le_total _ (p :: q :: rest)
      (fun p => headerSize + polygonBodySize p) 9 (fun p => Nat.le_add_right _ _)
    simp only [regionSize] at small
    refine ⟨by omega, ?_⟩
    intro p' member
    have size := each p' member
    exact fits_of_size (by omega)

end Ewkb

/-! ## Encodings -/

theorem Settings.valid_of_validate {settings : Settings} {u : Unit}
    (ok : settings.validate = .ok u) : settings.valid = true := by
  by_contra invalid
  rw [validate, if_neg invalid] at ok
  cases ok

namespace CellBoundary
open Split

variable {b : CellBoundary} {settings : Settings} {bytes : Ewkb.Bytes}

theorem vertices_length_le (b : CellBoundary) : b.vertices.length ≤ 10 := by
  rw [vertices, List.length_take]
  exact (min_le_right _ _).trans_eq b.slots.length_toList

/-- The encoding of a boundary around a pole. -/
theorem encode_result_of_pole [Trig] (settings : Settings) (polar : b.vertices.crossings = 1) :
    (b.encode settings).result = settings.validate >>= fun _ =>
      (b.vertices.openAtPole settings.polarLimit).result >>= fun opened =>
        .ok (Ewkb.boundary settings.srid opened.toDegrees) := by
  rw [encode, Traced.result_bind]
  refine bind_congr fun _ => ?_
  simp only [polar]
  rw [Traced.result_bind]
  change (b.vertices.openAtPole settings.polarLimit >>= _).result = _
  rw [Traced.result_bind]
  refine bind_congr fun opened => ?_
  rw [Ewkb.encodeBoundary_eq]
  rfl

theorem decode_flat [Trig] [Trig.Lawful] (inRange : ∀ c ∈ b.vertices, c.InRange)
    (ok : (b.encode settings).result = .ok bytes) :
    ∃ g, Ewkb.decode bytes = some g ∧ ∀ ring ∈ g.rings, ring.Flat := by
  have few := b.vertices_length_le
  by_cases polar : b.vertices.crossings = 1
  · rw [encode_result_of_pole settings polar] at ok
    obtain ⟨_, validated, later⟩ := bind_eq_ok.1 ok
    obtain ⟨opened, opening, result⟩ := bind_eq_ok.1 later
    obtain rfl := Except.ok.inj result
    have limit := within_polarLimit (Settings.valid_of_validate validated)
    obtain ⟨inside, length⟩ := inRange_openAtPole inRange limit opening
    apply Ewkb.decode_boundary_flat settings.srid (Ring.inDegrees_toDegrees inside)
    rw [Ring.toDegrees, List.length_map]
    omega
  · rw [encode_result settings polar] at ok
    obtain ⟨_, -, later⟩ := bind_eq_ok.1 ok
    split at later
    · obtain ⟨parts, split, result⟩ := bind_eq_ok.1 later
      obtain rfl := Except.ok.inj result
      have inside := inRange_of_split (p := ⟨b.vertices, []⟩) (by
        intro ring member
        rw [List.mem_singleton.1 member]
        exact inRange) split
      obtain ⟨count, each⟩ := length_le_of_split rfl split
      apply Ewkb.decode_boundaries_flat
      · intro r member
        obtain ⟨q, inParts, rfl⟩ := List.mem_map.1 member
        exact Ring.inDegrees_toDegrees (inside q inParts q.exterior List.mem_cons_self)
      · rw [List.length_map]
        exact (count.trans few).trans_lt (by decide)
      · intro r member
        obtain ⟨q, inParts, rfl⟩ := List.mem_map.1 member
        have length := each q inParts
        rw [Ring.toDegrees, List.length_map]
        dsimp only at length
        omega
    · obtain rfl := Except.ok.inj later
      apply Ewkb.decode_boundary_flat settings.srid (Ring.inDegrees_toDegrees inRange)
      rw [Ring.toDegrees, List.length_map]
      omega

end CellBoundary

namespace Region
open Split

variable {region : Region} {settings : Settings} {bytes : Ewkb.Bytes}

/-- The parts of a region stay in the range of its vertices. -/
theorem inRange_of_split [Trig] [Trig.Lawful] {out : Region}
    (inRange : ∀ p ∈ region, p.InRange) (ok : region.split.result = .ok out) :
    ∀ q ∈ out, q.InRange := by
  intro q member
  obtain ⟨p, inRegion, parts, pieces, inParts⟩ := mem_pieces_of_split ok member
  unfold Polygon.pieces at pieces
  split at pieces
  · exact Split.inRange_of_split (inRange p inRegion) pieces q inParts
  · obtain rfl := Except.ok.inj pieces
    rw [List.mem_singleton.1 inParts]
    exact inRange p inRegion

/-- The bytes of a region are those of polygons on the map of degrees. -/
theorem encode_inDegrees [Trig] [Trig.Lawful] (inRange : ∀ p ∈ region, p.InRange)
    (ok : (region.encode settings).result = .ok bytes) : ∃ out : Region,
      bytes = Ewkb.region settings.srid out ∧ ∀ p ∈ out, ∀ r ∈ p.rings, r.InDegrees := by
  rw [encode_result] at ok
  obtain ⟨_, -, later⟩ := bind_eq_ok.1 ok
  obtain ⟨parts, split, result⟩ := bind_eq_ok.1 later
  refine ⟨parts.toDegrees, (Except.ok.inj result).symm, ?_⟩
  intro p member r inRings
  obtain ⟨q, inParts, rfl⟩ := List.mem_map.1 member
  have converted : r ∈ q.rings.map Ring.toDegrees := inRings
  obtain ⟨ring, inPolygon, rfl⟩ := List.mem_map.1 converted
  exact Ring.inDegrees_toDegrees (inRange_of_split inRange split q inParts ring inPolygon)

end Region

/-- The encoding of a cell or of a region whose vertices are in range decodes to closed rings on the
map of degrees, under all settings.  Counts take up four bytes, so that more than sixteen gigabytes
cannot always be read back; the rings that are written are closed and on the map all the same.  This
holds for every library of the functions of angles that keeps the laws. -/
theorem encode_flat [Trig] [Trig.Lawful] (settings : Settings) :
    (∀ (b : CellBoundary) (bytes : Ewkb.Bytes), (∀ c ∈ b.vertices, c.InRange) →
      (b.encode settings).result = .ok bytes →
        ∃ g, Ewkb.decode bytes = some g ∧ ∀ ring ∈ g.rings, ring.Flat) ∧
    (∀ (region : Region) (bytes : Ewkb.Bytes), (∀ p ∈ region, p.InRange) →
      (region.encode settings).result = .ok bytes →
        (∃ out : Region, bytes = Ewkb.region settings.srid out ∧
          ∀ p ∈ out, ∀ r ∈ p.rings, (Ewkb.closedVertices r).Flat) ∧
        (bytes.length < 2 ^ 34 →
          ∃ g, Ewkb.decode bytes = some g ∧ ∀ ring ∈ g.rings, ring.Flat)) := by
  constructor
  · intro b bytes inRange ok
    exact CellBoundary.decode_flat inRange ok
  · intro region bytes inRange ok
    obtain ⟨out, rfl, inside⟩ := Region.encode_inDegrees inRange ok
    refine ⟨⟨out, rfl, ?_⟩, ?_⟩
    · intro p member r inRings
      rw [Ewkb.closedVertices_eq]
      exact Ewkb.flat_closing (inside p member r inRings)
    · intro small
      obtain ⟨fits, each⟩ := Ewkb.fits_of_length small
      exact ⟨_, Ewkb.decode_region fits each, Ewkb.flat_ofRegion inside⟩

/-- A cell around the north pole. -/
def polarCell : CellBoundary :=
  ⟨3, #v[⟨1, -3⟩, ⟨1, 0⟩, ⟨1, 3⟩, .origin, .origin, .origin, .origin, .origin, .origin, .origin]⟩

/-- A polygon across the antimeridian, with a vertex at the south pole and a hole that crosses. -/
def lune : Polygon :=
  ⟨[⟨-(Angle.pi / 2), Angle.pi⟩, ⟨-1, -3⟩, ⟨1, -3⟩, ⟨1, 3⟩],
    [[⟨-0.5, 3.125⟩, ⟨-0.5, -3.125⟩, ⟨-0.3, -3.125⟩, ⟨-0.3, 3.125⟩]]⟩

/-- A cell around the pole and a lune between the poles are written flat. -/
theorem encode_flat_poles :
    (∃ bytes, (polarCell.encode ⟨4326, 90, false⟩).result = .ok bytes ∧
      ∃ g, Ewkb.decode bytes = some g ∧ ∀ ring ∈ g.rings, ring.Flat) ∧
    ∃ bytes, (Region.encode [lune] ⟨4326, 90, false⟩).result = .ok bytes ∧
      ∃ g, Ewkb.decode bytes = some g ∧ ∀ ring ∈ g.rings, ring.Flat := by
  have cell : ((polarCell.encode ⟨4326, 90, false⟩).result.toOption.any fun _ => true) = true := by
    decide +kernel
  have region : ((Region.encode [lune] ⟨4326, 90, false⟩).result.toOption.any
      fun bytes => decide (bytes.length < 2 ^ 34)) = true := by
    decide +kernel
  have cellRange : ∀ c ∈ polarCell.vertices, c.InRange := by decide +kernel
  have regionRange : ∀ p ∈ [lune], p.InRange := by decide +kernel
  constructor
  · cases ok : (polarCell.encode ⟨4326, 90, false⟩).result with
    | error fault => rw [ok] at cell; cases cell
    | ok bytes => exact ⟨bytes, rfl, (encode_flat _).1 polarCell bytes cellRange ok⟩
  · cases ok : (Region.encode [lune] ⟨4326, 90, false⟩).result with
    | error fault => rw [ok] at region; cases region
    | ok bytes =>
      rw [ok] at region
      have small : bytes.length < 2 ^ 34 := of_decide_eq_true region
      exact ⟨bytes, rfl, ((encode_flat _).2 [lune] bytes regionRange ok).2 small⟩

end Antimeridian
