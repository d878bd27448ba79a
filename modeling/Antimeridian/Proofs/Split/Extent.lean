import Antimeridian.Proofs.Cut
import Antimeridian.Proofs.Split.Parts

/-!
# The extent of the parts

A walk passes vertices of the rings and crossings of their edges, and nothing else.  So the parts of
a polygon stay in the range of latitudes and longitudes that its vertices keep to.  A walk passes at
most three points for every vertex, so the parts are not much longer than the rings.
-/

namespace Antimeridian
open Double

/-- The latitude is within a right angle and the longitude within half a turn. -/
def Coord.InRange (c : Coord) : Prop := Within (Angle.pi / 2) c.lat ∧ Within Angle.pi c.lng

instance (c : Coord) : Decidable c.InRange := inferInstanceAs (Decidable (_ ∧ _))

/-- All vertices of all rings are in range. -/
def Polygon.InRange (p : Polygon) : Prop := ∀ ring ∈ p.rings, ∀ c ∈ ring, c.InRange

instance (p : Polygon) : Decidable p.InRange :=
  inferInstanceAs (Decidable (∀ ring ∈ p.rings, ∀ c ∈ ring, c.InRange))

theorem Coord.InRange.isFinite {c : Coord} (inRange : c.InRange) : c.IsFinite :=
  ⟨inRange.1.isFinite isFinite_half_pi, inRange.2.isFinite isFinite_pi⟩

namespace Split

/-! ## Places -/

/-- A point put at a crossing is in range if its latitude is. -/
theorem Crossing.point_inRange {x : Crossing} (side : Int) (lat : Within (Angle.pi / 2) x.lat) :
    (x.point side).InRange := by
  refine ⟨lat, ?_⟩
  unfold Crossing.point
  dsimp only
  split
  · decide +kernel
  · split <;> decide +kernel

/-- A crossing is put on one of the two meridians. -/
theorem Crossing.point_lng_cases (x : Crossing) (side : Int) :
    (x.point side).lng = 0 ∨ (x.point side).lng = Angle.pi ∨ (x.point side).lng = -Angle.pi := by
  unfold Crossing.point
  dsimp only
  split
  · exact Or.inl rfl
  · split
    · exact Or.inr (Or.inl rfl)
    · exact Or.inr (Or.inr rfl)

/-- The edges of the rings that leave the hemisphere of their start. -/
def crossedEdges (rings : List Ring) : List (Coord × Coord) :=
  (sidedEdges rings).filterMap fun (side, e) => if leaves side e.2 then some e else none

theorem mem_edges_of_crossedEdges {rings : List Ring} {e : Coord × Coord}
    (member : e ∈ crossedEdges rings) : ∃ ring ∈ rings, e ∈ ring.edges := by
  obtain ⟨⟨side, d⟩, sided, crossed⟩ := List.mem_filterMap.1 member
  obtain rfl : d = e := Option.some.inj (Option.ite_none_right_eq_some.1 crossed).2
  have edge : d ∈ (sidedEdges rings).map Prod.snd := List.mem_map_of_mem sided
  rw [map_snd_sidedEdges] at edge
  exact List.mem_flatMap.1 edge

/-- A crossing has the latitude at which its edge is cut. -/
theorem exists_edge_of_crossing [Trig] {rings : List Ring} {x : Crossing}
    (member : x ∈ (Arena.ofRings rings).crossings) :
    ∃ e ∈ crossedEdges rings, x.lat = cutLatitude e.1 e.2 := by
  obtain ⟨node, inArena, crossing⟩ := List.mem_filterMap.1 member
  obtain ⟨i, place⟩ := List.getElem?_of_mem inArena
  obtain ⟨ring, inRings, first, k, e, -, -, edge, rfl, -⟩ := ofRings_node place
  obtain ⟨leave, rfl⟩ := nodeAt_crossing.1 crossing
  refine ⟨e, List.mem_filterMap.2 ⟨_, mem_sidedEdges inRings edge, ?_⟩, rfl⟩
  exact if_pos leave

/-- The edges of finite vertices are crossed within a right angle of the equator. -/
theorem within_lat_of_mem_crossings [Trig] [Trig.Lawful] {rings : List Ring}
    (finite : ∀ ring ∈ rings, ∀ c ∈ ring, c.IsFinite) {x : Crossing}
    (member : x ∈ (Arena.ofRings rings).crossings) : Within (Angle.pi / 2) x.lat := by
  obtain ⟨e, crossed, lat⟩ := exists_edge_of_crossing member
  obtain ⟨ring, inRings, edge⟩ := mem_edges_of_crossedEdges crossed
  obtain ⟨starts, ends⟩ := Ring.mem_of_mem_edges edge
  rw [lat]
  exact within_cutLatitude (finite ring inRings _ starts) (finite ring inRings _ ends)

section

variable {arena : Arena} {meridian : Meridian} {side : Int} {left : List Nat} {h : Heading}
  {w : Walk} {path : List (Heading × Step)} {ts : List Tour}

/-- A walk passes only vertices of the arena and crossings. -/
theorem Follows.mem_passed (follows : Follows arena meridian side left h w path) {c : Coord}
    (member : c ∈ w.passed) : (∃ node ∈ arena, c = node.coord) ∨
      ∃ x, (x ∈ arena.crossings ∨ x ∈ meridian) ∧ c = x.point side := by
  rw [follows.passed] at member
  obtain ⟨⟨k, s⟩, inPath, inStep⟩ := List.mem_flatMap.1 member
  obtain ⟨node, here, passed | ⟨x, y, inCrossings, inMeridian, passed⟩⟩ :=
    step_cases (follows.chain.step_eq _ inPath)
  · rw [passed] at inStep
    exact Or.inl ⟨node, List.mem_of_getElem? here, List.mem_singleton.1 inStep⟩
  · rw [passed] at inStep
    simp only [List.mem_cons, List.not_mem_nil, or_false] at inStep
    rcases inStep with rfl | rfl | rfl
    · exact Or.inl ⟨node, List.mem_of_getElem? here, rfl⟩
    · exact Or.inr ⟨x, Or.inl inCrossings, rfl⟩
    · exact Or.inr ⟨y, Or.inr inMeridian, rfl⟩

/-! ## Lengths -/

theorem length_flatMap_le {α β : Type} {l : List α} {f : α → List β} {n : Nat}
    (each : ∀ a ∈ l, (f a).length ≤ n) : (l.flatMap f).length ≤ l.length * n := by
  have sum := List.sum_le_card_nsmul (l.map fun a => (f a).length) n (by
    intro m member
    obtain ⟨a, inList, rfl⟩ := List.mem_map.1 member
    exact each a inList)
  rwa [List.length_map, smul_eq_mul, ← List.length_flatMap] at sum

/-- A walk passes three points for every unused vertex at most. -/
theorem Follows.passed_length_le (follows : Follows arena meridian side left h w path) :
    w.passed.length ≤ 3 * left.length := by
  have step : ∀ x ∈ path, x.2.passed.length ≤ 3 := by
    intro x member
    obtain ⟨node, -, passed | ⟨_, _, -, -, passed⟩⟩ := step_cases (follows.chain.step_eq x member)
    · simp [passed]
    · simp [passed]
  have visits : path.length ≤ left.length := by
    have used := follows.used.length_eq
    rw [follows.visited, List.length_append, List.length_map] at used
    omega
  have total := length_flatMap_le step
  rw [follows.passed]
  omega

/-- There are no more tours than unused vertices, and no exterior is longer than three times their
number. -/
theorem Touring.length_le (touring : Touring arena meridian left ts) :
    ts.length ≤ left.length ∧ ∀ t ∈ ts, t.part.exterior.length ≤ 3 * left.length := by
  induction touring with
  | done => simp
  | @tour start left t rest toured later ih =>
    have fewer := tour_left_length toured
    obtain ⟨-, node, -, -, path, follows⟩ := exists_follows_tour toured
    refine ⟨?_, ?_⟩
    · simp only [List.length_cons]
      omega
    · intro u member
      rcases List.mem_cons.1 member with rfl | inRest
      · exact (withoutRepeats_sublist _).length_le.trans follows.passed_length_le
      · have := ih.2 u inRest
        simp only [List.length_cons]
        omega

end

/-! ## Splits -/

section

variable [Trig] {rings : List Ring} {left : List Nat} {ts : List Tour} {t : Tour} {c : Coord}

/-- The exterior of a part has vertices of the rings and crossings of their edges. -/
theorem Touring.mem_exterior_cases (touring : Touring (Arena.ofRings rings)
      (.ofCrossings (Arena.ofRings rings).crossings) left ts) (member : t ∈ ts)
    (inExterior : c ∈ t.part.exterior) : (∃ ring ∈ rings, c ∈ ring) ∨
      ∃ x ∈ (Arena.ofRings rings).crossings, c = x.point t.side := by
  obtain ⟨-, -, -, left, path, follows⟩ := touring.follows t member
  rcases follows.mem_passed ((withoutRepeats_sublist _).subset inExterior) with
    ⟨node, inArena, rfl⟩ | ⟨x, source, rfl⟩
  · obtain ⟨i, place⟩ := List.getElem?_of_mem inArena
    obtain ⟨-, -, ring, inRings, inRing⟩ := ofRings_coord place
    exact Or.inl ⟨ring, inRings, inRing⟩
  · exact Or.inr ⟨x, source.elim id (Meridian.ofCrossings_perm _).mem_iff.1, rfl⟩

/-- Where the vertices of the rings are finite, the crossings are in range. -/
theorem Touring.mem_exterior [Trig.Lawful] (finite : ∀ ring ∈ rings, ∀ c ∈ ring, c.IsFinite)
    (touring : Touring (Arena.ofRings rings)
      (.ofCrossings (Arena.ofRings rings).crossings) left ts) (member : t ∈ ts)
    (inExterior : c ∈ t.part.exterior) : (∃ ring ∈ rings, c ∈ ring) ∨ c.InRange := by
  rcases touring.mem_exterior_cases member inExterior with vertex | ⟨x, inCrossings, rfl⟩
  · exact Or.inl vertex
  · exact Or.inr (Crossing.point_inRange _ (within_lat_of_mem_crossings finite inCrossings))

end

section

variable [Trig] {p : Polygon} {polygons : List Polygon}

/-- The holes of a part are holes of the polygon. -/
theorem holes_subset_of_split (ok : p.split.result = .ok polygons) {q : Polygon}
    (member : q ∈ polygons) : q.holes ⊆ p.holes := by
  obtain ⟨-, -, ts, -, -, rfl⟩ := exists_tours_of_split ok
  obtain ⟨j, place⟩ := List.getElem?_of_mem member
  rw [filledParts_getElem?] at place
  obtain ⟨part, -, rfl⟩ := Option.map_eq_some_iff.1 place
  exact List.filter_subset_self _

/-- The parts of a polygon stay in the range of its vertices. -/
theorem inRange_of_split [Trig.Lawful] (inRange : p.InRange) (ok : p.split.result = .ok polygons) :
    ∀ q ∈ polygons, q.InRange := by
  intro q member ring inRings
  have cut : ∀ ring ∈ cutRings p, ∀ c ∈ ring, c.InRange :=
    fun ring inCut => inRange ring (List.cons_subset_cons _ (List.filter_subset_self _) inCut)
  rcases List.mem_cons.1 inRings with rfl | inHoles
  · obtain ⟨-, -, ts, toured, -, rfl⟩ := exists_tours_of_split ok
    obtain ⟨t, inTours, equal⟩ := exists_tour_of_mem member
    rw [← equal]
    intro c inExterior
    have finite : ∀ ring ∈ cutRings p, ∀ c ∈ ring, c.IsFinite :=
      fun ring inCut c inRing => (cut ring inCut c inRing).isFinite
    rcases (touring_of_tours toured).mem_exterior finite inTours inExterior with
      ⟨ring, inCut, inRing⟩ | inRange
    · exact cut ring inCut c inRing
    · exact inRange
  · exact inRange ring (List.mem_cons_of_mem _ (holes_subset_of_split ok member inHoles))

/-- The parts of a polygon without holes are at most as many as its vertices, and at most three
times as long. -/
theorem length_le_of_split (simple : p.holes = []) (ok : p.split.result = .ok polygons) :
    polygons.length ≤ p.exterior.length ∧
      ∀ q ∈ polygons, q.exterior.length ≤ 3 * p.exterior.length := by
  have arena : (arenaOf p).length = p.exterior.length := by
    rw [arenaOf, cutRings, simple]
    simp [Arena.ofRings, layOut, ringNodes_length]
  obtain ⟨-, -, ts, toured, -, rfl⟩ := exists_tours_of_split ok
  obtain ⟨count, each⟩ := (touring_of_tours toured).length_le
  rw [List.length_range, arena] at count each
  constructor
  · simpa [filledParts] using count
  · intro q member
    obtain ⟨t, inTours, equal⟩ := exists_tour_of_mem member
    rw [← equal]
    exact each t inTours

end

end Split

end Antimeridian
