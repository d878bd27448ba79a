import Antimeridian.Proofs.Double.Rank
import Antimeridian.Proofs.Split.Assignment
import Antimeridian.Proofs.Split.Parity
import Antimeridian.Proofs.Split.Parts
import Antimeridian.Proofs.Split.Reach
import Antimeridian.Proofs.Split.Traversal

/-!
# Holes at the prime meridian

A part keeps to one hemisphere, and it has a vertex strictly inside of it.  A hole is kept whole if
it does not cross the antimeridian, and the part that takes it has looked at its first vertices only.
So a hole that lies across the prime meridian disagrees with the exterior of its part, whichever part
that is.  A hole that does not lie across it agrees, unless it begins on the prime meridian, where
the hemisphere of a vertex cannot tell the parts apart.
-/

namespace Antimeridian

namespace Coord

/-- The coordinates lie strictly in different hemispheres. -/
def Opposite (a b : Coord) : Prop := a.hemisphere * b.hemisphere = -1

instance (a b : Coord) : Decidable (a.Opposite b) := inferInstanceAs (Decidable (_ = _))

theorem hemisphere_eq_of_spot_eq {a b : Coord} (equal : a.spot = b.spot) :
    a.hemisphere = b.hemisphere := by
  rcases alike_of_spot_eq equal with rfl | same
  · rfl
  · obtain ⟨-, -, longitudes⟩ := Double.beq_iff_rank.1 (same_iff.1 same).2
    rw [hemisphere, hemisphere, Double.sign_eq_sign_rank, Double.sign_eq_sign_rank, longitudes]

theorem opposite_iff {a b : Coord} :
    a.Opposite b ↔ a.hemisphere ≠ 0 ∧ b.hemisphere = -a.hemisphere := by
  unfold Opposite
  rcases a.hemisphere_cases with west | zero | east
  · rw [west]
    omega
  · rw [zero]
    omega
  · rw [east]
    omega

end Coord

/-- Some vertices of the two rings lie strictly in different hemispheres. -/
def Ring.Opposes (ring other : Ring) : Prop := ∃ a ∈ ring, ∃ b ∈ other, a.Opposite b

instance (ring other : Ring) : Decidable (ring.Opposes other) :=
  inferInstanceAs (Decidable (∃ a ∈ ring, ∃ b ∈ other, a.Opposite b))

/-- A ring that crosses the antimeridian has a vertex off the prime meridian. -/
theorem Ring.exists_off_of_crosses {ring : Ring} (across : ring.crosses = true)
    (onMap : ∀ c ∈ ring, c.OnMap) : ∃ c ∈ ring, c.hemisphere ≠ 0 := by
  obtain ⟨e, inEdges, crossing⟩ := List.any_eq_true.1 across
  obtain ⟨first, second⟩ := Ring.mem_of_mem_edges inEdges
  exact ⟨e.1, first, (hemispheres_of_crosses crossing (onMap _ first) (onMap _ second)).1⟩

/-- What passes from each index to the one before it, going around, passes to all. -/
theorem preceding_induction {size : Nat} {motive : Nat → Prop}
    (back : ∀ k < size, motive k → motive (preceding size k)) {k j : Nat} (kBelow : k < size)
    (jBelow : j < size) (start : motive k) : motive j := by
  have down : ∀ {n : Nat}, n < size → motive n → ∀ i ≤ n, motive i := by
    intro n nBelow top i iLe
    induction n with
    | zero => rwa [Nat.le_zero.1 iLe]
    | succ n ih =>
      rcases Nat.lt_or_ge i (n + 1) with less | atLeast
      · exact ih (by omega) (back (n + 1) nBelow top) (by omega)
      · rwa [Nat.le_antisymm iLe atLeast]
  have last : motive (size - 1) := back 0 (by omega) (down kBelow start 0 (Nat.zero_le k))
  exact down (by omega) last j (by omega)

namespace Split

section

variable {rings : List Ring} {meridian : Meridian} {ts : List Tour} {t : Tour}

/-- No crossing leads to a vertex on the prime meridian, so the vertex before it is adjacent. -/
theorem Block.adjacent_preceding {first : Nat} {ring : Ring} (block : Block rings first ring)
    {k : Nat} (below : k < ring.length) {c : Coord} (vertex : ring[k]? = some c)
    (zero : c.hemisphere = 0) :
    Adjacent (Arena.ofRings rings) meridian (first + k) (first + preceding ring.length k) := by
  obtain ⟨e, -, here⟩ := block.node below
  obtain ⟨before, edge, place⟩ := block.node (preceding_lt below)
  have ending := (cyclicPairs_getElem? edge).2
  rw [following_preceding below, vertex] at ending
  have stays : leaves (ringSide ring (preceding ring.length k)) before.2 = false := by
    rw [← Option.some.inj ending]
    simp [leaves, zero]
  refine ⟨_, ⟨first + k, false⟩, [], ⟨first + preceding ring.length k, true⟩, here, rfl, rfl, ?_⟩
  have joined := @Joined.against _ meridian (ringSide ring k) _ _ place
    (nodeAt_crossing_none.2 stays)
  rw [nodeAt_next, following_preceding below] at joined
  exact joined

/-- A tour visits a vertex off the prime meridian if its ring has one. -/
theorem exists_visited_off (consistent : Consistent (Arena.ofRings rings) meridian)
    (off : ∀ ring ∈ rings, ∃ c ∈ ring, c.hemisphere ≠ 0)
    (toured : tours (Arena.ofRings rings) meridian = .ok ts) (member : t ∈ ts) :
    ∃ i ∈ t.walk.visited, ∃ node, (Arena.ofRings rings)[i]? = some node ∧
      node.coord.hemisphere ≠ 0 := by
  by_contra none
  push Not at none
  have touring := touring_of_tours toured
  obtain ⟨node, here, -⟩ := touring.follows t member
  obtain ⟨ring, inRings, first, k, e, below, position, -, -, block⟩ := ofRings_node here
  -- the vertices before a visited one are visited too, all around the ring
  have around : ∀ j < ring.length, first + j ∈ t.walk.visited →
      first + preceding ring.length j ∈ t.walk.visited := by
    intro j jBelow visited
    obtain ⟨edge, place, node⟩ := block.node jBelow
    have zero := none _ visited _ node
    exact mem_visited_of_adjacent consistent toured member visited
      (block.adjacent_preceding jBelow (cyclicPairs_getElem? place).1 zero)
  obtain ⟨c, inRing, nonzero⟩ := off ring inRings
  obtain ⟨j, vertex⟩ := List.getElem?_of_mem inRing
  have jBelow := (List.getElem?_eq_some_iff.1 vertex).1
  have start := touring.start_mem_visited t member
  rw [position] at start
  have visited := preceding_induction around below jBelow start
  obtain ⟨edge, place, node⟩ := block.node jBelow
  have zero := none _ visited _ node
  rw [(cyclicPairs_getElem? place).1] at vertex
  rw [Option.some.inj vertex.symm] at nonzero
  exact nonzero zero

/-- A part has a vertex strictly in its hemisphere. -/
theorem exists_exterior_off (consistent : Consistent (Arena.ofRings rings) meridian)
    (off : ∀ ring ∈ rings, ∃ c ∈ ring, c.hemisphere ≠ 0)
    (toured : tours (Arena.ofRings rings) meridian = .ok ts) (member : t ∈ ts) :
    (t.side = 1 ∨ t.side = -1) ∧ ∃ c ∈ t.part.exterior, c.hemisphere = t.side := by
  have touring := touring_of_tours toured
  obtain ⟨i, visited, node, place, nonzero⟩ := exists_visited_off consistent off toured member
  obtain ⟨within, -⟩ := ofRings_coord place
  rw [touring.side_of_visited consistent member visited place] at within
  have inside : node.coord.hemisphere = t.side := within.resolve_left nonzero
  have isSide := node.coord.hemisphere_cases
  refine ⟨by omega, ?_⟩
  have passed : node.coord.spot ∈ t.walk.passed.map Coord.spot :=
    List.mem_map_of_mem (touring.coord_mem_passed member visited place)
  obtain ⟨c, inExterior, equal⟩ := List.mem_map.1 ((mem_spots_withoutRepeats _ _).2 passed)
  exact ⟨c, inExterior, (Coord.hemisphere_eq_of_spot_eq equal).trans inside⟩

end

/-- A part that takes a hole finds its first vertex in its hemisphere or on the prime meridian. -/
theorem Part.liesIn_of_sees {part : Part} {c : Coord} {rest : Ring}
    (taken : part.sees (c :: rest) ≠ .outside) : c.LiesIn part.side := by
  by_contra other
  unfold Coord.LiesIn at other
  push Not at other
  have outside : part.exterior.locate part.side part.box c = .outside := by
    rw [Ring.locate, if_pos (by simp [other])]
  apply taken
  rw [Part.sees, List.map_cons, outside]
  rfl

/-- The holes of a split are whole holes of the polygon, each seen by its part. -/
theorem exists_tour_of_hole {p : Polygon} {ts : List Tour} {q : Polygon}
    (member : q ∈ filledParts p (ts.map Tour.part)) :
    ∃ t ∈ ts, t.part.exterior = q.exterior ∧ ∀ hole ∈ q.holes, hole ∈ p.holes ∧
      hole.crosses = false ∧ t.part.sees hole ≠ .outside := by
  obtain ⟨j, place⟩ := List.getElem?_of_mem member
  have held := place
  rw [filledParts_getElem?, List.getElem?_map, Option.map_map] at place
  obtain ⟨t, found, rfl⟩ := Option.map_eq_some_iff.1 place
  refine ⟨t, List.mem_of_getElem? found, rfl, ?_⟩
  intro hole inside
  obtain ⟨inHoles, whole, taken⟩ := holds_filledParts_iff.1 ⟨_, held, inside⟩
  obtain ⟨below, seen, -⟩ := List.findIdx?_eq_some_iff_getElem.1 taken
  rw [List.getElem_map] at seen
  rw [(List.getElem?_eq_some_iff.1 found).2] at seen
  exact ⟨inHoles, whole, by simpa using seen⟩

/-- The exterior of every part of a split keeps to one hemisphere and has a vertex strictly inside of
it, if no ring that is cut begins on the prime meridian between different hemispheres.  A hole of the
part has a vertex opposite to one of the exterior if it has vertices in both hemispheres itself, and
only then, unless it begins on the prime meridian. -/
theorem split_opposes {p : Polygon} {polygons : List Polygon}
    (onMap : ∀ ring ∈ cutRings p, ∀ c ∈ ring, c.OnMap)
    (aligned : ∀ ring ∈ cutRings p, ¬BeginsAstride ring) (across : p.crosses = true)
    (ok : p.split.result = .ok polygons) :
    ∀ q ∈ polygons, ∃ side, (side = 1 ∨ side = -1) ∧ (∀ c ∈ q.exterior, c.LiesIn side) ∧
      (∃ c ∈ q.exterior, c.hemisphere = side) ∧ ∀ hole ∈ q.holes,
        (hole.Opposes hole → hole.Opposes q.exterior) ∧
        (¬hole.Opposes hole → hole.head?.map Coord.hemisphere ≠ some 0 →
          ¬hole.Opposes q.exterior) := by
  obtain ⟨-, even, ts, toured, -, rfl⟩ := exists_tours_of_split ok
  have balanced : ∀ ring ∈ cutRings p, Balanced ring := by
    intro ring member
    exact (balanced_iff ring).2 (aligned ring member)
  have consistent : Consistent (arenaOf p) (meridianOf p) := ofRings_consistent balanced even
  have off : ∀ ring ∈ cutRings p, ∃ c ∈ ring, c.hemisphere ≠ 0 := by
    intro ring member
    refine Ring.exists_off_of_crosses ?_ (onMap ring member)
    rcases List.mem_cons.1 member with rfl | hole
    · exact across
    · exact (List.mem_filter.1 hole).2
  intro q member
  obtain ⟨t, inTours, exterior, holes⟩ := exists_tour_of_hole member
  obtain ⟨isSide, c, inExterior, inside⟩ := exists_exterior_off consistent off toured inTours
  have within : ∀ c ∈ q.exterior, c.LiesIn t.side := by
    intro c inExterior
    rw [← exterior] at inExterior
    exact ((touring_of_tours toured).exterior_liesIn consistent onMap inTours c inExterior).1
  rw [exterior] at inExterior
  refine ⟨t.side, isSide, within, ⟨c, inExterior, inside⟩, ?_⟩
  intro hole inHoles
  constructor
  · -- of two opposite vertices, one is opposite to the part
    rintro ⟨a, aIn, b, bIn, opposite⟩
    obtain ⟨nonzero, differ⟩ := Coord.opposite_iff.1 opposite
    have sides := a.hemisphere_cases
    by_cases against : a.hemisphere = -t.side
    · exact ⟨a, aIn, c, inExterior, Coord.opposite_iff.2 (by omega)⟩
    · exact ⟨b, bIn, c, inExterior, Coord.opposite_iff.2 (by omega)⟩
  · rintro straight begins ⟨a, aIn, b, bIn, opposite⟩
    obtain ⟨nonzero, differ⟩ := Coord.opposite_iff.1 opposite
    have bWithin := within b bIn
    cases hole with
    | nil => cases aIn
    | cons first rest =>
      have seen : first.LiesIn t.side := Part.liesIn_of_sees (holes _ inHoles).2.2
      have first0 : first.hemisphere ≠ 0 := by simpa using begins
      unfold Coord.LiesIn at bWithin seen
      exact straight ⟨first, List.mem_cons_self, a, aIn, Coord.opposite_iff.2 (by omega)⟩

/-- The split succeeds, and a part of it has a hole with a vertex opposite to one of its exterior. -/
def Disagrees (p : Polygon) : Prop :=
  ∃ polygons, p.split.result = .ok polygons ∧ ∃ q ∈ polygons, ∃ hole ∈ q.holes,
    hole.Opposes q.exterior

theorem exists_ok_of_any {r : Except Fault (List Polygon)} {good : List Polygon → Prop}
    [DecidablePred good] (found : r.toOption.any (fun polygons => decide (good polygons)) = true) :
    ∃ polygons, r = .ok polygons ∧ good polygons := by
  cases r with
  | error fault => cases found
  | ok polygons => exact ⟨polygons, rfl, of_decide_eq_true found⟩

/-- A triangle across the antimeridian with a hole in a corner. -/
def cornered : Polygon := ⟨[⟨0, 3⟩, ⟨0, -3⟩, ⟨1, 3⟩], [[⟨0.125, 3.125⟩, ⟨0.2, 3.125⟩, ⟨0.125, 3⟩]]⟩

/-- A hole with a corner on the prime meridian is put into the part on its own side. -/
theorem split_opposes_cornered : ∃ polygons, cornered.split.result = .ok polygons ∧
    (∃ q ∈ polygons, q.holes ≠ []) ∧
    ∀ q ∈ polygons, ∀ hole ∈ q.holes, ¬hole.Opposes q.exterior := by
  have onMap : ∀ ring ∈ cutRings cornered, ∀ c ∈ ring, c.OnMap := by decide +kernel
  have aligned : ∀ ring ∈ cutRings cornered, ¬BeginsAstride ring := by decide +kernel
  have across : cornered.crosses = true := by decide +kernel
  have straight : ∀ hole ∈ cornered.holes, hole.crosses = false → ¬hole.Opposes hole ∧
      hole.head?.map Coord.hemisphere ≠ some 0 := by decide +kernel
  obtain ⟨polygons, ok, filled⟩ :=
    @exists_ok_of_any cornered.split.result (fun polygons => ∃ q ∈ polygons, q.holes ≠ []) _
      (by decide +kernel)
  refine ⟨polygons, ok, filled, ?_⟩
  intro q member hole inside
  obtain ⟨side, -, -, -, holes⟩ := split_opposes onMap aligned across ok q member
  obtain ⟨-, -, ts, -, -, rfl⟩ := exists_tours_of_split ok
  obtain ⟨t, -, -, whole⟩ := exists_tour_of_hole member
  obtain ⟨inHoles, uncrossed, -⟩ := whole hole inside
  obtain ⟨level, begins⟩ := straight hole inHoles uncrossed
  exact (holes hole inside).2 level begins

/-- A cap around the north pole with a hole across the prime meridian. -/
def cap : Polygon :=
  ⟨[⟨0.5, 1⟩, ⟨0.5, 3⟩, ⟨0.5, -3⟩, ⟨0.5, -1⟩], [[⟨1, -0.5⟩, ⟨1, 0.5⟩, ⟨1.25, 0.5⟩]]⟩

/-- A ring that comes as close to the prime meridian as a double can, and a hole that begins on the
prime meridian and lies in the east. -/
def sliver : Polygon :=
  ⟨[⟨0, Float.ofBits 0x8000000000000002⟩, ⟨0.2, Float.ofBits 0x8000000000000001⟩, ⟨0, -3⟩, ⟨0, 3⟩],
    [[⟨0.125, 0⟩, ⟨0.125, 3⟩, ⟨0, 3⟩]]⟩

/-- The western part of the cap takes a hole that is half in the east, and that of the sliver one
that is all in the east. -/
theorem disagrees_cap_and_sliver :
    (∀ p ∈ [cap, sliver], (∀ ring ∈ p.rings, ∀ c ∈ ring, c.Proper) ∧ p.crosses = true ∧
      ∀ ring ∈ cutRings p, ¬BeginsAstride ring) ∧
    Disagrees cap ∧ Disagrees sliver :=
  ⟨by decide +kernel, exists_ok_of_any (by decide +kernel), exists_ok_of_any (by decide +kernel)⟩

end Split
end Antimeridian
