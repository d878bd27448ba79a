import Antimeridian.Proofs.Split.Cycle
import Antimeridian.Proofs.Split.Outcome

/-!
# Parts keep to one hemisphere

A walk in a consistent arena stands on vertices of its own hemisphere only, and the points that it
passes on a seam are on the edge of that hemisphere.  So no part of a split crosses the antimeridian.
-/

namespace Antimeridian.Split

/-- A point on a seam is on the edge of the hemisphere it was put there for. -/
theorem Crossing.point_liesIn (c : Crossing) {side : Int} (isSide : side = 1 ∨ side = -1) :
    (c.point side).LiesIn side ∧ (c.point side).OnMap := by
  have prime : Double.sign 0 = 0 ∧ -Angle.pi ≤ 0 ∧ 0 ≤ Angle.pi := by decide +kernel
  have east : Double.sign Angle.pi = 1 ∧ -Angle.pi ≤ Angle.pi ∧ Angle.pi ≤ Angle.pi := by
    decide +kernel
  have west : Double.sign (-Angle.pi) = -1 ∧ -Angle.pi ≤ -Angle.pi ∧ -Angle.pi ≤ Angle.pi := by
    decide +kernel
  unfold Coord.LiesIn Coord.hemisphere Coord.OnMap Crossing.point
  cases c.prime with
  | true => exact ⟨Or.inl prime.1, prime.2⟩
  | false =>
    rcases isSide with rfl | rfl
    · exact ⟨Or.inr east.1, east.2⟩
    · exact ⟨Or.inr west.1, west.2⟩

theorem cons_withoutRepeatsAfter (last : Coord) (ring : Ring) :
    last :: withoutRepeatsAfter last ring = ring.destutter' (fun a b => a.same b = false) last := by
  induction ring generalizing last with
  | nil => rfl
  | cons a rest ih =>
    rw [withoutRepeatsAfter]
    split
    · rename_i equal
      rw [List.destutter'_cons_neg _ (by simp [equal]), ih last]
    · rename_i differ
      rw [List.destutter'_cons_pos _ (by simpa using differ), ih a]

/-- Removing repeats keeps each vertex that differs from the last one kept. -/
theorem withoutRepeats_eq_destutter (ring : Ring) :
    withoutRepeats ring = ring.destutter fun a b => a.same b = false := by
  cases ring with
  | nil => rfl
  | cons a rest => exact cons_withoutRepeatsAfter a rest

/-- Removing repeats keeps the order and adds nothing. -/
theorem withoutRepeats_sublist (ring : Ring) : (withoutRepeats ring).Sublist ring := by
  rw [withoutRepeats_eq_destutter]
  exact List.destutter_sublist _ ring

section

variable {arena : Arena} {meridian : Meridian} {side : Int}

/-- Only a vertex off the prime meridian can be next to a crossing. -/
theorem side_of_wayOut (tagged : Tagged arena) {c : Crossing} {owner node : Node}
    (place : arena[c.vertex]? = some owner) (owned : owner.crossing = some c)
    (here : arena[(wayOut side c owner).index]? = some node) : node.side = 1 ∨ node.side = -1 := by
  obtain ⟨ownerSide, -⟩ := tagged.side place owned
  unfold wayOut wayIn at here
  split at here
  · rw [tagged.turn place here owned]
    omega
  · obtain rfl := Option.some.inj (place.symm.trans here)
    exact ownerSide

/-- The points on the way from a vertex are on the edge of its hemisphere. -/
theorem Joined.via_liesIn (tagged : Tagged arena) {h k : Heading} {via : List Coord} {node : Node}
    (joined : Joined arena meridian side h via k) (here : arena[h.index]? = some node)
    (inSide : node.side = side) : ∀ c ∈ via, c.LiesIn side ∧ c.OnMap := by
  cases joined with
  | along place none => simp
  | against place none => simp
  | @seam c d owner other place owned place' owned' forth back differ =>
    have isSide := side_of_wayOut tagged place owned here
    rw [inSide] at isSide
    simpa using ⟨c.point_liesIn isSide, d.point_liesIn isSide⟩

end

/-- A walk over cut rings passes only points of the hemisphere in which it begins. -/
theorem Follows.passed_liesIn {rings : List Ring} {meridian : Meridian}
    (consistent : Consistent (Arena.ofRings rings) meridian)
    (onMap : ∀ ring ∈ rings, ∀ c ∈ ring, c.OnMap) {side : Int} {left : List Nat} {h : Heading}
    {w : Walk} {path : List (Heading × Step)} {node : Node}
    (follows : Follows (Arena.ofRings rings) meridian side left h w path)
    (here : (Arena.ofRings rings)[h.index]? = some node) (inSide : node.side = side) :
    ∀ c ∈ w.passed, c.LiesIn side ∧ c.OnMap := by
  intro c member
  rw [follows.passed] at member
  obtain ⟨x, inPath, passed⟩ := List.mem_flatMap.1 member
  obtain ⟨sidewise, -⟩ := follows.chain.sidewise consistent here inSide
  obtain ⟨node', via, place, rfl, stepped, joined⟩ := sidewise x inPath
  rw [stepped] at passed
  rcases List.mem_cons.1 passed with rfl | seam
  · obtain ⟨within, -, ring, inRings, inRing⟩ := ofRings_coord place
    exact ⟨within, onMap ring inRings _ inRing⟩
  · exact joined.via_liesIn consistent.tagged place rfl c seam

/-- Every part of a split keeps to one hemisphere and the prime meridian, if every ring that is cut
meets the meridian circle an even number of times.  So neither its exterior nor a hole of it crosses
the antimeridian. -/
theorem split_closure {p : Polygon} {polygons : List Polygon}
    (onMap : ∀ ring ∈ cutRings p, ∀ c ∈ ring, c.OnMap)
    (balanced : ∀ ring ∈ cutRings p, Balanced ring) (ok : p.split.result = .ok polygons) :
    ∀ q ∈ polygons, (∃ side, IsSide side ∧ ∀ c ∈ q.exterior, c.LiesIn side) ∧
      q.exterior.crosses = false ∧ ∀ hole ∈ q.holes, hole.crosses = false := by
  intro q member
  obtain ⟨-, even, ts, toured, -, rfl⟩ := exists_tours_of_split ok
  have consistent := ofRings_consistent balanced even
  obtain ⟨j, place⟩ := List.getElem?_of_mem member
  rw [filledParts_getElem?, List.getElem?_map, Option.map_map] at place
  obtain ⟨t, found, rfl⟩ := Option.map_eq_some_iff.1 place
  obtain ⟨node, here, side, left, path, follows⟩ :=
    (touring_of_tours toured).follows t (List.mem_of_getElem? found)
  have passed := follows.passed_liesIn consistent onMap here side.symm
  have within : ∀ c ∈ t.part.exterior, c.LiesIn t.side ∧ c.OnMap := by
    intro c inExterior
    exact passed c ((withoutRepeats_sublist _).subset inExterior)
  refine ⟨⟨t.side, ?_, fun c inside => (within c inside).1⟩,
    Ring.crosses_eq_false_of_liesIn within, ?_⟩
  · rw [side]
    exact (ofRings_coord here).2.1
  · intro hole inside
    have whole := (List.mem_filter.1 inside).2
    rw [Bool.and_eq_true, Bool.not_eq_true'] at whole
    exact whole.1

/-- A square across the antimeridian with a hole across it. -/
def ribbon : Polygon :=
  ⟨[⟨-1, 3⟩, ⟨-1, -3⟩, ⟨1, -3⟩, ⟨1, 3⟩],
    [[⟨-0.5, 3.125⟩, ⟨-0.5, -3.125⟩, ⟨-0.3, -3.125⟩, ⟨-0.3, 3.125⟩]]⟩

/-- The parts of a ribbon do not cross and stay in a hemisphere each. -/
theorem split_closure_ribbon : ∃ polygons, ribbon.split.result = .ok polygons ∧
    ∀ q ∈ polygons, q.exterior.crosses = false ∧ ∃ side, ∀ c ∈ q.exterior, c.LiesIn side := by
  have succeeds : ribbon.split.result.isOk = true := by decide +kernel
  have onMap : ∀ ring ∈ cutRings ribbon, ∀ c ∈ ring, c.OnMap := by decide +kernel
  have balanced : ∀ ring ∈ cutRings ribbon, Balanced ring := by decide +kernel
  obtain ⟨polygons, ok⟩ := exists_of_isOk succeeds
  refine ⟨polygons, ok, ?_⟩
  intro q member
  obtain ⟨⟨side, -, within⟩, closed, -⟩ := split_closure onMap balanced ok q member
  exact ⟨closed, side, within⟩

end Antimeridian.Split
