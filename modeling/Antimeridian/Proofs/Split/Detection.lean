import Antimeridian.Proofs.Split.Extent
import Antimeridian.Proofs.Split.Tagging

/-!
# Crossings that are detected and crossings that are cut

Whether a ring crosses the antimeridian is decided by the hemispheres of the ends of its edges.
Cutting a ring looks at the tags of its nodes, which are carried over along the prime meridian.  The
two agree on all edges whose ends are not just half a turn apart: an edge that ends on the prime
meridian is never longer than half a turn, and off the meridian tags are hemispheres.
-/

namespace Antimeridian.Split

open Double

/-- How far apart the longitudes of the ends of an edge are. -/
def span (e : Coord × Coord) : Float := (e.1.lng - e.2.lng).abs

/-- The span of an edge on the map is a number, so one that is not below half a turn is at least
half a turn. -/
theorem pi_le_span {e : Coord × Coord} (first : e.1.OnMap) (second : e.2.OnMap)
    (long : ¬span e < Angle.pi) : Angle.pi ≤ span e := by
  have firstFinite : e.1.lng.isFinite = true := Within.isFinite first isFinite_pi
  have secondFinite : e.2.lng.isFinite = true := Within.isFinite second isFinite_pi
  have number : IsNumber (span e) := isNumber_abs (rank_sub firstFinite secondFinite).1
  have half := isNumber_of_isFinite isFinite_pi
  exact le_iff_rank.2 ⟨half, number, not_lt.1 fun less => long (lt_iff_rank.2 ⟨number, half, less⟩)⟩

/-- An edge crosses the antimeridian if it changes hemisphere and spans more than half a turn. -/
theorem crosses_iff_span {e : Coord × Coord} :
    crosses e.1 e.2 = true ↔ e.1.hemisphere ≠ e.2.hemisphere ∧ Angle.pi < span e := by
  simp [crosses, span]

/-- An edge that crosses spans no less than half a turn. -/
theorem not_span_lt_of_crosses {e : Coord × Coord} (across : crosses e.1 e.2 = true) :
    ¬span e < Angle.pi := by
  intro less
  have more := (lt_iff_rank.1 (crosses_iff_span.1 across).2).2.2
  have less := (lt_iff_rank.1 less).2.2
  omega

/-- A crossing is put on the antimeridian unless its edge spans less than half a turn. -/
theorem prime_ofEdge_eq_false_iff {side : Int} {vertex : Nat} {e : Coord × Coord} :
    (Crossing.ofEdge side vertex e.1 e.2).prime = false ↔ ¬span e < Angle.pi := by
  simp [Crossing.ofEdge, span]

/-- The node has a crossing on the antimeridian. -/
def Node.cutsAntimeridian (node : Node) : Bool :=
  (node.crossing.map fun c => !c.prime).getD false

section

variable {first k : Nat} {ring : Ring} {e : Coord × Coord}

/-- An edge across the antimeridian leaves the hemisphere of its node. -/
theorem leaves_of_crosses (onMap : ∀ c ∈ ring, c.OnMap) (edge : ring.edges[k]? = some e)
    (across : crosses e.1 e.2 = true) : leaves (ringSide ring k) e.2 = true := by
  obtain ⟨begins, ends⟩ := Ring.mem_of_mem_edges (List.mem_of_getElem? edge)
  obtain ⟨firstOff, secondOff, differ⟩ :=
    hemispheres_of_crosses across (onMap _ begins) (onMap _ ends)
  have side : e.1.hemisphere = ringSide ring k :=
    (liesIn_ringSide (cyclicPairs_getElem? edge).1).resolve_left firstOff
  rw [leaves_iff, ← side]
  exact ⟨firstOff, secondOff, differ.symm⟩

/-- An edge that leaves the hemisphere of its node changes hemisphere. -/
theorem hemisphere_ne_of_leaves (edge : ring.edges[k]? = some e)
    (leave : leaves (ringSide ring k) e.2 = true) : e.1.hemisphere ≠ e.2.hemisphere := by
  obtain ⟨-, off, differ⟩ := leaves_iff.1 leave
  rcases liesIn_ringSide (cyclicPairs_getElem? edge).1 with zero | side
  · rw [zero]
    exact off.symm
  · rw [side]
    exact differ.symm

/-- The node has a crossing on the antimeridian exactly if its edge leaves its hemisphere and does
not span less than half a turn. -/
theorem cutsAntimeridian_nodeAt {size index : Nat} {side : Int} :
    (nodeAt first size index side e).cutsAntimeridian = true ↔
      leaves side e.2 = true ∧ ¬span e < Angle.pi := by
  rw [Node.cutsAntimeridian, nodeAt]
  by_cases leave : leaves side e.2 = true
  · rw [if_pos leave, ← @prime_ofEdge_eq_false_iff side index]
    simp [leave]
  · simp [leave]

/-- On an edge whose ends are not just half a turn apart, the node has a crossing on the
antimeridian exactly if the edge crosses it. -/
theorem cutsAntimeridian_eq_crosses (onMap : ∀ c ∈ ring, c.OnMap) (edge : ring.edges[k]? = some e)
    (uneven : (span e == Angle.pi) = false) {size index : Nat} :
    (nodeAt first size index (ringSide ring k) e).cutsAntimeridian = crosses e.1 e.2 := by
  obtain ⟨begins, ends⟩ := Ring.mem_of_mem_edges (List.mem_of_getElem? edge)
  rw [Bool.eq_iff_iff, cutsAntimeridian_nodeAt]
  constructor
  · rintro ⟨leave, long⟩
    obtain ⟨half, number, least⟩ := le_iff_rank.1 (pi_le_span (onMap _ begins) (onMap _ ends) long)
    have differ : rank (span e) ≠ rank Angle.pi := fun equal => by
      rw [beq_iff_rank.2 ⟨number, half, equal⟩] at uneven
      cases uneven
    refine crosses_iff_span.2 ⟨hemisphere_ne_of_leaves edge leave, lt_iff_rank.2 ⟨half, number, ?_⟩⟩
    omega
  · intro across
    exact ⟨leaves_of_crosses onMap edge across, not_span_lt_of_crosses across⟩

end

/-- If no edge spans just half a turn, then as many crossings lie on the antimeridian as edges cross
it. -/
theorem countP_crossings_eq {ring : Ring} (first : Nat) (onMap : ∀ c ∈ ring, c.OnMap)
    (uneven : ∀ e ∈ ring.edges, (span e == Angle.pi) = false) :
    (Arena.crossings (ringNodes first ring)).countP (fun c => !c.prime) = ring.crossings := by
  have flags : (ringNodes first ring).map Node.cutsAntimeridian =
      ring.edges.map fun e => crosses e.1 e.2 := by
    apply List.ext_getElem?
    intro k
    rw [List.getElem?_map, List.getElem?_map]
    cases edge : ring.edges[k]? with
    | none =>
      rw [List.getElem?_eq_none_iff, Ring.edges, cyclicPairs_length,
        ← ringNodes_length first] at edge
      rw [List.getElem?_eq_none edge]
      rfl
    | some e =>
      rw [ringNodes_getElem? edge]
      exact congrArg some
        (cutsAntimeridian_eq_crosses onMap edge (uneven e (List.mem_of_getElem? edge)))
  calc (Arena.crossings (ringNodes first ring)).countP (fun c => !c.prime)
      = (ringNodes first ring).countP Node.cutsAntimeridian := List.countP_filterMap
    _ = ((ringNodes first ring).map Node.cutsAntimeridian).countP id := by
      rw [List.countP_map, Function.id_comp]
    _ = ring.crossings := by
      rw [flags, List.countP_map]
      rfl

/-- Detecting and cutting agree on what crosses the antimeridian, for a ring with all its longitudes
within half a turn.  Every edge across the antimeridian gets a crossing there, and every such
crossing lies on an edge that spans at least half a turn.  So if no edge spans just half a turn,
then as many crossings are cut as are detected. -/
theorem detected_iff_cut {ring : Ring} (first : Nat) (onMap : ∀ c ∈ ring, c.OnMap) :
    (∀ (k : Nat) (e : Coord × Coord), ring.edges[k]? = some e → crosses e.1 e.2 = true →
      ∃ (node : Node) (c : Crossing), (ringNodes first ring)[k]? = some node ∧
        node.crossing = some c ∧ c.prime = false) ∧
    (∀ (k : Nat) (node : Node) (c : Crossing), (ringNodes first ring)[k]? = some node →
      node.crossing = some c → c.prime = false →
      ∃ e, ring.edges[k]? = some e ∧ Angle.pi ≤ span e) ∧
    ((∀ e ∈ ring.edges, (span e == Angle.pi) = false) →
      ring.crossings = (Arena.crossings (ringNodes first ring)).countP fun c => !c.prime) := by
  refine ⟨?_, ?_, fun uneven => (countP_crossings_eq first onMap uneven).symm⟩
  · intro k e edge across
    have leave := leaves_of_crosses onMap edge across
    exact ⟨_, _, ringNodes_getElem? edge, nodeAt_crossing.2 ⟨leave, rfl⟩,
      prime_ofEdge_eq_false_iff.2 (not_span_lt_of_crosses across)⟩
  · intro k node c found crossing anti
    obtain ⟨e, edge, rfl⟩ := exists_edge_of_ringNodes found
    obtain ⟨-, rfl⟩ := nodeAt_crossing.1 crossing
    obtain ⟨begins, ends⟩ := Ring.mem_of_mem_edges (List.mem_of_getElem? edge)
    exact ⟨e, edge,
      pi_le_span (onMap _ begins) (onMap _ ends) (prime_ofEdge_eq_false_iff.1 anti)⟩

/-- A ring around a pole that passes both meridians, the prime one at a vertex. -/
def girdle : Ring := [⟨0.5, 1⟩, ⟨0.5, 3⟩, ⟨0.5, -3⟩, ⟨0.5, 0⟩]

/-- A girdle meets the prime meridian and the antimeridian once each. -/
theorem detected_iff_cut_girdle : (∀ c ∈ girdle, c.OnMap) ∧
    (∀ e ∈ girdle.edges, (span e == Angle.pi) = false) ∧
    (Arena.crossings (ringNodes 0 girdle)).length = 2 ∧ girdle.crossings = 1 ∧
    (Arena.crossings (ringNodes 0 girdle)).countP (fun c => !c.prime) = 1 := by
  have onMap : ∀ c ∈ girdle, c.OnMap := by decide +kernel
  have uneven : ∀ e ∈ girdle.edges, (span e == Angle.pi) = false := by decide +kernel
  have detected : girdle.crossings = 1 := by decide +kernel
  exact ⟨onMap, uneven, by decide +kernel, detected,
    ((detected_iff_cut 0 onMap).2.2 uneven).symm.trans detected⟩

end Antimeridian.Split
