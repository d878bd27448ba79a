import Antimeridian.Proofs.Region
import Antimeridian.Proofs.Split.Exactness
import Antimeridian.Proofs.Split.Extent
import Antimeridian.Proofs.Split.Reach

/-!
# No vertex is lost

The tours of an arena visit each of its vertices once, and a part has every vertex that its tour
visits: leaving out repeated vertices never leaves out the last copy of one.  All other vertices of
a part are crossings of the edges that were cut.  None of this needs hemispheres that agree, so it
also holds where a walk ends at a vertex that belongs to another part.
-/

namespace Antimeridian.Split

/-! ## Repeated vertices -/

/-- A vertex that is left out equals one that is kept. -/
theorem exists_same_withoutRepeats {ring : Ring} {c : Coord} (member : c ∈ ring)
    (number : c.IsNumber) : ∃ d ∈ withoutRepeats ring, d.same c = true := by
  obtain ⟨d, kept, equal⟩ :=
    List.mem_map.1 ((mem_spots_withoutRepeats ring c.spot).2 (List.mem_map_of_mem member))
  refine ⟨d, kept, ?_⟩
  -- the kept vertex may be `c` itself, which equals itself since it is no NaN
  rcases Coord.alike_of_spot_eq equal with rfl | alike
  · exact number.same_self
  · exact alike

/-! ## Vertices of the arena -/

/-- The arena holds the vertices of its rings in order. -/
theorem ofRings_map_coord (rings : List Ring) :
    (Arena.ofRings rings).map Node.coord = rings.flatten := by
  have edges := congrArg (List.map Prod.fst) (ofRings_edges rings)
  rw [List.map_flatMap, funext Ring.edges_map_fst, List.map_map] at edges
  exact edges.symm.trans List.flatMap_id

theorem exists_node_of_mem {rings : List Ring} {ring : Ring} {c : Coord} (inRings : ring ∈ rings)
    (member : c ∈ ring) : ∃ (i : Nat) (node : Node),
      (Arena.ofRings rings)[i]? = some node ∧ node.coord = c := by
  have inArena : c ∈ (Arena.ofRings rings).map Node.coord := by
    rw [ofRings_map_coord]
    exact List.mem_flatten.2 ⟨ring, inRings, member⟩
  obtain ⟨node, found, coord⟩ := List.mem_map.1 inArena
  obtain ⟨i, place⟩ := List.getElem?_of_mem found
  exact ⟨i, node, place, coord⟩

/-! ## Parts -/

section

variable {arena : Arena} {meridian : Meridian} {left : List Nat} {ts : List Tour} {t : Tour}

theorem Touring.visited_ne_nil (touring : Touring arena meridian left ts) (member : t ∈ ts) :
    t.walk.visited ≠ [] :=
  List.ne_nil_of_mem (touring.start_mem_visited t member)

/-- A part has the vertices that its tour visits. -/
theorem Touring.exists_same_exterior (touring : Touring arena meridian left ts) (member : t ∈ ts)
    {i : Nat} (visited : i ∈ t.walk.visited) {node : Node} (place : arena[i]? = some node)
    (number : node.coord.IsNumber) : ∃ d ∈ t.part.exterior, d.same node.coord = true :=
  exists_same_withoutRepeats (touring.coord_mem_passed member visited place) number

/-- An exterior has no vertex twice in a row. -/
theorem isChain_exterior (t : Tour) : t.part.exterior.IsChain fun a b => a.same b = false := by
  rw [Tour.part, withoutRepeats_eq_destutter]
  exact List.isChain_destutter _ _

end

/-- Nothing but crossings is added by a split and nothing is lost, whether or not the hemispheres of
the rings agree.  Every vertex of the exterior and of the holes that cross is a vertex of some part.
Every vertex of the exterior of a part is one of those, or lies on one of the two meridians at the
latitude where an edge of those rings was found to cross.  The walks around the parts share out the
vertices of these rings, each exactly once.  The exteriors are not empty, and no vertex of them
repeats the one before it. -/
theorem split_conserves {p : Polygon} {polygons : List Polygon}
    (numbers : ∀ ring ∈ cutRings p, ∀ c ∈ ring, c.IsNumber) (ok : p.split.result = .ok polygons) :
    (∀ ring ∈ cutRings p, ∀ c ∈ ring, ∃ q ∈ polygons, ∃ d ∈ q.exterior, d.same c = true) ∧
    (∀ q ∈ polygons, ∀ c ∈ q.exterior, (∃ ring ∈ cutRings p, c ∈ ring) ∨
      ∃ e ∈ crossedEdges (cutRings p), c.lat = cutLatitude e.1 e.2 ∧
        (c.lng = 0 ∨ c.lng = Angle.pi ∨ c.lng = -Angle.pi)) ∧
    (∃ ts, tours (arenaOf p) (meridianOf p) = .ok ts ∧
      polygons.map Polygon.exterior = ts.map (fun t => t.part.exterior) ∧
      (ts.flatMap fun t => t.walk.visited).Perm (List.range (arenaOf p).length) ∧
      ∀ t ∈ ts, t.walk.visited ≠ []) ∧
    ∀ q ∈ polygons, q.exterior ≠ [] ∧ q.exterior.IsChain fun a b => a.same b = false := by
  have nonempty := exterior_ne_nil_of_split ok
  obtain ⟨-, -, ts, toured, -, rfl⟩ := exists_tours_of_split ok
  have touring := touring_of_tours toured
  refine ⟨?_, ?_, ⟨ts, toured, filledParts_map_exterior p ts, touring.visited_perm,
    fun t => touring.visited_ne_nil⟩, ?_⟩
  · -- the part of the tour that stands on the vertex
    intro ring inCut c inRing
    obtain ⟨i, node, place, rfl⟩ := exists_node_of_mem inCut inRing
    obtain ⟨t, inTours, visited⟩ := exists_visitor_of_node toured place
    obtain ⟨q, member, equal⟩ := exists_polygon_of_tour inTours
    refine ⟨q, member, ?_⟩
    rw [equal]
    exact touring.exists_same_exterior inTours visited place (numbers ring inCut _ inRing)
  · intro q member c inExterior
    obtain ⟨t, inTours, equal⟩ := exists_tour_of_mem member
    rw [← equal] at inExterior
    rcases touring.mem_exterior_cases inTours inExterior with vertex | ⟨x, inCrossings, rfl⟩
    · exact Or.inl vertex
    · obtain ⟨e, crossed, lat⟩ := exists_edge_of_crossing inCrossings
      exact Or.inr ⟨e, crossed, lat, x.point_lng_cases t.side⟩
  · intro q member
    refine ⟨nonempty q member, ?_⟩
    obtain ⟨t, inTours, equal⟩ := exists_tour_of_mem member
    rw [← equal]
    exact isChain_exterior t

/-- A collar around the globe is not balanced, and yet no vertex of it is lost. -/
theorem split_conserves_collar : (¬∀ ring ∈ cutRings Region.collar, Balanced ring) ∧
    ∃ polygons, Region.collar.split.result = .ok polygons ∧
      (∀ ring ∈ cutRings Region.collar, ∀ c ∈ ring, ∃ q ∈ polygons, ∃ d ∈ q.exterior,
        d.same c = true) ∧
      ∀ q ∈ polygons, q.exterior ≠ [] ∧ q.exterior.IsChain fun a b => a.same b = false := by
  have unbalanced : ¬∀ ring ∈ cutRings Region.collar, Balanced ring := by decide +kernel
  have numbers : ∀ ring ∈ cutRings Region.collar, ∀ c ∈ ring, c.IsNumber := by decide +kernel
  have succeeds : Region.collar.split.result.isOk = true := by decide +kernel
  obtain ⟨polygons, ok⟩ := exists_of_isOk succeeds
  obtain ⟨kept, -, -, chains⟩ := split_conserves numbers ok
  exact ⟨unbalanced, polygons, ok, kept, chains⟩

end Antimeridian.Split
