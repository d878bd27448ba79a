import Antimeridian.Proofs.Split.Hemisphere

/-!
# Parts on both sides

A tour stands only on vertices of its own hemisphere.  So the exterior of its part keeps to that
hemisphere, and vertices in different hemispheres belong to different tours.  A polygon whose
exterior crosses the antimeridian has vertices on both sides, and at least two parts.
-/

namespace Antimeridian.Split

section

variable {arena : Arena} {meridian : Meridian} {left : List Nat} {ts : List Tour}

/-- A tour visits vertices of its own hemisphere only. -/
theorem Touring.side_of_visited (touring : Touring arena meridian left ts)
    (consistent : Consistent arena meridian) {t : Tour} (member : t ∈ ts) {i : Nat}
    (visited : i ∈ t.walk.visited) {node : Node} (place : arena[i]? = some node) :
    node.side = t.side := by
  obtain ⟨start, here, side, left, path, follows⟩ := touring.follows t member
  obtain ⟨sidewise, -⟩ := follows.chain.sidewise consistent here side.symm
  rw [follows.visited] at visited
  obtain ⟨x, inPath, rfl⟩ := List.mem_map.1 visited
  obtain ⟨node', via, place', inSide, -⟩ := sidewise x inPath
  obtain rfl := Option.some.inj (place.symm.trans place')
  exact inSide

/-- Vertices in different hemispheres take different tours. -/
theorem two_le_tours (consistent : Consistent arena meridian)
    (toured : tours arena meridian = .ok ts) {i j : Nat} {node other : Node}
    (place : arena[i]? = some node) (place' : arena[j]? = some other)
    (differ : node.side ≠ other.side) : 2 ≤ ts.length := by
  have touring := touring_of_tours toured
  obtain ⟨t, member, visited⟩ := exists_visitor_of_node toured place
  obtain ⟨t', member', visited'⟩ := exists_visitor_of_node toured place'
  have first := touring.side_of_visited consistent member visited place
  have second := touring.side_of_visited consistent member' visited' place'
  match ts with
  | [] => cases member
  | [only] =>
    rw [List.mem_singleton.1 member] at first
    rw [List.mem_singleton.1 member'] at second
    exact absurd (first.trans second.symm) differ
  | _ :: _ :: _ => simp

theorem mem_of_partner {c d : Crossing} (found : meridian.partner c = .ok d) : d ∈ meridian := by
  unfold Meridian.partner at found
  cases place : meridian.partner? c with
  | none => rw [place] at found; cases found
  | some e =>
    rw [place] at found
    obtain rfl := Except.ok.inj found
    exact List.mem_of_getElem? place

/-- A step passes the vertex that it leaves and, along a seam, the two crossings at its ends. -/
theorem step_cases {side : Int} {h : Heading} {s : Step} (ok : step arena meridian side h = .ok s) :
    ∃ node, arena[h.index]? = some node ∧ (s.passed = [node.coord] ∨
      ∃ c d, c ∈ arena.crossings ∧ d ∈ meridian ∧
        s.passed = [node.coord, c.point side, d.point side]) := by
  unfold step at ok
  obtain ⟨node, here, later⟩ := bind_eq_ok.1 ok
  obtain ⟨owner, place, ahead⟩ := bind_eq_ok.1 later
  refine ⟨node, node_eq_ok.1 here, ?_⟩
  cases crossing : owner.crossing with
  | none =>
    rw [crossing] at ahead
    obtain rfl := Except.ok.inj ahead
    exact Or.inl rfl
  | some c =>
    rw [crossing] at ahead
    obtain ⟨d, found, onward⟩ := bind_eq_ok.1 ahead
    obtain ⟨target, -, result⟩ := bind_eq_ok.1 onward
    obtain rfl := Except.ok.inj result
    exact Or.inr ⟨c, d, mem_crossings (node_eq_ok.1 place) crossing, mem_of_partner found, rfl⟩

/-- Every step passes the vertex it leaves first. -/
theorem step_passed {side : Int} {h : Heading} {s : Step} (ok : step arena meridian side h = .ok s) :
    ∃ node via, arena[h.index]? = some node ∧ s.passed = node.coord :: via := by
  obtain ⟨node, here, passed | ⟨c, d, -, -, passed⟩⟩ := step_cases ok
  · exact ⟨node, [], here, passed⟩
  · exact ⟨node, _, here, passed⟩

theorem Path.step_eq {side : Int} {h stop : Heading} {path : List (Heading × Step)}
    (chain : Path arena meridian side h path stop) :
    ∀ x ∈ path, step arena meridian side x.1 = .ok x.2 := by
  induction chain with
  | nil => simp
  | cons stepped rest ih =>
    intro x member
    rcases List.mem_cons.1 member with rfl | later
    · exact stepped
    · exact ih x later

/-- A tour passes the vertices that it visits. -/
theorem Touring.coord_mem_passed (touring : Touring arena meridian left ts) {t : Tour}
    (member : t ∈ ts) {i : Nat} (visited : i ∈ t.walk.visited) {node : Node}
    (place : arena[i]? = some node) : node.coord ∈ t.walk.passed := by
  obtain ⟨-, -, -, left, path, follows⟩ := touring.follows t member
  rw [follows.visited] at visited
  obtain ⟨x, inPath, rfl⟩ := List.mem_map.1 visited
  obtain ⟨node', via, here, passed⟩ := step_passed (follows.chain.step_eq x inPath)
  obtain rfl := Option.some.inj (place.symm.trans here)
  rw [follows.passed, List.mem_flatMap]
  exact ⟨x, inPath, by rw [passed]; exact List.mem_cons_self⟩

/-- A walk from an unused vertex passes something. -/
theorem Follows.passed_ne_nil {side : Int} {h : Heading} {w : Walk} {path : List (Heading × Step)}
    (follows : Follows arena meridian side left h w path) (member : h.index ∈ left) :
    w.passed ≠ [] := by
  have moved := follows.ne_nil member
  have chain := follows.chain
  rw [follows.passed]
  cases chain with
  | nil => exact absurd rfl moved
  | cons stepped rest =>
    obtain ⟨node, via, -, passed⟩ := step_passed stepped
    simp [passed]

/-- No part has an empty exterior. -/
theorem Touring.exterior_ne_nil (touring : Touring arena meridian left ts) :
    ∀ t ∈ ts, t.part.exterior ≠ [] := by
  induction touring with
  | done => simp
  | tour toured rest ih =>
    obtain ⟨rfl, node, -, -, path, follows⟩ := exists_follows_tour toured
    intro t member
    rcases List.mem_cons.1 member with rfl | later
    · have passed := follows.passed_ne_nil List.mem_cons_self
      obtain ⟨c, others, order⟩ := List.exists_cons_of_ne_nil passed
      simp [Tour.part, order, withoutRepeats]
    · exact ih t later

end

section

variable {rings : List Ring} {meridian : Meridian} {left : List Nat} {ts : List Tour}

/-- The exterior of a part keeps to the hemisphere of its tour. -/
theorem Touring.exterior_liesIn (touring : Touring (Arena.ofRings rings) meridian left ts)
    (consistent : Consistent (Arena.ofRings rings) meridian)
    (onMap : ∀ ring ∈ rings, ∀ c ∈ ring, c.OnMap) {t : Tour} (member : t ∈ ts) :
    ∀ c ∈ t.part.exterior, c.LiesIn t.side ∧ c.OnMap := by
  obtain ⟨node, here, side, left, path, follows⟩ := touring.follows t member
  intro c inExterior
  exact follows.passed_liesIn consistent onMap here side.symm c
    ((withoutRepeats_sublist _).subset inExterior)

/-- The first ring stands at the beginning of the arena. -/
theorem exists_node_of_lt {ring : Ring} (rest : List Ring) {k : Nat} (below : k < ring.length) :
    ∃ node : Node, (Arena.ofRings (ring :: rest))[k]? = some node ∧
      node.side = ringSide ring k := by
  have inside : k < ring.edges.length := by rwa [Ring.edges, cyclicPairs_length]
  have place : (ringNodes 0 ring)[k]? =
      some (nodeAt 0 ring.length (0 + k) (ringSide ring k) ring.edges[k]) :=
    ringNodes_getElem? (List.getElem?_eq_getElem inside)
  rw [← List.getElem?_append_left (by rwa [ringNodes_length])] at place
  exact ⟨_, place, rfl⟩

/-- A first ring that crosses the antimeridian has vertices in both hemispheres. -/
theorem exists_sides_of_crosses {ring : Ring} (rest : List Ring) (across : ring.crosses = true)
    (onMap : ∀ c ∈ ring, c.OnMap) : ∃ (i j : Nat) (node other : Node),
      (Arena.ofRings (ring :: rest))[i]? = some node ∧
      (Arena.ofRings (ring :: rest))[j]? = some other ∧ node.side ≠ other.side := by
  obtain ⟨e, inEdges, crossing⟩ := List.any_eq_true.1 across
  obtain ⟨k, edge⟩ := List.getElem?_of_mem inEdges
  obtain ⟨here, after⟩ := cyclicPairs_getElem? edge
  have below : k < ring.length := (List.getElem?_eq_some_iff.1 here).1
  obtain ⟨off, off', differ⟩ := hemispheres_of_crosses crossing
    (onMap _ (List.mem_of_getElem? here)) (onMap _ (List.mem_of_getElem? after))
  obtain ⟨first, place, side⟩ := exists_node_of_lt rest below
  obtain ⟨second, place', side'⟩ := exists_node_of_lt rest (following_lt below)
  refine ⟨k, _, first, second, place, place', ?_⟩
  rw [side, side', ← (liesIn_ringSide here).resolve_left off,
    ← (liesIn_ringSide after).resolve_left off']
  exact differ

end

section

variable {p : Polygon} {polygons : List Polygon}

theorem filledParts_map_exterior [Trig] (p : Polygon) (ts : List Tour) :
    (filledParts p (ts.map Tour.part)).map Polygon.exterior = ts.map fun t => t.part.exterior := by
  rw [filledParts_exterior, List.map_map]
  rfl

/-- Every part has a tour around it. -/
theorem exists_tour_of_mem [Trig] {ts : List Tour} {q : Polygon}
    (member : q ∈ filledParts p (ts.map Tour.part)) : ∃ t ∈ ts, t.part.exterior = q.exterior := by
  have exterior := List.mem_map_of_mem (f := Polygon.exterior) member
  rw [filledParts_map_exterior] at exterior
  exact List.mem_map.1 exterior

theorem exists_polygon_of_tour [Trig] {ts : List Tour} {t : Tour} (member : t ∈ ts) :
    ∃ q ∈ filledParts p (ts.map Tour.part), q.exterior = t.part.exterior := by
  have exterior := List.mem_map_of_mem (f := fun t => t.part.exterior) member
  rw [← filledParts_map_exterior p] at exterior
  exact List.mem_map.1 exterior

/-- No part has an empty exterior. -/
theorem exterior_ne_nil_of_split (ok : p.split.result = .ok polygons) :
    ∀ q ∈ polygons, q.exterior ≠ [] := by
  obtain ⟨-, -, ts, toured, -, rfl⟩ := exists_tours_of_split ok
  intro q member
  obtain ⟨t, inTours, equal⟩ := exists_tour_of_mem member
  rw [← equal]
  exact (touring_of_tours toured).exterior_ne_nil t inTours

/-- The parts of a polygon without holes have none. -/
theorem holes_eq_nil_of_split (simple : p.holes = []) (ok : p.split.result = .ok polygons) :
    ∀ q ∈ polygons, q.holes = [] := by
  obtain ⟨-, -, ts, -, -, rfl⟩ := exists_tours_of_split ok
  intro q member
  obtain ⟨j, place⟩ := List.getElem?_of_mem member
  rw [filledParts_getElem?] at place
  obtain ⟨part, -, rfl⟩ := Option.map_eq_some_iff.1 place
  simp [simple]

/-- A polygon without holes can only be split if its exterior is balanced. -/
theorem balanced_of_split (simple : p.holes = []) (ok : p.split.result = .ok polygons) :
    ∀ ring ∈ cutRings p, Balanced ring := by
  obtain ⟨-, even, -⟩ := exists_tours_of_split ok
  have alone : cutRings p = [p.exterior] := by simp [cutRings, simple]
  rw [arenaOf, alone] at even
  rw [alone]
  intro ring member
  rw [List.mem_singleton.1 member]
  exact even

/-- No exterior of a split crosses the antimeridian, if the rings that are cut are balanced. -/
theorem not_crosses_of_split (onMap : ∀ ring ∈ cutRings p, ∀ c ∈ ring, c.OnMap)
    (balanced : ∀ ring ∈ cutRings p, Balanced ring) (ok : p.split.result = .ok polygons) :
    ∀ q ∈ polygons, q.crosses = false := by
  obtain ⟨-, even, ts, toured, -, rfl⟩ := exists_tours_of_split ok
  have consistent : Consistent (arenaOf p) (meridianOf p) := ofRings_consistent balanced even
  intro q member
  obtain ⟨t, inTours, equal⟩ := exists_tour_of_mem member
  rw [Polygon.crosses, ← equal]
  exact Ring.crosses_eq_false_of_liesIn
    ((touring_of_tours toured).exterior_liesIn consistent onMap inTours)

/-- A polygon that crosses the antimeridian has at least two parts. -/
theorem two_le_parts (onMap : ∀ c ∈ p.exterior, c.OnMap)
    (balanced : ∀ ring ∈ cutRings p, Balanced ring) (across : p.crosses = true)
    (ok : p.split.result = .ok polygons) : 2 ≤ polygons.length := by
  obtain ⟨-, even, ts, toured, -, rfl⟩ := exists_tours_of_split ok
  obtain ⟨i, j, node, other, place, place', differ⟩ :=
    exists_sides_of_crosses (p.holes.filter Ring.crosses) across onMap
  have consistent : Consistent (arenaOf p) (meridianOf p) := ofRings_consistent balanced even
  have several := two_le_tours consistent toured place place' differ
  simpa [filledParts] using several

end

end Antimeridian.Split
