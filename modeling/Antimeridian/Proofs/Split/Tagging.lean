import Antimeridian.Proofs.Split.Parity

/-!
# The hemispheres of the nodes of a ring

Every vertex off the prime meridian is tagged with its own hemisphere, and a vertex on the meridian
with the tag of the vertex before it.  A crossing stands on each edge whose ends have different
tags.  Only the edge back to the first vertex is treated in another way: it looks at the first
vertex and not at its tag, and so it has no crossing if the first vertex lies on the meridian.
-/

namespace Antimeridian.Split

/-! ## One vertex -/

theorem exists_edge_of_ringNodes {first k : Nat} {ring : Ring} {node : Node}
    (found : (ringNodes first ring)[k]? = some node) : ∃ e, ring.edges[k]? = some e ∧
      node = nodeAt first ring.length (first + k) (ringSide ring k) e := by
  have below : k < ring.edges.length := by
    rw [Ring.edges, cyclicPairs_length, ← ringNodes_length first]
    exact (List.getElem?_eq_some_iff.1 found).1
  have edge := List.getElem?_eq_getElem below
  exact ⟨_, edge, Option.some.inj (found.symm.trans (ringNodes_getElem? edge))⟩

theorem ringNodes_map_coord (first : Nat) (ring : Ring) :
    (ringNodes first ring).map Node.coord = ring := by
  apply List.ext_getElem?
  intro k
  rw [List.getElem?_map]
  cases found : (ringNodes first ring)[k]? with
  | none =>
    rw [List.getElem?_eq_none_iff, ringNodes_length] at found
    exact (List.getElem?_eq_none found).symm
  | some node =>
    obtain ⟨e, edge, rfl⟩ := exists_edge_of_ringNodes found
    exact (cyclicPairs_getElem? edge).1.symm

/-- An edge leaves a hemisphere exactly if another one holds after it. -/
theorem leaves_iff_advance_ne {side : Int} {e : Coord × Coord} :
    leaves side e.2 = true ↔ side ≠ Split.advance side e := by
  unfold Split.advance
  split
  · rename_i leave
    exact iff_of_true leave (leaves_iff.1 leave).2.2.symm
  · rename_i stay
    exact iff_of_false stay fun differ => differ rfl

/-- A vertex on the prime meridian keeps the hemisphere of the ring so far. -/
theorem ringSide_succ_of_zero {ring : Ring} {k : Nat} {e : Coord × Coord}
    (edge : ring.edges[k]? = some e) (zero : e.2.hemisphere = 0) :
    ringSide ring (k + 1) = ringSide ring k := by
  rw [ringSide_succ edge, Split.advance, if_neg]
  rw [leaves_iff]
  exact fun leave => leave.2.1 zero

/-- The end of an edge that is not the last one. -/
theorem edge_snd_of_ringNodes {first k : Nat} {ring : Ring} {e : Coord × Coord} {after : Node}
    (edge : ring.edges[k]? = some e) (next : (ringNodes first ring)[k + 1]? = some after) :
    after.coord = e.2 := by
  obtain ⟨e', edge', rfl⟩ := exists_edge_of_ringNodes next
  have here := (cyclicPairs_getElem? edge').1
  have there := (cyclicPairs_getElem? edge).2
  have below : k + 1 < ring.length := (List.getElem?_eq_some_iff.1 here).1
  rw [following, if_neg (by omega), here] at there
  exact Option.some.inj there

/-- The leading vertices on the prime meridian take the first hemisphere of the ring. -/
theorem ringSide_of_leading {ring : Ring} {k : Nat} (below : k < ring.length)
    (zeros : ∀ c ∈ ring.take (k + 1), c.hemisphere = 0) : ringSide ring k = leadingSide ring := by
  induction k with
  | zero => rfl
  | succ k ih =>
    have inEdges : k < ring.edges.length := by rw [Ring.edges, cyclicPairs_length]; omega
    have edge := List.getElem?_eq_getElem inEdges
    have ending := (cyclicPairs_getElem? edge).2
    rw [following, if_neg (by omega)] at ending
    have taken : ring.edges[k].2 ∈ ring.take (k + 2) := by
      apply List.mem_of_getElem?
      rw [List.getElem?_take_of_lt (Nat.lt_succ_self (k + 1))]
      exact ending
    rw [ringSide_succ_of_zero edge (zeros _ taken)]
    refine ih (by omega) fun c member => zeros c ?_
    exact (List.take_prefix_take_left (by omega)).subset member

/-- A ring with a vertex off the prime meridian has a hemisphere all along. -/
theorem ringSide_ne_zero {ring : Ring} {c : Coord} (member : c ∈ ring) (off : c.hemisphere ≠ 0)
    (k : Nat) : ringSide ring k ≠ 0 := by
  intro zero
  exact off (hemisphere_eq_zero_of_leadingSide (eq_zero_of_sideAfter_eq_zero zero) c member)

/-! ## The whole ring -/

/-- How the nodes of a ring get their hemispheres and crossings. -/
structure RingTags (ring : Ring) (nodes : List Node) : Prop where
  coords : nodes.map Node.coord = ring
  /-- A vertex off the prime meridian has its own hemisphere. -/
  own : ∀ {k : Nat} {node : Node}, nodes[k]? = some node → node.coord.hemisphere ≠ 0 →
    node.side = node.coord.hemisphere
  /-- The vertices before the first one off the meridian have the hemisphere of that one. -/
  leading : ∀ {k : Nat} {node : Node}, nodes[k]? = some node →
    (∀ c ∈ ring.take (k + 1), c.hemisphere = 0) → node.side = (offSides ring).head?.getD 0
  /-- A later vertex on the meridian has the hemisphere of the vertex before it. -/
  carried : ∀ {k : Nat} {before node : Node}, nodes[k]? = some before → nodes[k + 1]? = some node →
    node.coord.hemisphere = 0 → node.side = before.side
  /-- An edge to the next vertex has a crossing exactly if it changes the hemisphere. -/
  crossed : ∀ {k : Nat} {node after : Node}, nodes[k]? = some node → nodes[k + 1]? = some after →
    (node.crossing.isSome = true ↔ node.side ≠ after.side)
  /-- The edge back to the first vertex has one exactly if that vertex itself lies in another
  hemisphere. -/
  wrapped : ∀ {start : Coord} {last : Node}, ring.head? = some start → nodes.getLast? = some last →
    (last.crossing.isSome = true ↔ start.hemisphere ≠ 0 ∧ start.hemisphere ≠ last.side)

theorem crossing_isSome_nodeAt {first size index : Nat} {side : Int} {e : Coord × Coord} :
    (nodeAt first size index side e).crossing.isSome = true ↔ leaves side e.2 = true := by
  rw [Option.isSome_iff_ne_none, Ne, nodeAt_crossing_none, Bool.not_eq_false]

theorem ringTags_ringNodes (first : Nat) (ring : Ring) : RingTags ring (ringNodes first ring) where
  coords := ringNodes_map_coord first ring
  own := by
    intro k node found off
    obtain ⟨e, edge, rfl⟩ := exists_edge_of_ringNodes found
    exact ((liesIn_ringSide (cyclicPairs_getElem? edge).1).resolve_left off).symm
  leading := by
    intro k node found zeros
    have below := (List.getElem?_eq_some_iff.1 found).1
    obtain ⟨e, -, rfl⟩ := exists_edge_of_ringNodes found
    rw [ringNodes_length] at below
    exact (ringSide_of_leading below zeros).trans (leadingSide_eq ring)
  carried := by
    intro k before node found next zero
    obtain ⟨e, edge, rfl⟩ := exists_edge_of_ringNodes found
    rw [edge_snd_of_ringNodes edge next] at zero
    obtain ⟨e', -, rfl⟩ := exists_edge_of_ringNodes next
    exact ringSide_succ_of_zero edge zero
  crossed := by
    intro k node after found next
    obtain ⟨e, edge, rfl⟩ := exists_edge_of_ringNodes found
    obtain ⟨e', -, rfl⟩ := exists_edge_of_ringNodes next
    rw [crossing_isSome_nodeAt, leaves_iff_advance_ne, ← ringSide_succ edge]
    rfl
  wrapped := by
    intro start last head found
    rw [List.getLast?_eq_getElem?, ringNodes_length] at found
    obtain ⟨e, edge, rfl⟩ := exists_edge_of_ringNodes found
    have member : start ∈ ring := List.mem_of_head? head
    have around : e.2 = start := by
      have ending := (cyclicPairs_getElem? edge).2
      have positive := List.length_pos_of_mem member
      rw [following, if_pos (by omega), ← List.head?_eq_getElem?, head] at ending
      exact (Option.some.inj ending).symm
    rw [crossing_isSome_nodeAt, leaves_iff, around]
    exact ⟨fun leave => leave.2, fun turn => ⟨ringSide_ne_zero member turn.1 _, turn⟩⟩

-- both vertices on the prime meridian are tagged with the east, and the last edge has no crossing
example : (ringNodes 0 [⟨0, 0⟩, ⟨0, 3⟩, ⟨0, 0⟩, ⟨0, -3⟩]).map
    (fun n => (n.side, n.crossing.isSome)) =
    [(1, false), (1, false), (1, true), (-1, false)] := by decide +kernel

/-! ## Parity -/

/-- The hemispheres of two vertices off the prime meridian differ exactly if they are opposite. -/
theorem beginsAstride_iff {ring : Ring} : BeginsAstride ring ↔
    ring.head?.map Coord.hemisphere = some 0 ∧ ∃ side, (offSides ring).head? = some side ∧
      (offSides ring).getLast? = some (-side) := by
  have isSide : ∀ side ∈ offSides ring, side = 1 ∨ side = -1 := by
    intro side member
    obtain ⟨inRing, off⟩ := List.mem_filter.1 member
    obtain ⟨c, -, rfl⟩ := List.mem_map.1 inRing
    have nonzero : c.hemisphere ≠ 0 := by simpa using off
    have cases := c.hemisphere_cases
    omega
  refine and_congr_right fun _ => ?_
  constructor
  · intro differ
    cases sides : offSides ring with
    | nil => exact absurd (by rw [sides]; rfl) differ
    | cons side rest =>
      have last := List.getLast?_eq_some_getLast (List.cons_ne_nil side rest)
      rw [sides, List.head?_cons, last] at differ
      have firstSide := isSide side (by rw [sides]; exact List.mem_cons_self)
      have lastSide := isSide _ (by rw [sides]; exact List.getLast_mem (List.cons_ne_nil side rest))
      refine ⟨side, rfl, last.trans (congrArg some ?_)⟩
      have other : side ≠ (side :: rest).getLast (List.cons_ne_nil side rest) :=
        fun equal => differ (congrArg some equal)
      omega
  · rintro ⟨side, head, last⟩ equal
    rw [head, last] at equal
    have nonzero := isSide side (List.mem_of_head? head)
    have opposite := Option.some.inj equal
    omega

/-- The number of crossings of a ring is odd exactly if it begins on the prime meridian between
different hemispheres. -/
theorem odd_crossings_ringNodes_iff (first : Nat) (ring : Ring) :
    Odd (Arena.crossings (ringNodes first ring)).length ↔ BeginsAstride ring := by
  have alone : layOut first [ring] = ringNodes first ring := List.append_nil _
  rw [← alone, odd_layOut_iff, List.countP_singleton]
  by_cases astride : BeginsAstride ring <;> simp [astride]

/-- The nodes of a ring have the hemispheres of its vertices, carried over along the prime
meridian, and crossings where the hemisphere changes.  The number of crossings is odd exactly if the
ring begins on the prime meridian and its first and its last vertex off it lie in opposite
hemispheres. -/
theorem ringNodes_tags_parity (first : Nat) (ring : Ring) :
    RingTags ring (ringNodes first ring) ∧
    (Odd (Arena.crossings (ringNodes first ring)).length ↔
      ring.head?.map Coord.hemisphere = some 0 ∧ ∃ side, (offSides ring).head? = some side ∧
        (offSides ring).getLast? = some (-side)) :=
  ⟨ringTags_ringNodes first ring,
    (odd_crossings_ringNodes_iff first ring).trans beginsAstride_iff⟩

end Antimeridian.Split
