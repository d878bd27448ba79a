import Antimeridian.Split.Arena
import Antimeridian.Proofs.Coord

/-!
# The layout of the arena

Every node of an arena belongs to the block of one ring, and inside the block everything is known:
which edge the node stands for, which nodes come before and after it, in which hemisphere it is.
`Linked` says that the nodes are joined in both directions, for any rings.  `Tagged` says that the
hemisphere changes exactly at the crossings, also from the last vertex of a ring to its first; this
needs rings that cross the meridian circle an even number of times.
-/

namespace Antimeridian

/-- The index after `k`, going around. -/
def following (size k : Nat) : Nat := if k + 1 = size then 0 else k + 1

/-- The index before `k`, going around. -/
def preceding (size k : Nat) : Nat := if k = 0 then size - 1 else k - 1

theorem following_lt {size k : Nat} (below : k < size) : following size k < size := by
  unfold following; split <;> omega

theorem preceding_lt {size k : Nat} (below : k < size) : preceding size k < size := by
  unfold preceding; split <;> omega

theorem preceding_following (size k : Nat) : preceding size (following size k) = k := by
  unfold preceding following; split <;> split <;> omega

theorem following_preceding {size k : Nat} (below : k < size) :
    following size (preceding size k) = k := by
  unfold preceding following; split <;> split <;> omega

theorem cyclicPairs_length {α : Type} (l : List α) : (cyclicPairs l).length = l.length := by
  cases l <;> simp [cyclicPairs]

/-- The pair at `k` holds the elements at `k` and after `k`, going around. -/
theorem cyclicPairs_getElem? {α : Type} {l : List α} {k : Nat} {e : α × α}
    (pair : (cyclicPairs l)[k]? = some e) :
    l[k]? = some e.1 ∧ l[following l.length k]? = some e.2 := by
  cases l with
  | nil => cases pair
  | cons first rest =>
    obtain ⟨here, after⟩ := List.getElem?_zip_eq_some.1 pair
    refine ⟨here, ?_⟩
    have bound : k < rest.length + 1 := (List.getElem?_eq_some_iff.1 here).1
    by_cases last : k = rest.length
    · subst last
      simpa [following] using after
    · rw [List.getElem?_append_left (by omega)] at after
      simpa [following, last] using after

namespace Split

/-- The hemisphere after an edge. -/
def advance (side : Int) (e : Coord × Coord) : Int := if leaves side e.2 then e.2.hemisphere else side

/-- The hemisphere after several edges. -/
def sideAfter (side : Int) (es : List (Coord × Coord)) : Int := es.foldl advance side

/-- The hemisphere of the vertex `k` of a ring, and for `k` its length that of the first vertex as
the last edge leaves it. -/
def ringSide (ring : Ring) (k : Nat) : Int := sideAfter (leadingSide ring) (ring.edges.take k)

/-- The edges of rings in order, each with the hemisphere of the vertex it leaves. -/
def sidedEdges (rings : List Ring) : List (Int × Coord × Coord) :=
  rings.flatMap fun ring => ring.edges.mapIdx fun k e => (ringSide ring k, e)

theorem sidedEdges_singleton (ring : Ring) :
    sidedEdges [ring] = ring.edges.mapIdx fun k e => (ringSide ring k, e) :=
  List.flatMap_singleton _ _

theorem sidedEdges_cons (ring : Ring) (rest : List Ring) :
    sidedEdges (ring :: rest) = sidedEdges [ring] ++ sidedEdges rest := by
  rw [sidedEdges_singleton]
  exact List.flatMap_cons

theorem mem_sidedEdges {rings : List Ring} {ring : Ring} (member : ring ∈ rings) {k : Nat}
    {e : Coord × Coord} (edge : ring.edges[k]? = some e) :
    (ringSide ring k, e) ∈ sidedEdges rings := by
  refine List.mem_flatMap.2 ⟨ring, member, List.mem_of_getElem? (i := k) ?_⟩
  rw [List.getElem?_mapIdx, edge]
  rfl

/-- Without the hemispheres these are the edges of the rings. -/
theorem map_snd_sidedEdges (rings : List Ring) :
    (sidedEdges rings).map Prod.snd = rings.flatMap Ring.edges := by
  induction rings with
  | nil => rfl
  | cons ring rest ih =>
    have own : (sidedEdges [ring]).map Prod.snd = ring.edges := by
      apply List.ext_getElem?
      intro k
      rw [sidedEdges_singleton, List.getElem?_map, List.getElem?_mapIdx, Option.map_map]
      exact Option.map_id'
    rw [sidedEdges_cons ring rest, List.map_append, own, ih, List.flatMap_cons]

section

variable [Trig]

/-- The node of the edge `e` that leaves the vertex `index` in the hemisphere `side`. -/
def nodeAt (first size index : Nat) (side : Int) (e : Coord × Coord) : Node where
  coord := e.1
  side := side
  next := if index + 1 = first + size then first else index + 1
  prev := if index = first then first + size - 1 else index - 1
  crossing := if leaves side e.2 then some (.ofEdge side index e.1 e.2) else none

theorem nodesFrom_cons (first size : Nat) (side : Int) (index : Nat) (e : Coord × Coord)
    (rest : List (Coord × Coord)) : nodesFrom first size side index (e :: rest) =
      nodeAt first size index side e :: nodesFrom first size (advance side e) (index + 1) rest := rfl

/-- The node at `k` is that of the edge at `k`, in the hemisphere after the edges before it. -/
theorem nodesFrom_getElem? (first size : Nat) (side : Int) (index : Nat)
    (es : List (Coord × Coord)) (k : Nat) :
    (nodesFrom first size side index es)[k]? =
      es[k]?.map (nodeAt first size (index + k) (sideAfter side (es.take k))) := by
  induction es generalizing side index k with
  | nil => rfl
  | cons e rest ih =>
    cases k with
    | zero => rfl
    | succ k =>
      rw [nodesFrom_cons, List.getElem?_cons_succ, ih, List.getElem?_cons_succ,
        List.take_succ_cons, Nat.add_right_comm]
      rfl

theorem nodesFrom_length (first size : Nat) (side : Int) (index : Nat)
    (es : List (Coord × Coord)) : (nodesFrom first size side index es).length = es.length := by
  induction es generalizing side index with
  | nil => rfl
  | cons e rest ih => rw [nodesFrom_cons, List.length_cons, List.length_cons, ih]

theorem ringNodes_length (first : Nat) (ring : Ring) :
    (ringNodes first ring).length = ring.length :=
  (nodesFrom_length ..).trans (cyclicPairs_length ring)

/-- The node of the vertex `k` of a ring. -/
theorem ringNodes_getElem? {first : Nat} {ring : Ring} {k : Nat} {e : Coord × Coord}
    (edge : ring.edges[k]? = some e) :
    (ringNodes first ring)[k]? =
      some (nodeAt first ring.length (first + k) (ringSide ring k) e) := by
  rw [ringNodes, nodesFrom_getElem?, edge]
  rfl

theorem ringNodes_map_side (first : Nat) (ring : Ring) :
    (ringNodes first ring).map Node.side = (sidedEdges [ring]).map Prod.fst := by
  apply List.ext_getElem?
  intro k
  rw [List.getElem?_map, ringNodes, nodesFrom_getElem?, sidedEdges_singleton, List.getElem?_map,
    List.getElem?_mapIdx, Option.map_map, Option.map_map]
  rfl

/-- The nodes of rings are in the hemispheres that their edges leave. -/
theorem layOut_map_side (offset : Nat) (rings : List Ring) :
    (layOut offset rings).map Node.side = (sidedEdges rings).map Prod.fst := by
  induction rings generalizing offset with
  | nil => rfl
  | cons ring rest ih =>
    rw [layOut, List.map_append, ih, ringNodes_map_side, sidedEdges_cons ring rest, List.map_append]

/-! ## Blocks -/

/-- The nodes and edges of `ring` stand in the arena and among all edges from `first` on. -/
structure Block (rings : List Ring) (first : Nat) (ring : Ring) : Prop where
  nodes : ∀ k < ring.length, (Arena.ofRings rings)[first + k]? = (ringNodes first ring)[k]?
  edges : ∀ k < ring.length, (rings.flatMap Ring.edges)[first + k]? = ring.edges[k]?

/-- Every node is in a run of nodes that belong to one ring. -/
theorem layOut_block {rings : List Ring} {offset i : Nat} {node : Node}
    (found : (layOut offset rings)[i]? = some node) :
    ∃ ring ∈ rings, ∃ start k, k < ring.length ∧ i = start + k ∧ ∀ j < ring.length,
      (layOut offset rings)[start + j]? = (ringNodes (offset + start) ring)[j]? ∧
      (rings.flatMap Ring.edges)[start + j]? = ring.edges[j]? := by
  induction rings generalizing offset i with
  | nil => cases found
  | cons head rest ih =>
    have nodes := ringNodes_length offset head
    have edges : head.edges.length = head.length := cyclicPairs_length head
    rw [layOut] at found ⊢
    rw [List.flatMap_cons]
    by_cases inside : i < head.length
    · refine ⟨head, List.mem_cons_self, 0, i, inside, (Nat.zero_add i).symm, ?_⟩
      intro j below
      rw [Nat.zero_add, Nat.add_zero, List.getElem?_append_left (by omega),
        List.getElem?_append_left (by omega)]
      exact ⟨rfl, rfl⟩
    · rw [List.getElem?_append_right (by omega), nodes] at found
      obtain ⟨ring, member, start, k, below, position, block⟩ := ih found
      refine ⟨ring, List.mem_cons_of_mem _ member, head.length + start, k, below, by omega, ?_⟩
      intro j small
      rw [List.getElem?_append_right (by omega), List.getElem?_append_right (by omega), nodes, edges,
        show head.length + start + j - head.length = start + j by omega, ← Nat.add_assoc]
      exact block j small

theorem Block.node {rings : List Ring} {first : Nat} {ring : Ring} (block : Block rings first ring)
    {k : Nat} (below : k < ring.length) :
    ∃ e, ring.edges[k]? = some e ∧ (Arena.ofRings rings)[first + k]? =
      some (nodeAt first ring.length (first + k) (ringSide ring k) e) := by
  have inEdges : k < ring.edges.length := by rwa [Ring.edges, cyclicPairs_length]
  have edge : ring.edges[k]? = some ring.edges[k] := List.getElem?_eq_getElem inEdges
  exact ⟨_, edge, (block.nodes k below).trans (ringNodes_getElem? edge)⟩

/-- Every node is that of an edge in the block of a ring. -/
theorem ofRings_node {rings : List Ring} {i : Nat} {node : Node}
    (found : (Arena.ofRings rings)[i]? = some node) :
    ∃ ring ∈ rings, ∃ first k e, k < ring.length ∧ i = first + k ∧ ring.edges[k]? = some e ∧
      node = nodeAt first ring.length (first + k) (ringSide ring k) e ∧
      Block rings first ring := by
  obtain ⟨ring, member, first, k, below, position, block⟩ := layOut_block found
  rw [Nat.zero_add] at block
  have whole : Block rings first ring :=
    ⟨fun j small => (block j small).1, fun j small => (block j small).2⟩
  obtain ⟨e, edge, node'⟩ := whole.node below
  rw [← position, found] at node'
  subst position
  exact ⟨ring, member, first, k, e, below, rfl, edge, Option.some.inj node', whole⟩

/-! ## Neighbours -/

theorem nodeAt_next (first size k : Nat) (side : Int) (e : Coord × Coord) :
    (nodeAt first size (first + k) side e).next = first + following size k := by
  unfold following
  simp only [nodeAt]
  split <;> split <;> omega

theorem nodeAt_prev {first size k : Nat} (side : Int) (e : Coord × Coord) (below : k < size) :
    (nodeAt first size (first + k) side e).prev = first + preceding size k := by
  unfold preceding
  simp only [nodeAt]
  split <;> split <;> omega

/-- A node has a crossing if its edge leaves the hemisphere. -/
theorem nodeAt_crossing {first size index : Nat} {side : Int} {e : Coord × Coord} {c : Crossing} :
    (nodeAt first size index side e).crossing = some c ↔
      leaves side e.2 = true ∧ c = .ofEdge side index e.1 e.2 := by
  simp only [nodeAt]
  split
  · rename_i leave
    exact ⟨fun h => ⟨leave, (Option.some.inj h).symm⟩, fun h => by rw [h.2]⟩
  · rename_i stay
    constructor
    · intro h
      cases h
    · intro h
      exact absurd h.1 stay

theorem nodeAt_crossing_none {first size index : Nat} {side : Int} {e : Coord × Coord} :
    (nodeAt first size index side e).crossing = none ↔ leaves side e.2 = false := by
  simp only [nodeAt]
  split <;> simp_all

/-- The nodes are joined in both directions, and a crossing knows its node. -/
structure Linked (arena : Arena) : Prop where
  next : ∀ {i : Nat} {node : Node}, arena[i]? = some node →
    ∃ after, arena[node.next]? = some after ∧ after.prev = i
  prev : ∀ {i : Nat} {node : Node}, arena[i]? = some node →
    ∃ before, arena[node.prev]? = some before ∧ before.next = i
  vertex : ∀ {i : Nat} {node : Node} {c : Crossing}, arena[i]? = some node →
    node.crossing = some c → c.vertex = i

/-- Laying out rings joins their nodes in both directions, for any rings. -/
theorem ofRings_linked (rings : List Ring) : Linked (Arena.ofRings rings) where
  next := by
    intro i node found
    obtain ⟨ring, -, first, k, e, below, rfl, -, rfl, block⟩ := ofRings_node found
    have inside := following_lt below
    obtain ⟨e', -, after⟩ := block.node inside
    rw [nodeAt_next]
    refine ⟨_, after, ?_⟩
    rw [nodeAt_prev _ _ inside, preceding_following]
  prev := by
    intro i node found
    obtain ⟨ring, -, first, k, e, below, rfl, -, rfl, block⟩ := ofRings_node found
    have inside := preceding_lt below
    obtain ⟨e', -, before⟩ := block.node inside
    rw [nodeAt_prev _ _ below]
    refine ⟨_, before, ?_⟩
    rw [nodeAt_next, following_preceding below]
  vertex := by
    intro i node c found crossing
    obtain ⟨ring, -, first, k, e, -, rfl, -, rfl, -⟩ := ofRings_node found
    rw [(nodeAt_crossing.1 crossing).2]
    rfl

end

/-! ## Hemispheres -/

/-- The numbers of the western hemisphere, the prime meridian and the eastern hemisphere. -/
def IsSide (side : Int) : Prop := side = -1 ∨ side = 0 ∨ side = 1

theorem leaves_iff {side : Int} {b : Coord} :
    leaves side b = true ↔ side ≠ 0 ∧ b.hemisphere ≠ 0 ∧ b.hemisphere ≠ side := by
  simp [leaves, and_assoc]

/-- An edge that leaves a hemisphere leads to the opposite one. -/
theorem hemisphere_of_leaves {side : Int} {b : Coord} (isSide : IsSide side)
    (leave : leaves side b = true) : b.hemisphere = -side ∧ side ≠ 0 := by
  obtain ⟨nonzero, off, other⟩ := leaves_iff.1 leave
  rcases isSide with h | h | h <;> rcases b.hemisphere_cases with g | g | g <;> omega

/-- An edge keeps the hemisphere or changes it for the opposite one. -/
theorem advance_cases {side : Int} (isSide : IsSide side) (e : Coord × Coord) :
    advance side e = if leaves side e.2 then -side else side := by
  unfold advance
  split
  · exact (hemisphere_of_leaves isSide ‹_›).1
  · rfl

theorem IsSide.neg {side : Int} (isSide : IsSide side) : IsSide (-side) := by
  unfold IsSide at *; omega

theorem IsSide.advance {side : Int} (isSide : IsSide side) (e : Coord × Coord) :
    IsSide (advance side e) := by
  rw [advance_cases isSide]
  split
  · exact isSide.neg
  · exact isSide

theorem isSide_hemisphere (c : Coord) : IsSide c.hemisphere := c.hemisphere_cases

theorem isSide_leadingSide (ring : Ring) : IsSide (leadingSide ring) := by
  unfold leadingSide
  cases found : (ring.map Coord.hemisphere).find? (· ≠ 0) with
  | none => exact Or.inr (Or.inl rfl)
  | some side =>
    obtain ⟨c, -, rfl⟩ := List.mem_map.1 (List.mem_of_find?_eq_some found)
    exact isSide_hemisphere c

theorem isSide_sideAfter {side : Int} (isSide : IsSide side) (es : List (Coord × Coord)) :
    IsSide (sideAfter side es) := by
  induction es generalizing side with
  | nil => exact isSide
  | cons e rest ih => exact ih (isSide.advance e)

theorem isSide_ringSide (ring : Ring) (k : Nat) : IsSide (ringSide ring k) :=
  isSide_sideAfter (isSide_leadingSide ring) _

/-- Every crossing changes the hemisphere, so an even number of them restores it. -/
theorem sideAfter_eq [Trig] {side : Int} (isSide : IsSide side) (first size index : Nat)
    (es : List (Coord × Coord)) :
    sideAfter side es =
      (-1) ^ (Arena.crossings (nodesFrom first size side index es)).length * side := by
  induction es generalizing side index with
  | nil => simp [sideAfter, nodesFrom, Arena.crossings]
  | cons e rest ih =>
    have step : sideAfter side (e :: rest) = sideAfter (Split.advance side e) rest := rfl
    rw [step, ih (isSide.advance e) (index + 1), nodesFrom_cons]
    cases leave : leaves side e.2 with
    | false =>
      have kept : Split.advance side e = side := by simp [advance_cases isSide, leave]
      simp [Arena.crossings, nodeAt, leave, kept]
    | true =>
      have turned : Split.advance side e = -side := by simp [advance_cases isSide, leave]
      simp [Arena.crossings, nodeAt, leave, turned, pow_succ]

/-- Whether a ring meets the meridian circle an even number of times. -/
def Balanced [Trig] (ring : Ring) : Prop := Even (Arena.ofRings [ring]).crossings.length

instance [Trig] (ring : Ring) : Decidable (Balanced ring) := inferInstanceAs (Decidable (Even _))

theorem ringSide_succ {ring : Ring} {k : Nat} {e : Coord × Coord} (edge : ring.edges[k]? = some e) :
    ringSide ring (k + 1) = Split.advance (ringSide ring k) e := by
  rw [ringSide, sideAfter, List.take_add_one, edge, Option.toList_some, List.foldl_append]
  rfl

/-- A balanced ring comes back into the hemisphere it began in. -/
theorem ringSide_length [Trig] {ring : Ring} (balanced : Balanced ring) :
    ringSide ring ring.length = ringSide ring 0 := by
  have all : ring.edges.take ring.length = ring.edges := by
    rw [List.take_of_length_le (by rw [Ring.edges, cyclicPairs_length])]
  have alone : Arena.ofRings [ring] = ringNodes 0 ring := List.append_nil _
  rw [Balanced, alone] at balanced
  rw [ringSide, all, sideAfter_eq (isSide_leadingSide ring) 0 ring.length 0]
  rw [ringNodes] at balanced
  rw [balanced.neg_one_pow, one_mul]
  rfl

/-- The hemisphere of the next vertex, going around a balanced ring. -/
theorem ringSide_following [Trig] {ring : Ring} (balanced : Balanced ring) {k : Nat}
    {e : Coord × Coord} (edge : ring.edges[k]? = some e) :
    ringSide ring (following ring.length k) = Split.advance (ringSide ring k) e := by
  rw [← ringSide_succ edge, following]
  split
  · rename_i last
    rw [last, ringSide_length balanced]
  · rfl

/-- The hemisphere changes exactly at the crossings, and a crossing knows in which direction. -/
structure Tagged (arena : Arena) : Prop where
  keep : ∀ {i : Nat} {node after : Node}, arena[i]? = some node →
    arena[node.next]? = some after → node.crossing = none → after.side = node.side
  turn : ∀ {i : Nat} {node after : Node} {c : Crossing}, arena[i]? = some node →
    arena[node.next]? = some after → node.crossing = some c → after.side = -node.side
  side : ∀ {i : Nat} {node : Node} {c : Crossing}, arena[i]? = some node →
    node.crossing = some c → (node.side = 1 ∨ node.side = -1) ∧ c.eastward = decide (node.side < 0)

/-- The node after one in a block. -/
theorem Block.after [Trig] {rings : List Ring} {first : Nat} {ring : Ring}
    (block : Block rings first ring) (balanced : Balanced ring) {k : Nat} (below : k < ring.length)
    {e : Coord × Coord} (edge : ring.edges[k]? = some e) {after : Node}
    (next : (Arena.ofRings rings)[
      (nodeAt first ring.length (first + k) (ringSide ring k) e).next]? = some after) :
    after.side = Split.advance (ringSide ring k) e := by
  obtain ⟨e', -, found⟩ := block.node (following_lt below)
  rw [nodeAt_next, found] at next
  cases next
  exact ringSide_following balanced edge

/-- Laying out balanced rings tags their nodes. -/
theorem ofRings_tagged [Trig] {rings : List Ring} (balanced : ∀ ring ∈ rings, Balanced ring) :
    Tagged (Arena.ofRings rings) where
  keep := by
    intro i node after found next none
    obtain ⟨ring, member, first, k, e, below, rfl, edge, rfl, block⟩ := ofRings_node found
    rw [block.after (balanced ring member) below edge next, advance_cases (isSide_ringSide ring k),
      nodeAt_crossing_none.1 none]
    rfl
  turn := by
    intro i node after c found next crossing
    obtain ⟨ring, member, first, k, e, below, rfl, edge, rfl, block⟩ := ofRings_node found
    rw [block.after (balanced ring member) below edge next, advance_cases (isSide_ringSide ring k),
      (nodeAt_crossing.1 crossing).1]
    rfl
  side := by
    intro i node c found crossing
    obtain ⟨ring, member, first, k, e, below, rfl, edge, rfl, block⟩ := ofRings_node found
    obtain ⟨leave, rfl⟩ := nodeAt_crossing.1 crossing
    have isSide := isSide_ringSide ring k
    have nonzero := (hemisphere_of_leaves isSide leave).2
    refine ⟨?_, rfl⟩
    change ringSide ring k = 1 ∨ ringSide ring k = -1
    unfold IsSide at isSide
    omega

theorem eq_zero_of_sideAfter_eq_zero {side : Int} {es : List (Coord × Coord)}
    (zero : sideAfter side es = 0) : side = 0 := by
  induction es generalizing side with
  | nil => exact zero
  | cons e rest ih =>
    have advanced : Split.advance side e = 0 := ih zero
    unfold Split.advance at advanced
    split at advanced
    · rename_i leave
      exact absurd advanced (leaves_iff.1 leave).2.1
    · exact advanced

/-- A ring without a hemisphere lies on the prime meridian. -/
theorem hemisphere_eq_zero_of_leadingSide {ring : Ring} (zero : leadingSide ring = 0) :
    ∀ c ∈ ring, c.hemisphere = 0 := by
  unfold leadingSide at zero
  cases found : (ring.map Coord.hemisphere).find? (· ≠ 0) with
  | none =>
    intro c member
    simpa using List.find?_eq_none.1 found _ (List.mem_map_of_mem member)
  | some side =>
    have nonzero := List.find?_some found
    rw [found, Option.getD_some] at zero
    simp [zero] at nonzero

/-- The first vertex is on the prime meridian or in the leading hemisphere. -/
theorem liesIn_leadingSide (c : Coord) (rest : Ring) : c.LiesIn (leadingSide (c :: rest)) := by
  by_cases zero : c.hemisphere = 0
  · exact Or.inl zero
  · right
    simp [leadingSide, zero]

/-- A vertex off the prime meridian is in its own hemisphere. -/
theorem liesIn_ringSide {ring : Ring} {k : Nat} {c : Coord} (vertex : ring[k]? = some c) :
    c.LiesIn (ringSide ring k) := by
  cases k with
  | zero =>
    cases ring with
    | nil => cases vertex
    | cons first rest =>
      cases vertex
      exact liesIn_leadingSide c rest
  | succ k =>
    have bound : k + 1 < ring.length := (List.getElem?_eq_some_iff.1 vertex).1
    have inEdges : k < ring.edges.length := by rw [Ring.edges, cyclicPairs_length]; omega
    have edge : ring.edges[k]? = some ring.edges[k] := List.getElem?_eq_getElem inEdges
    have ending := (cyclicPairs_getElem? edge).2
    rw [following, if_neg (by omega), vertex] at ending
    rw [ringSide_succ edge, Split.advance, ← Option.some.inj ending]
    split
    · exact Or.inr rfl
    · rename_i stay
      rw [leaves_iff] at stay
      by_cases zero : ringSide ring k = 0
      · left
        exact hemisphere_eq_zero_of_leadingSide (eq_zero_of_sideAfter_eq_zero zero) c
          (List.mem_of_getElem? vertex)
      · by_cases off : c.hemisphere = 0
        · exact Or.inl off
        · exact Or.inr (not_not.1 fun other => stay ⟨zero, off, other⟩)

/-- A node lies in its hemisphere, and its coordinate is a vertex of one of the rings. -/
theorem ofRings_coord [Trig] {rings : List Ring} {i : Nat} {node : Node}
    (found : (Arena.ofRings rings)[i]? = some node) :
    node.coord.LiesIn node.side ∧ IsSide node.side ∧ ∃ ring ∈ rings, node.coord ∈ ring := by
  obtain ⟨ring, member, first, k, e, below, rfl, edge, rfl, block⟩ := ofRings_node found
  have vertex := (cyclicPairs_getElem? edge).1
  exact ⟨liesIn_ringSide vertex, isSide_ringSide ring k, ring, member, List.mem_of_getElem? vertex⟩

end Split
end Antimeridian
