import Antimeridian.Proofs.Split.Hemisphere
import Antimeridian.Proofs.Split.Traversal

/-!
# The cut is exact

The exteriors of the parts of a split show what the cut rings show, with each crossing edge in two
halves, and besides only the seams between partners, one on either side.  An edge without a crossing
is a way with two ends.  A crossing edge has a heading on either side of it, and the way from each
goes over half the edge, along the seam and over half the edge of the partner.
-/

namespace Antimeridian.Split

/-- The pieces of an edge whose start is in the hemisphere `side`: all of it, or the half on either
side of the crossing. -/
def pieces (side : Int) (e : Coord × Coord) : List (Coord × Coord) :=
  if leaves side e.2 then
    -- where a crossing is does not depend on the index of its vertex
    let c := Crossing.ofEdge side 0 e.1 e.2
    [(e.1, c.point side), (c.point e.2.hemisphere, e.2)]
  else [e]

/-- The pieces of all edges of the rings that are cut. -/
def cutEdges (rings : List Ring) : List (Coord × Coord) :=
  (sidedEdges rings).flatMap fun (side, e) => pieces side e

/-- The seams between the crossings of ranks `2k` and `2k + 1`, in the east and in the west. -/
def seams : Meridian → List (Coord × Coord)
  | c :: d :: rest => (c.point 1, d.point 1) :: (c.point (-1), d.point (-1)) :: seams rest
  | _ => []

/-! ## Edges of the arena -/

section

variable {rings : List Ring} {i : Nat} {node : Node}

theorem layOut_length (offset : Nat) (rings : List Ring) :
    (layOut offset rings).length = (rings.flatMap Ring.edges).length := by
  induction rings generalizing offset with
  | nil => rfl
  | cons ring rest ih =>
    rw [layOut, List.flatMap_cons, List.length_append, List.length_append, ih, ringNodes_length,
      Ring.edges, cyclicPairs_length]

/-- The edge of a node leads to the next node. -/
theorem ofRings_edge (found : (Arena.ofRings rings)[i]? = some node) :
    (rings.flatMap Ring.edges)[i]? =
      some (node.coord, (Arena.ofRings rings).coordAt node.next) := by
  obtain ⟨ring, -, first, k, e, below, rfl, edge, rfl, block⟩ := ofRings_node found
  obtain ⟨e', edge', after⟩ := block.node (following_lt below)
  have start := (cyclicPairs_getElem? edge').1
  rw [(cyclicPairs_getElem? edge).2] at start
  rw [block.edges k below, edge, nodeAt_next, Arena.coordAt_eq after]
  exact congrArg (fun b => some (e.1, b)) (Option.some.inj start)

/-- The edges of the rings are those from each node to the next. -/
theorem ofRings_edges (rings : List Ring) : rings.flatMap Ring.edges =
    (Arena.ofRings rings).map fun node =>
      (node.coord, (Arena.ofRings rings).coordAt node.next) := by
  apply List.ext_getElem?
  intro i
  rw [List.getElem?_map]
  cases found : (Arena.ofRings rings)[i]? with
  | none =>
    rw [List.getElem?_eq_none_iff] at found
    rw [Option.map_none, List.getElem?_eq_none_iff, ← layOut_length 0]
    exact found
  | some node => exact ofRings_edge found

/-- No edge of a ring is lost in the arena, and each leaves the hemisphere of its node. -/
theorem ofRings_sidedEdges (rings : List Ring) : sidedEdges rings =
    (Arena.ofRings rings).map fun node =>
      (node.side, node.coord, (Arena.ofRings rings).coordAt node.next) := by
  rw [List.zip_of_prod (layOut_map_side 0 rings).symm (map_snd_sidedEdges rings), ofRings_edges]
  exact List.zip_map'

/-- A node has a crossing exactly if its edge leaves its hemisphere. -/
theorem ofRings_crossing (found : (Arena.ofRings rings)[i]? = some node) :
    node.crossing =
      let b := (Arena.ofRings rings).coordAt node.next
      if leaves node.side b then some (.ofEdge node.side i node.coord b) else none := by
  have edge := ofRings_edge found
  obtain ⟨ring, -, first, k, e, below, rfl, edge', rfl, block⟩ := ofRings_node found
  rw [block.edges k below, edge'] at edge
  have ending : e.2 = (Arena.ofRings rings).coordAt _ := (Prod.ext_iff.1 (Option.some.inj edge)).2
  rw [← ending]
  rfl

/-- A crossing edge ends in the opposite hemisphere. -/
theorem ofRings_hemisphere {c : Crossing} (found : (Arena.ofRings rings)[i]? = some node)
    (crossing : node.crossing = some c) :
    ((Arena.ofRings rings).coordAt node.next).hemisphere = -node.side := by
  rw [ofRings_crossing found] at crossing
  obtain ⟨leave, -⟩ := Option.ite_none_right_eq_some.1 crossing
  exact (hemisphere_of_leaves (ofRings_coord found).2.1 leave).1

/-- The edge of a node without a crossing is one piece. -/
theorem pieces_of_none (found : (Arena.ofRings rings)[i]? = some node)
    (none : node.crossing = none) :
    pieces node.side (node.coord, (Arena.ofRings rings).coordAt node.next) =
      [(node.coord, (Arena.ofRings rings).coordAt node.next)] := by
  rw [ofRings_crossing found] at none
  exact if_neg (by simpa using none)

/-- The edge of a node with a crossing is cut there, each half on its side. -/
theorem pieces_of_some {c : Crossing} (found : (Arena.ofRings rings)[i]? = some node)
    (crossing : node.crossing = some c) :
    pieces node.side (node.coord, (Arena.ofRings rings).coordAt node.next) =
      [(node.coord, c.point node.side),
        (c.point (-node.side), (Arena.ofRings rings).coordAt node.next)] := by
  rw [← ofRings_hemisphere found crossing]
  rw [ofRings_crossing found] at crossing
  obtain ⟨leave, equal⟩ := Option.ite_none_right_eq_some.1 crossing
  rw [← Option.some.inj equal]
  exact if_pos leave

end

/-- What the edge of a node shows once it is cut. -/
noncomputable def cutAt (arena : Arena) (node : Node) : Drawing :=
  outline (pieces node.side (node.coord, arena.coordAt node.next))

/-- What the edge of a crossing shows once it is cut. -/
noncomputable def halves (arena : Arena) (c : Crossing) : Drawing :=
  match arena[c.vertex]? with
  | none => 0
  | some owner => cutAt arena owner

/-- The seam between two crossings on both sides. -/
noncomputable def seam (c d : Crossing) : Drawing :=
  outline [(c.point 1, d.point 1)] + outline [(c.point (-1), d.point (-1))]

/-- The cut edges of the rings, gathered by nodes. -/
theorem outline_cutEdges (rings : List Ring) :
    outline (cutEdges rings) =
      ((Arena.ofRings rings).map (cutAt (Arena.ofRings rings))).sum := by
  rw [cutEdges, ofRings_sidedEdges, outline_flatMap, List.map_map]
  rfl

/-! ## Partners side by side -/

/-- Every crossing with its partner. -/
def partners : Meridian → List (Crossing × Crossing)
  | c :: d :: rest => (c, d) :: (d, c) :: partners rest
  | _ => []

/-- Induction over the crossings of an even meridian, two at a time. -/
@[elab_as_elim]
theorem pair_induction {P : Meridian → Prop} : (meridian : Meridian) → Even meridian.length →
    P [] → (∀ c d rest, P rest → P (c :: d :: rest)) → P meridian
  | [], _, nil, _ => nil
  | [_], even, _, _ => by simp at even
  | c :: d :: rest, even, nil, pair => by
    have shorter : Even rest.length := by simpa [Nat.even_add_one] using even
    exact pair c d rest (pair_induction rest shorter nil pair)

theorem partnerRank_add_two (k : Nat) :
    Meridian.partnerRank (k + 2) = Meridian.partnerRank k + 2 := by
  unfold Meridian.partnerRank
  split <;> split <;> omega

theorem partners_getElem? {meridian : Meridian} (even : Even meridian.length) :
    ∀ k, (partners meridian)[k]? = meridian[k]?.bind fun c =>
      meridian[Meridian.partnerRank k]?.map fun d => (c, d) := by
  refine pair_induction meridian even ?_ ?_
  · intro k
    rfl
  · intro c d rest ih k
    match k with
    | 0 => rfl
    | 1 => rfl
    | k + 2 =>
      rw [partnerRank_add_two]
      exact ih k

/-- The list of partners is what looking up partners gives. -/
theorem Meridian.Paired.map_partner {meridian : Meridian} (paired : meridian.Paired) :
    meridian.map (fun c => (c, meridian.partner? c)) =
      (partners meridian).map fun (c, d) => (c, some d) := by
  apply List.ext_getElem?
  intro k
  rw [List.getElem?_map, List.getElem?_map, partners_getElem? paired.even]
  cases found : meridian[k]? with
  | none => rfl
  | some c =>
    have below := Meridian.partnerRank_lt paired.even (List.getElem?_eq_some_iff.1 found).1
    rw [Option.map_some, Meridian.partner?_eq paired found, List.getElem?_eq_getElem below]
    rfl

/-- What the ways from both sides of a crossing edge show, if `f` tells what cut edges show. -/
noncomputable def across (meridian : Meridian) (f : Crossing → Drawing)
    (c : Crossing) : Drawing :=
  match meridian.partner? c with
  | none => 0
  | some d => f c + seam c d + f d

theorem seam_comm (c d : Crossing) : seam c d = seam d c := by
  rw [seam, outline_swap, outline_swap (c.point (-1)), seam]

/-- Along the meridian circle every cut edge and every seam is met twice. -/
theorem sum_across {meridian : Meridian} (paired : meridian.Paired)
    (f : Crossing → Drawing) : (meridian.map (across meridian f)).sum =
      (meridian.map fun c => f c + f c).sum +
        (outline (seams meridian) + outline (seams meridian)) := by
  have given : meridian.map (across meridian f) =
      (partners meridian).map fun (c, d) => f c + seam c d + f d := by
    have pairs := congrArg (List.map fun x : Crossing × Option Crossing =>
      match x.2 with
      | none => 0
      | some d => f x.1 + seam x.1 d + f d) paired.map_partner
    rw [List.map_map, List.map_map] at pairs
    exact pairs
  rw [given]
  refine pair_induction meridian paired.even ?_ ?_
  · simp [partners, seams]
  · intro c d rest ih
    simp only [partners, seams, List.map_cons, List.sum_cons]
    rw [ih, seam_comm d c, outline_cons, outline_cons (c.point (-1), _), seam]
    abel

/-! ## Both ways over an edge -/

section

variable {rings : List Ring} {meridian : Meridian} {i : Nat} {node : Node}

/-- The two headings next to a crossing, named by hemisphere or by the order of the ring. -/
theorem add_wayOut {arena : Arena} (tagged : Tagged arena) {c : Crossing} {owner : Node}
    (place : arena[c.vertex]? = some owner) (owned : owner.crossing = some c)
    (f : Int → Heading → Drawing) :
    f 1 (wayOut 1 c owner) + f (-1) (wayOut (-1) c owner) =
      f owner.side ⟨c.vertex, true⟩ + f (-owner.side) ⟨owner.next, false⟩ := by
  rw [wayOut, wayOut, wayIn_eq tagged place owned (Or.inl rfl),
    wayIn_eq tagged place owned (Or.inr rfl)]
  rcases (tagged.side place owned).1 with east | west
  · rw [east]
    rfl
  · rw [west]
    exact add_comm _ _

/-- The half of a crossing edge in the hemisphere `side`. -/
noncomputable def half (arena : Arena) (side : Int) (c : Crossing) (owner : Node) :
    Drawing :=
  outline [(arena.coordAt (wayOut side c owner).index, c.point side)]

/-- Both halves of an edge make up the cut edge. -/
theorem half_add_half (tagged : Tagged (Arena.ofRings rings)) {c : Crossing} {owner : Node}
    (place : (Arena.ofRings rings)[c.vertex]? = some owner) (owned : owner.crossing = some c) :
    half (Arena.ofRings rings) 1 c owner + half (Arena.ofRings rings) (-1) c owner =
      halves (Arena.ofRings rings) c := by
  have sides := add_wayOut tagged place owned fun side h =>
    outline [((Arena.ofRings rings).coordAt h.index, c.point side)]
  rw [half, half, sides, halves, place]
  simp only [cutAt, pieces_of_some place owned, Arena.coordAt_eq place]
  rw [outline_swap ((Arena.ofRings rings).coordAt owner.next), ← outline_cons]

/-- The way out at a crossing goes over half its edge, the seam and half the edge of the partner. -/
theorem drawn_wayOut {arena : Arena} (consistent : Consistent arena meridian) {c d : Crossing}
    {owner other : Node} {side : Int} (isSide : side = 1 ∨ side = -1)
    (joined : Joined arena meridian side (wayOut side c owner) [c.point side, d.point side]
      (wayOut side d other))
    (place : arena[c.vertex]? = some owner) (owned : owner.crossing = some c) :
    drawn arena meridian (wayOut side c owner) =
      half arena side c owner + outline [(c.point side, d.point side)] +
        half arena side d other := by
  obtain ⟨node, here, -⟩ := wayOut_ahead consistent.linked side place
  have inSide := wayOut_side consistent place owned isSide here
  rw [drawn, joined.reach_eq consistent.linked here inSide]
  simp only [List.cons_append, List.nil_append, trail]
  rw [outline_cons, outline_cons (c.point side, _), outline_swap (d.point side), add_assoc]
  rfl

/-- The ways over a crossing edge from both sides. -/
theorem drawn_of_some (consistent : Consistent (Arena.ofRings rings) meridian) {c : Crossing}
    (here : (Arena.ofRings rings)[i]? = some node) (crossing : node.crossing = some c) :
    drawn (Arena.ofRings rings) meridian ⟨i, true⟩ +
        drawn (Arena.ofRings rings) meridian ⟨node.next, false⟩ =
      across meridian (halves (Arena.ofRings rings)) c := by
  have tagged := consistent.tagged
  obtain ⟨d, forth, back, differ, other, place, owned⟩ := consistent.partner here crossing
  obtain rfl := consistent.linked.vertex here crossing
  have way (side : Int) : Joined (Arena.ofRings rings) meridian side _ _ _ :=
    .seam here crossing place owned forth back differ
  rw [← add_wayOut tagged here crossing fun _ => drawn (Arena.ofRings rings) meridian,
    drawn_wayOut consistent (Or.inl rfl) (way 1) here crossing,
    drawn_wayOut consistent (Or.inr rfl) (way (-1)) here crossing, across, forth]
  simp only
  rw [← half_add_half tagged here crossing, ← half_add_half tagged place owned, seam]
  abel

/-- The ways over an edge without a crossing from both ends. -/
theorem drawn_of_none (consistent : Consistent (Arena.ofRings rings) meridian)
    (here : (Arena.ofRings rings)[i]? = some node) (none : node.crossing = none) :
    drawn (Arena.ofRings rings) meridian ⟨i, true⟩ +
        drawn (Arena.ofRings rings) meridian ⟨node.next, false⟩ =
      cutAt (Arena.ofRings rings) node + cutAt (Arena.ofRings rings) node := by
  have linked := consistent.linked
  obtain ⟨after, next, -⟩ := linked.next here
  have joined : Joined (Arena.ofRings rings) meridian node.side ⟨i, true⟩ [] ⟨node.next, false⟩ :=
    .along here none
  have back := joined.drawn_eq linked here rfl next (consistent.tagged.keep here next none)
  have forth : drawn (Arena.ofRings rings) meridian ⟨i, true⟩ = cutAt (Arena.ofRings rings) node := by
    rw [drawn, joined.reach_eq linked here rfl, Arena.coordAt_eq here, cutAt,
      pieces_of_none here none]
    rfl
  rw [back, forth]

/-- Every node is the next one of exactly one node. -/
theorem Linked.next_perm {arena : Arena} (linked : Linked arena) :
    (arena.map Node.next).Perm (List.range arena.length) := by
  have all : List.range arena.length ⊆ arena.map Node.next := by
    intro i member
    have here := List.getElem?_eq_getElem (List.mem_range.1 member)
    obtain ⟨before, place, next⟩ := linked.prev here
    exact List.mem_map.2 ⟨before, List.mem_of_getElem? place, next⟩
  have sub := List.subperm_of_subset List.nodup_range all
  exact (sub.perm_of_length_le (by simp)).symm

theorem map_zipIdx {α : Type} (arena : Arena) (f : Node → α) :
    arena.zipIdx.map (fun x => f x.1) = arena.map f := by
  have nodes := congrArg (List.map f) (List.zipIdx_map_fst 0 arena)
  rwa [List.map_map] at nodes

/-- The ways of all headings, gathered by the edges that they begin with. -/
theorem sum_drawnAt {arena : Arena} (linked : Linked arena) :
    ((List.range arena.length).map (drawnAt arena meridian)).sum =
      (arena.zipIdx.map fun x =>
        drawn arena meridian ⟨x.2, true⟩ + drawn arena meridian ⟨x.1.next, false⟩).sum := by
  have indices : List.range arena.length = arena.zipIdx.map Prod.snd := by
    rw [List.zipIdx_map_snd, List.range_eq_range']
  have moved := (linked.next_perm.map fun i => drawn arena meridian ⟨i, false⟩).sum_eq
  rw [← map_zipIdx, List.map_map] at moved
  have split : (List.range arena.length).map (drawnAt arena meridian) =
      (List.range arena.length).map fun i =>
        drawn arena meridian ⟨i, true⟩ + drawn arena meridian ⟨i, false⟩ := rfl
  rw [split, List.sum_map_add, ← moved, indices, List.map_map, ← List.sum_map_add]
  rfl

end

/-- One value for a node without a crossing and another for a crossing. -/
noncomputable def byCrossing (f : Node → Drawing) (g : Crossing → Drawing)
    (node : Node) : Drawing :=
  match node.crossing with
  | none => f node
  | some c => g c

/-- A sum over nodes, with the crossings apart. -/
theorem sum_byCrossing (arena : Arena) (f : Node → Drawing)
    (g : Crossing → Drawing) : (arena.map (byCrossing f g)).sum =
      ((arena.filter fun node => node.crossing.isNone).map f).sum + (arena.crossings.map g).sum := by
  unfold Arena.crossings
  induction arena with
  | nil => rfl
  | cons node rest ih =>
    rw [List.map_cons, List.sum_cons, ih, List.filter_cons, List.filterMap_cons, byCrossing]
    cases node.crossing with
    | none => simp [add_assoc]
    | some c => simp [add_left_comm]

/-- A cut edge, counted twice. -/
noncomputable def twiceCut (arena : Arena) (node : Node) : Drawing :=
  cutAt arena node + cutAt arena node

theorem twiceCut_eq {arena : Arena} (linked : Linked arena) {node : Node} (member : node ∈ arena) :
    twiceCut arena node =
      byCrossing (twiceCut arena) (fun c => halves arena c + halves arena c) node := by
  obtain ⟨i, here⟩ := List.getElem?_of_mem member
  unfold byCrossing
  cases crossing : node.crossing with
  | none => rfl
  | some c => simp only [twiceCut, halves, linked.vertex here crossing, here]

/-- The ways over an edge from both sides. -/
theorem drawn_edge {rings : List Ring} {meridian : Meridian} {x : Node × Nat}
    (consistent : Consistent (Arena.ofRings rings) meridian)
    (member : x ∈ (Arena.ofRings rings).zipIdx) :
    drawn (Arena.ofRings rings) meridian ⟨x.2, true⟩ +
        drawn (Arena.ofRings rings) meridian ⟨x.1.next, false⟩ =
      byCrossing (twiceCut (Arena.ofRings rings)) (across meridian (halves (Arena.ofRings rings)))
        x.1 := by
  have here := List.mk_mem_zipIdx_iff_getElem?.1 member
  unfold byCrossing
  cases crossing : x.1.crossing with
  | none => exact drawn_of_none consistent here crossing
  | some c => exact drawn_of_some consistent here crossing

/-- The ways over all edges, from both sides, are the cut edges and the seams, each twice. -/
theorem sum_drawn {rings : List Ring} {meridian : Meridian}
    (consistent : Consistent (Arena.ofRings rings) meridian) (paired : meridian.Paired)
    (sorted : meridian.Perm (Arena.ofRings rings).crossings) :
    ((Arena.ofRings rings).zipIdx.map fun x =>
      drawn (Arena.ofRings rings) meridian ⟨x.2, true⟩ +
        drawn (Arena.ofRings rings) meridian ⟨x.1.next, false⟩).sum =
      outline (cutEdges rings ++ seams meridian) + outline (cutEdges rings ++ seams meridian) := by
  rw [outline_append, outline_cutEdges,
    List.map_congr_left fun x member => drawn_edge consistent member]
  have edges : (Arena.ofRings rings).map (twiceCut (Arena.ofRings rings)) = _ :=
    List.map_congr_left fun node member => twiceCut_eq consistent.linked member
  generalize Arena.ofRings rings = arena at *
  rw [map_zipIdx arena (byCrossing (twiceCut arena) (across meridian (halves arena)))]
  calc
    _ = ((arena.filter fun node => node.crossing.isNone).map (twiceCut arena)).sum +
        (arena.crossings.map (across meridian (halves arena))).sum :=
      sum_byCrossing arena _ _
    _ = ((arena.filter fun node => node.crossing.isNone).map (twiceCut arena)).sum +
        ((arena.crossings.map fun c => halves arena c + halves arena c).sum +
          (outline (seams meridian) + outline (seams meridian))) := by
      rw [← (sorted.map _).sum_eq, sum_across paired, (sorted.map _).sum_eq]
    _ = (arena.map (twiceCut arena)).sum +
        (outline (seams meridian) + outline (seams meridian)) := by
      rw [edges, sum_byCrossing, add_assoc]
    _ = _ := by
      unfold twiceCut
      rw [List.sum_map_add]
      abel

theorem eq_of_add_self_eq {first second : Drawing}
    (twice : first + first = second + second) : first = second := by
  classical
  ext e
  have counts := congrArg (Multiset.count e) twice
  rw [Multiset.count_add, Multiset.count_add] at counts
  omega

/-- The exteriors of a split have, up to direction and edges of no length, exactly these edges: the
edges of the cut rings without a crossing, both halves of those with one, and the seams between
partners on both sides.  The ends of the seams have the latitude of their crossing on either side,
and the longitude of the meridian that was crossed. -/
theorem outline_split {p : Polygon} {polygons : List Polygon}
    (balanced : ∀ ring ∈ cutRings p, Balanced ring) (ok : p.split.result = .ok polygons) :
    outline (polygons.flatMap fun q => q.exterior.edges) =
      outline (cutEdges (cutRings p) ++ seams (meridianOf p)) ∧
    ∀ c ∈ meridianOf p, (c.point 1).lat = c.lat ∧ (c.point (-1)).lat = c.lat ∧
      ((c.point 1).lng, (c.point (-1)).lng) = if c.prime then (0, 0) else (Angle.pi, -Angle.pi) := by
  obtain ⟨-, even, ts, toured, -, rfl⟩ := exists_tours_of_split ok
  have consistent := ofRings_consistent balanced even
  have paired := consistent.linked.paired even
  have sorted := Meridian.ofCrossings_perm (arenaOf p).crossings
  constructor
  · have exteriors : (filledParts p (ts.map Tour.part)).flatMap (fun q => q.exterior.edges) =
        ts.flatMap fun t => t.part.exterior.edges := by
      have rings := congrArg (List.flatMap Ring.edges) (filledParts_exterior p (ts.map Tour.part))
      rwa [List.flatMap_map, List.map_map, List.flatMap_map] at rings
    have twice := twice_outline_tours consistent toured
    rw [sum_drawnAt consistent.linked, sum_drawn consistent paired sorted] at twice
    rw [exteriors]
    exact eq_of_add_self_eq twice
  · intro c member
    refine ⟨rfl, rfl, ?_⟩
    unfold Crossing.point
    cases c.prime <;> rfl

/-- The parts of a ribbon show its cut edges and the seams. -/
theorem outline_split_ribbon : ∃ polygons, ribbon.split.result = .ok polygons ∧
    outline (polygons.flatMap fun q => q.exterior.edges) =
      outline (cutEdges (cutRings ribbon) ++ seams (meridianOf ribbon)) := by
  have succeeds : ribbon.split.result.isOk = true := by decide +kernel
  have balanced : ∀ ring ∈ cutRings ribbon, Balanced ring := by decide +kernel
  obtain ⟨polygons, ok⟩ := exists_of_isOk succeeds
  exact ⟨polygons, ok, (outline_split balanced ok).1⟩

end Antimeridian.Split
