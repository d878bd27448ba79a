import Antimeridian.Proofs.Split.Assignment
import Antimeridian.Proofs.Split.Extent
import Antimeridian.Proofs.Split.Parity
import Antimeridian.Proofs.Split.Reach
import Antimeridian.Proofs.Split.Relisting
import Antimeridian.Proofs.Split.Traversal

/-!
# Parts do not depend on how a ring is listed

A tour goes once around what can be reached from its start, and it passes the vertices there and the
points on all ways between them.  Neither depends on where the tour begins nor on its direction, and
a relisting of the ring maps ways to ways past the same spots.  So the tours over two lists of one
ring correspond to each other, and their parts have the same vertices.
-/

namespace Antimeridian

/-- Every vertex of one ring is numerically equal to one of the other. -/
def Ring.SameVertices (ring ring' : Ring) : Prop :=
  (∀ c ∈ ring, ∃ d ∈ ring', c.same d = true) ∧ ∀ d ∈ ring', ∃ c ∈ ring, c.same d = true

namespace Split
open Double

/-! ## What a circuit passes -/

section

variable {arena : Arena} {meridian : Meridian} {left : List Nat} {t : Tour}
  {path : List (Heading × Step)}

/-- A circuit passes the vertices that it visits, and the points on all ways from them. -/
theorem Circuit.mem_passed_iff (linked : Linked arena)
    (circuit : Circuit arena meridian left t path) {c : Coord} :
    c ∈ t.walk.passed ↔ ∃ h via k node, h.index ∈ t.walk.visited ∧
      arena[h.index]? = some node ∧ Joined arena meridian t.side h via k ∧
      c ∈ node.coord :: via := by
  have follows := circuit.follows
  rw [follows.passed, follows.visited, List.mem_flatMap]
  constructor
  · rintro ⟨x, inPath, inStep⟩
    obtain ⟨node, via, here, -, passed, joined⟩ := circuit.sidewise x inPath
    rw [passed] at inStep
    exact ⟨x.1, via, _, node, List.mem_map_of_mem inPath, here, joined, inStep⟩
  · rintro ⟨h, via, k, node, visited, here, joined, source⟩
    obtain ⟨x, inPath, place⟩ := List.mem_map.1 visited
    obtain ⟨node', via', here', -, passed, joined'⟩ := circuit.sidewise x inPath
    rw [place] at here'
    obtain rfl := Option.some.inj (here.symm.trans here')
    rcases Heading.eq_or_eq_turned place with rfl | turned
    · obtain ⟨rfl, -⟩ := joined.unique linked joined'
      exact ⟨x, inPath, passed ▸ source⟩
    · rcases List.mem_cons.1 source with rfl | onWay
      · exact ⟨x, inPath, by rw [passed]; exact List.mem_cons_self⟩
      · -- the way that does not lead on is the one by which the circuit arrives
        have arrival : x.1 ∈ path.map fun y => y.2.target :=
          circuit.targets_perm.mem_iff.2 (List.mem_map_of_mem inPath)
        obtain ⟨y, inPath', target⟩ := List.mem_map.1 arrival
        obtain ⟨_, viaBack, -, -, passedBack, joinedBack⟩ := circuit.sidewise y inPath'
        rw [target, turned, Heading.turned_turned] at joinedBack
        obtain ⟨rfl, -⟩ := joined.unique linked joinedBack.symm
        exact ⟨y, inPath', by rw [passedBack]; exact List.mem_cons_of_mem _ (by simpa using onWay)⟩

/-! ## Tours apart -/

/-- No two tours stand on one vertex. -/
theorem Touring.disjoint {ts : List Tour} (touring : Touring arena meridian left ts)
    (distinct : left.Nodup) :
    ts.Pairwise fun t u => List.Disjoint t.walk.visited u.walk.visited :=
  (List.nodup_flatMap.1 (touring.visited_perm.nodup_iff.2 distinct)).2

/-- Tours that visit the same vertex are the same. -/
theorem Touring.eq_of_visited {ts : List Tour} (touring : Touring arena meridian left ts)
    (distinct : left.Nodup) {t u : Tour} (first : t ∈ ts) (second : u ∈ ts) {i : Nat}
    (visited : i ∈ t.walk.visited) (visited' : i ∈ u.walk.visited) : t = u := by
  have symmetric : Std.Symm fun t u : Tour => List.Disjoint t.walk.visited u.walk.visited :=
    ⟨fun _ _ disjoint => disjoint.symm⟩
  by_contra differ
  exact (touring.disjoint distinct).forall first second differ visited visited'

theorem Touring.nodup {ts : List Tour} (touring : Touring arena meridian left ts)
    (distinct : left.Nodup) : ts.Nodup := by
  apply (touring.disjoint distinct).imp_of_mem
  rintro t u first second disjoint rfl
  have start := touring.start_mem_visited t first
  exact disjoint start start

end

/-! ## Tours over two lists -/

theorem Cuttable.balanced {ring : Ring} (cuttable : Cuttable ring) : Balanced ring := by
  rw [balanced_iff]
  rintro ⟨zero, -⟩
  cases ring with
  | nil => cases zero
  | cons first rest => exact cuttable.off first List.mem_cons_self (Option.some.inj zero)

theorem Cuttable.consistent {ring : Ring} (cuttable : Cuttable ring) :
    Consistent (Arena.ofRings [ring]) (ringMeridian ring) :=
  ofRings_consistent (by simpa using cuttable.balanced) cuttable.balanced

section

variable {ring ring' : Ring} {i j : Nat}

/-- The side of a vertex off the prime meridian is its hemisphere. -/
theorem Cuttable.side_eq (cuttable : Cuttable ring) {node : Node}
    (place : (Arena.ofRings [ring])[i]? = some node) : node.coord = vertexAt ring i ∧
      node.side = (vertexAt ring i).hemisphere ∧ (node.side = 1 ∨ node.side = -1) := by
  have below := lt_of_node place
  obtain ⟨node', place', coord, side, -⟩ := exists_node cuttable.off below
  obtain rfl := Option.some.inj (place.symm.trans place')
  refine ⟨coord, side, ?_⟩
  have off := cuttable.off _ (vertexAt_mem below)
  have cases := (vertexAt ring i).hemisphere_cases
  omega

/-- Relisting a ring moves its nodes and keeps their places and hemispheres. -/
theorem Cuttable.node_index (cuttable : Cuttable ring) (r : Relisting ring ring')
    {node : Node} (place : (Arena.ofRings [ring])[i]? = some node) :
    ∃ node', (Arena.ofRings [ring'])[r.index i]? = some node' ∧ node'.coord = node.coord ∧
      node'.side = node.side := by
  have below := lt_of_node place
  have off' := (cuttable.relist r).off
  obtain ⟨node', place', coord, side, -⟩ := exists_node off' (r.length.symm ▸ r.lt below)
  obtain ⟨coord', side', -⟩ := cuttable.side_eq place
  rw [r.vertexAt_index below] at coord side
  exact ⟨node', place', coord.trans coord'.symm, side.trans side'.symm⟩

/-- Relisting keeps neighbours neighbours. -/
theorem Cuttable.adjacent (cuttable : Cuttable ring) (r : Relisting ring ring')
    (adjacent : Adjacent (Arena.ofRings [ring]) (ringMeridian ring) i j) :
    Adjacent (Arena.ofRings [ring']) (ringMeridian ring') (r.index i) (r.index j) := by
  obtain ⟨node, h, via, k, here, rfl, rfl, joined⟩ := adjacent
  obtain ⟨node', here', -, side⟩ := cuttable.node_index r here
  obtain ⟨via', joined', -⟩ := cuttable.joined r cuttable.consistent.tagged
    (cuttable.relist r).consistent.tagged cuttable.balanced (cuttable.side_eq here).2.2 joined
  exact ⟨node', r.heading h, via', r.heading k, here', rfl, rfl, side ▸ joined'⟩

/-- Relisting keeps what can be reached. -/
theorem Cuttable.reaches (cuttable : Cuttable ring) (r : Relisting ring ring')
    (reaches : Relation.ReflTransGen (Adjacent (Arena.ofRings [ring]) (ringMeridian ring)) i j) :
    Relation.ReflTransGen (Adjacent (Arena.ofRings [ring']) (ringMeridian ring'))
      (r.index i) (r.index j) :=
  reaches.lift r.index fun _ _ adjacent => cuttable.adjacent r adjacent

/-- Between vertices of one tour there is a way, and a way does not leave the tour. -/
theorem Cuttable.visited_iff_reaches (cuttable : Cuttable ring) {ts : List Tour}
    (toured : tours (Arena.ofRings [ring]) (ringMeridian ring) = .ok ts) {t : Tour}
    (member : t ∈ ts) (visited : i ∈ t.walk.visited) : j ∈ t.walk.visited ↔
      Relation.ReflTransGen (Adjacent (Arena.ofRings [ring]) (ringMeridian ring)) i j := by
  have symmetric : Std.Symm (Adjacent (Arena.ofRings [ring]) (ringMeridian ring)) :=
    ⟨fun _ _ adjacent => adjacent.symm cuttable.consistent⟩
  have reached := (mem_visited_iff cuttable.consistent toured member).1 visited
  rw [mem_visited_iff cuttable.consistent toured member]
  exact ⟨fun other => (symm reached).trans other, fun other => reached.trans other⟩

/-- The tours go around the same vertices, in the same hemisphere. -/
structure Relisting.Matches (r : Relisting ring ring') (t t' : Tour) : Prop where
  side : t'.side = t.side
  visited : ∀ {i : Nat}, i < ring.length → (r.index i ∈ t'.walk.visited ↔ i ∈ t.walk.visited)

theorem Relisting.Matches.symm {r : Relisting ring ring'} {t t' : Tour} (same : r.Matches t t') :
    r.symm.Matches t' t where
  side := same.side.symm
  visited := by
    intro i below
    rw [r.length] at below
    have visited := same.visited (r.back_lt below)
    rw [r.index_back below] at visited
    exact visited.symm

variable {ts ts' : List Tour}

/-- Some tour visits each vertex. -/
theorem exists_visitor (toured : tours (Arena.ofRings [ring]) (ringMeridian ring) = .ok ts)
    (below : i < ring.length) : ∃ t ∈ ts, i ∈ t.walk.visited := by
  obtain ⟨node, place, -⟩ := exists_node_of_lt [] below
  exact exists_visitor_of_node toured place

theorem start_lt (toured : tours (Arena.ofRings [ring]) (ringMeridian ring) = .ok ts) {t : Tour}
    (member : t ∈ ts) : t.start < ring.length := by
  obtain ⟨node, place, -⟩ := (touring_of_tours toured).follows t member
  exact lt_of_node place

/-- Every tour of a ring has a tour of the relisted ring over the same vertices. -/
theorem Cuttable.exists_matches (cuttable : Cuttable ring) (r : Relisting ring ring')
    (toured : tours (Arena.ofRings [ring]) (ringMeridian ring) = .ok ts)
    (toured' : tours (Arena.ofRings [ring']) (ringMeridian ring') = .ok ts') :
    ∀ t ∈ ts, ∃ t' ∈ ts', r.Matches t t' := by
  intro t member
  have cuttable' := cuttable.relist r
  have below := start_lt toured member
  have start := (touring_of_tours toured).start_mem_visited t member
  obtain ⟨t', member', start'⟩ := exists_visitor toured' (r.length.symm ▸ r.lt below)
  refine ⟨t', member', ?_, ?_⟩
  · obtain ⟨node, place, side, -⟩ := (touring_of_tours toured).follows t member
    obtain ⟨node', place', -, side'⟩ := cuttable.node_index r place
    rw [side, ← side']
    exact ((touring_of_tours toured').side_of_visited cuttable'.consistent member' start'
      place').symm
  · intro i inside
    rw [cuttable.visited_iff_reaches toured member start,
      cuttable'.visited_iff_reaches toured' member' start']
    constructor
    · intro reached
      have back := cuttable'.reaches r.symm reached
      have first := r.back_index below
      have second := r.back_index inside
      change Relation.ReflTransGen _ (r.back (r.index t.start)) (r.back (r.index i)) at back
      rwa [first, second] at back
    · exact cuttable.reaches r

/-! ## Parts with the same vertices -/

theorem Cuttable.spots_subset (cuttable : Cuttable ring) (r : Relisting ring ring')
    (toured : tours (Arena.ofRings [ring]) (ringMeridian ring) = .ok ts)
    (toured' : tours (Arena.ofRings [ring']) (ringMeridian ring') = .ok ts') {t t' : Tour}
    (member : t ∈ ts) (member' : t' ∈ ts') (same : r.Matches t t') {s : Spot}
    (seen : s ∈ t.part.exterior.map Coord.spot) : s ∈ t'.part.exterior.map Coord.spot := by
  have cuttable' := cuttable.relist r
  obtain ⟨left, path, circuit, -⟩ := (touring_of_tours toured).circuits cuttable.consistent
    (closed_range cuttable.consistent.linked) List.nodup_range t member
  obtain ⟨left', path', circuit', -⟩ := (touring_of_tours toured').circuits cuttable'.consistent
    (closed_range cuttable'.consistent.linked) List.nodup_range t' member'
  simp only [Tour.part, mem_spots_withoutRepeats] at seen ⊢
  obtain ⟨c, passed, rfl⟩ := List.mem_map.1 seen
  obtain ⟨h, via, k, node, visited, here, joined, source⟩ :=
    (circuit.mem_passed_iff cuttable.consistent.linked).1 passed
  have below := lt_of_node here
  have side := (touring_of_tours toured).side_of_visited cuttable.consistent member visited here
  have isSide := (cuttable.side_eq here).2.2
  rw [side] at isSide
  obtain ⟨via', joined', spots⟩ := cuttable.joined r cuttable.consistent.tagged
    cuttable'.consistent.tagged cuttable.balanced isSide joined
  obtain ⟨node', here', coord, -⟩ := cuttable.node_index r here
  have shown : c.spot ∈ (node'.coord :: via').map Coord.spot := by
    rw [List.map_cons, spots, coord, ← List.map_cons]
    exact List.mem_map_of_mem source
  obtain ⟨d, source', equal⟩ := List.mem_map.1 shown
  rw [← same.side] at joined'
  have inPassed := (circuit'.mem_passed_iff cuttable'.consistent.linked).2
    ⟨r.heading h, via', r.heading k, node', (same.visited below).2 visited, here', joined', source'⟩
  exact List.mem_map.2 ⟨d, inPassed, equal⟩

theorem Cuttable.same_self (cuttable : Cuttable ring)
    (toured : tours (Arena.ofRings [ring]) (ringMeridian ring) = .ok ts) {t : Tour}
    (member : t ∈ ts) {c : Coord} (inExterior : c ∈ t.part.exterior) : c.same c = true := by
  have finite : c.IsFinite := by
    rcases (touring_of_tours toured).mem_exterior (by simpa using cuttable.finite) member
      inExterior with ⟨ring', inRings, inRing⟩ | inRange
    · rw [List.mem_singleton.1 inRings] at inRing
      exact cuttable.finite c inRing
    · exact inRange.isFinite
  exact finite.same_self

/-- A vertex of a part is found, up to the sign of zeros, in the part that matches. -/
theorem Cuttable.exists_same (cuttable : Cuttable ring) (r : Relisting ring ring')
    (toured : tours (Arena.ofRings [ring]) (ringMeridian ring) = .ok ts)
    (toured' : tours (Arena.ofRings [ring']) (ringMeridian ring') = .ok ts') {t t' : Tour}
    (member : t ∈ ts) (member' : t' ∈ ts') (same : r.Matches t t') :
    ∀ c ∈ t.part.exterior, ∃ d ∈ t'.part.exterior, c.same d = true := by
  intro c inExterior
  obtain ⟨d, inExterior', equal⟩ := List.mem_map.1
    (cuttable.spots_subset r toured toured' member member' same (List.mem_map_of_mem inExterior))
  refine ⟨d, inExterior', ?_⟩
  rcases Coord.alike_of_spot_eq equal.symm with rfl | alike
  · exact cuttable.same_self toured member inExterior
  · exact alike

/-- Tours that match go around parts with the same vertices. -/
theorem Cuttable.sameVertices (cuttable : Cuttable ring) (r : Relisting ring ring')
    (toured : tours (Arena.ofRings [ring]) (ringMeridian ring) = .ok ts)
    (toured' : tours (Arena.ofRings [ring']) (ringMeridian ring') = .ok ts') {t t' : Tour}
    (member : t ∈ ts) (member' : t' ∈ ts') (same : r.Matches t t') :
    t.part.exterior.SameVertices t'.part.exterior := by
  refine ⟨cuttable.exists_same r toured toured' member member' same, ?_⟩
  intro d inExterior
  obtain ⟨c, found, equal⟩ :=
    (cuttable.relist r).exists_same r.symm toured' toured member' member same.symm d inExterior
  exact ⟨c, found, Coord.same_symm equal⟩

/-- The tours over two lists of a ring correspond to each other, with parts of the same vertices. -/
theorem Cuttable.exists_perm (cuttable : Cuttable ring) (r : Relisting ring ring')
    (toured : tours (Arena.ofRings [ring]) (ringMeridian ring) = .ok ts)
    (toured' : tours (Arena.ofRings [ring']) (ringMeridian ring') = .ok ts') :
    ∃ others, others.Perm ts' ∧ List.Forall₂
      (fun t t' => t.part.exterior.SameVertices t'.part.exterior) ts others := by
  have touring := touring_of_tours toured
  have touring' := touring_of_tours toured'
  have : Nonempty Tour := ⟨⟨0, 0, [], [], [], 0, true⟩⟩
  choose! image found same using cuttable.exists_matches r toured toured'
  have starts : ∀ t ∈ ts, r.index t.start ∈ (image t).walk.visited := by
    intro t member
    exact ((same t member).visited (start_lt toured member)).2 (touring.start_mem_visited t member)
  refine ⟨ts.map image, ?_, ?_⟩
  · rw [List.perm_ext_iff_of_nodup _ (touring'.nodup List.nodup_range)]
    · intro t'
      rw [List.mem_map]
      constructor
      · rintro ⟨t, member, rfl⟩
        exact found t member
      · intro member'
        obtain ⟨t, member, back⟩ := cuttable.relist r |>.exists_matches r.symm toured' toured
          t' member'
        refine ⟨t, member, ?_⟩
        have shared := (back.symm.visited (start_lt toured member)).2
          (touring.start_mem_visited t member)
        exact touring'.eq_of_visited List.nodup_range (found t member) member'
          (starts t member) shared
    · apply List.Nodup.map_on _ (touring.nodup List.nodup_range)
      intro t member u member' equal
      have visited := starts u member'
      rw [← equal, (same t member).visited (start_lt toured member')] at visited
      exact touring.eq_of_visited List.nodup_range member member' visited
        (touring.start_mem_visited u member')
  · rw [List.forall₂_map_right_iff, List.forall₂_same]
    intro t member
    exact cuttable.sameVertices r toured toured' member (found t member) (same t member)

/-- A ring that can be cut is split into the parts of its tours. -/
theorem Cuttable.exists_split (cuttable : Cuttable ring) (long : 2 ≤ ring.length) :
    ∃ ts, tours (Arena.ofRings [ring]) (ringMeridian ring) = .ok ts ∧
      (Polygon.mk ring []).split.result = .ok (ts.map fun t => ⟨t.part.exterior, []⟩) := by
  obtain ⟨ts, toured⟩ := cuttable.consistent.toSound.exists_tours
  exact ⟨ts, toured, split_withoutWhole (p := ⟨ring, []⟩) long cuttable.balanced toured⟩

end

/-- The split of a polygon without holes does not depend on how its exterior is listed.  Let all
vertices be finite and off the prime meridian, and let no two edges cross the meridian circle at the
same place.  Then, from whichever vertex on and in whichever direction the vertices are listed, the
split succeeds, and the parts correspond to each other one to one with the same vertices. -/
theorem split_relisted {ring ring' : Ring} (long : 2 ≤ ring.length)
    (finite : ∀ c ∈ ring, c.IsFinite) (off : ∀ c ∈ ring, c.hemisphere ≠ 0)
    (distinct : (arenaOf ⟨ring, []⟩).crossings.Pairwise fun c d => (c.key == d.key) = false)
    (listed : ring'.IsRotated ring ∨ ring'.IsRotated ring.reverse) :
    ∃ parts parts', (Polygon.mk ring []).split.result = .ok parts ∧
      (Polygon.mk ring' []).split.result = .ok parts' ∧ parts'.length = parts.length ∧
      ∃ others, others.Perm parts' ∧
        List.Forall₂ (fun p q => p.exterior.SameVertices q.exterior) parts others := by
  have cuttable : Cuttable ring := ⟨finite, off, distinct⟩
  obtain ⟨r⟩ := Relisting.of_isRotated listed
  obtain ⟨ts, toured, split⟩ := cuttable.exists_split long
  obtain ⟨ts', toured', split'⟩ := (cuttable.relist r).exists_split (r.length.symm ▸ long)
  obtain ⟨others, perm, matched⟩ := cuttable.exists_perm r toured toured'
  refine ⟨_, _, split, split', ?_, _, perm.map _, ?_⟩
  · rw [List.length_map, List.length_map, ← perm.length_eq, matched.length_eq]
  · rw [List.forall₂_map_left_iff, List.forall₂_map_right_iff]
    exact matched

/-- A ring that winds over the antimeridian, with one part in the east and two in the west. -/
def meander : Ring :=
  [⟨-1, 3⟩, ⟨-1, -3⟩, ⟨-0.5, -3⟩, ⟨-0.5, 3⟩, ⟨0.5, 3⟩, ⟨0.5, -3⟩, ⟨1, -3⟩, ⟨1, 3⟩]

/-- A meander listed backwards from another vertex has the same parts in another order. -/
theorem split_relisted_meander : ∃ parts parts',
    (Polygon.mk meander []).split.result = .ok parts ∧
    (Polygon.mk (meander.reverse.rotate 3) []).split.result = .ok parts' ∧
    parts'.length = parts.length ∧ ∃ others, others.Perm parts' ∧
      List.Forall₂ (fun p q => p.exterior.SameVertices q.exterior) parts others := by
  have finite : ∀ c ∈ meander, c.IsFinite := by decide +kernel
  have off : ∀ c ∈ meander, c.hemisphere ≠ 0 := by decide +kernel
  have distinct : (arenaOf ⟨meander, []⟩).crossings.Pairwise
      fun c d => (c.key == d.key) = false := by decide +kernel
  exact split_relisted (by decide) finite off distinct (Or.inr (List.IsRotated.symm ⟨3, rfl⟩))

end Split

end Antimeridian
