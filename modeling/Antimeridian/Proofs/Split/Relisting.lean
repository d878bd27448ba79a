import Antimeridian.Proofs.Cut
import Antimeridian.Proofs.Outline
import Antimeridian.Proofs.Split.Joined

/-!
# Rings listed in another way

The vertices of a ring can be listed from any of them on, in either direction.  A relisting maps the
indices of one list to those of the other, so that neighbours stay neighbours.  It maps edges to
edges, and an edge is crossed at the same place in both directions.  So, if all crossings lie at
different places along the meridian circle, it maps the crossings in their order there, and partners
to partners.  In the end it maps every way between two headings to a way past the same spots.
-/

namespace Antimeridian.Split
open Double

/-- A map of indices from one list of a ring's vertices to another. -/
structure Relisting (ring ring' : Ring) where
  /-- The other list goes in the other direction. -/
  flipped : Bool
  index : Nat → Nat
  back : Nat → Nat
  length : ring'.length = ring.length
  lt : ∀ {i : Nat}, i < ring.length → index i < ring.length
  back_lt : ∀ {i : Nat}, i < ring.length → back i < ring.length
  back_index : ∀ {i : Nat}, i < ring.length → back (index i) = i
  index_back : ∀ {i : Nat}, i < ring.length → index (back i) = i
  vertex : ∀ {i : Nat}, i < ring.length → ring'[index i]? = ring[i]?
  next : ∀ {i : Nat}, i < ring.length → index (following ring.length i) =
    if flipped then preceding ring.length (index i) else following ring.length (index i)

namespace Relisting

variable {ring ring' ring'' : Ring}

/-- Relisting keeps previous neighbours, or turns them into next ones. -/
theorem prev (r : Relisting ring ring') {i : Nat} (below : i < ring.length) :
    r.index (preceding ring.length i) =
      if r.flipped then following ring.length (r.index i)
      else preceding ring.length (r.index i) := by
  have inside := preceding_lt below
  have next := r.next inside
  rw [following_preceding below] at next
  cases flip : r.flipped with
  | false =>
    simp only [flip] at next ⊢
    rw [next]
    exact (preceding_following _ _).symm
  | true =>
    simp only [flip] at next ⊢
    rw [next]
    exact (following_preceding (r.lt inside)).symm

/-- A relisting read backwards. -/
def symm (r : Relisting ring ring') : Relisting ring' ring where
  flipped := r.flipped
  index := r.back
  back := r.index
  length := r.length.symm
  lt below := by rw [r.length] at *; exact r.back_lt below
  back_lt below := by rw [r.length] at *; exact r.lt below
  back_index below := by rw [r.length] at below; exact r.index_back below
  index_back below := by rw [r.length] at below; exact r.back_index below
  vertex below := by
    rw [r.length] at below
    rw [← r.vertex (r.back_lt below), r.index_back below]
  next := by
    intro i below
    rw [r.length] at *
    have inside := r.back_lt below
    have there := r.index_back below
    cases flip : r.flipped with
    | false =>
      have next := r.next inside
      simp only [flip, there] at next ⊢
      rw [← r.back_index (following_lt inside), next]
      rfl
    | true =>
      have prev := r.prev inside
      simp only [flip, there] at prev ⊢
      rw [← r.back_index (preceding_lt inside), prev]
      rfl

/-- Two relistings one after the other. -/
def trans (r : Relisting ring ring') (s : Relisting ring' ring'') : Relisting ring ring'' where
  flipped := xor r.flipped s.flipped
  index i := s.index (r.index i)
  back i := r.back (s.back i)
  length := s.length.trans r.length
  lt below := by
    have inside := s.lt (r.length.symm ▸ r.lt below)
    rwa [r.length] at inside
  back_lt below := by
    have inside := s.back_lt (r.length.symm ▸ below)
    rw [r.length] at inside
    exact r.back_lt inside
  back_index below := by
    rw [s.back_index (r.length.symm ▸ r.lt below), r.back_index below]
  index_back below := by
    have inside := s.back_lt (r.length.symm ▸ below)
    rw [r.length] at inside
    rw [r.index_back inside, s.index_back (r.length.symm ▸ below)]
  vertex below := by rw [s.vertex (r.length.symm ▸ r.lt below), r.vertex below]
  next := by
    intro i below
    have next := s.next (r.length.symm ▸ r.lt below)
    have prev := s.prev (r.length.symm ▸ r.lt below)
    rw [r.length] at next prev
    rw [r.next below]
    cases r.flipped with
    | false => simpa using next
    | true =>
      cases flip : s.flipped with
      | false => simpa [flip] using prev
      | true => simpa [flip] using prev

/-- The place, in a list of `size` elements rotated by `k` places, of the element `i`. -/
def rotated (size k i : Nat) : Nat := if k ≤ i then i - k else i + size - k

/-- The element at the place `i` of a list rotated by `k` places. -/
def unrotated (size k i : Nat) : Nat := if i + k < size then i + k else i + k - size

section

variable {size k i : Nat}

theorem rotated_lt (few : k ≤ size) (below : i < size) : rotated size k i < size := by
  unfold rotated
  split <;> omega

theorem unrotated_lt (few : k ≤ size) (below : i < size) : unrotated size k i < size := by
  unfold unrotated
  split <;> omega

theorem unrotated_rotated (few : k ≤ size) (below : i < size) :
    unrotated size k (rotated size k i) = i := by
  unfold rotated unrotated
  split <;> split <;> omega

theorem rotated_unrotated (few : k ≤ size) (below : i < size) :
    rotated size k (unrotated size k i) = i := by
  unfold rotated unrotated
  split <;> split <;> omega

/-- Turning a listing keeps the order around. -/
theorem rotated_following (few : k ≤ size) (below : i < size) :
    rotated size k (following size i) = following size (rotated size k i) := by
  unfold rotated following
  split_ifs <;> omega

theorem getElem?_rotated {ring : Ring} (few : k ≤ ring.length) (below : i < ring.length) :
    (ring.rotate k)[rotated ring.length k i]? = ring[i]? := by
  rw [List.getElem?_rotate (rotated_lt few below), rotated]
  split
  · rename_i late
    rw [Nat.sub_add_cancel late, Nat.mod_eq_of_lt below]
  · rw [Nat.sub_add_cancel (by omega), Nat.add_mod_right, Nat.mod_eq_of_lt below]

end

/-- A list rotated by `k` places. -/
def rotation (ring : Ring) {k : Nat} (few : k ≤ ring.length) :
    Relisting ring (ring.rotate k) where
  flipped := false
  index := rotated ring.length k
  back := unrotated ring.length k
  length := List.length_rotate ring k
  lt := rotated_lt few
  back_lt := unrotated_lt few
  back_index := unrotated_rotated few
  index_back := rotated_unrotated few
  vertex := getElem?_rotated few
  next := rotated_following few

/-- The place, in a list of `size` elements in reverse, of the element `i`. -/
def mirrored (size i : Nat) : Nat := size - 1 - i

section

variable {size i : Nat}

theorem mirrored_lt (below : i < size) : mirrored size i < size := by
  unfold mirrored
  omega

theorem mirrored_mirrored (below : i < size) : mirrored size (mirrored size i) = i := by
  unfold mirrored
  omega

/-- Mirroring a listing turns its order around. -/
theorem mirrored_following (below : i < size) :
    mirrored size (following size i) = preceding size (mirrored size i) := by
  unfold mirrored following preceding
  split_ifs <;> omega

theorem getElem?_mirrored {ring : Ring} (below : i < ring.length) :
    ring.reverse[mirrored ring.length i]? = ring[i]? := by
  rw [List.getElem?_reverse (mirrored_lt below)]
  exact congrArg (ring[·]?) (mirrored_mirrored below)

end

/-- A list in reverse. -/
def reversal (ring : Ring) : Relisting ring ring.reverse where
  flipped := true
  index := mirrored ring.length
  back := mirrored ring.length
  length := List.length_reverse
  lt := mirrored_lt
  back_lt := mirrored_lt
  back_index := mirrored_mirrored
  index_back := mirrored_mirrored
  vertex := getElem?_mirrored
  next := mirrored_following

/-- A ring listed from another vertex, in either direction, is a relisting. -/
theorem of_isRotated (listed : ring'.IsRotated ring ∨ ring'.IsRotated ring.reverse) :
    Nonempty (Relisting ring ring') := by
  rcases listed with rotated | rotated
  · obtain ⟨k, few, rfl⟩ := List.isRotated_iff_mod.1 rotated.symm
    exact ⟨rotation ring few⟩
  · obtain ⟨k, few, rfl⟩ := List.isRotated_iff_mod.1 rotated.symm
    exact ⟨(reversal ring).trans (rotation ring.reverse few)⟩

end Relisting

/-! ## Rings off the prime meridian -/

/-- The vertex with an index. -/
def vertexAt (ring : Ring) (i : Nat) : Coord := ring[i]?.getD .origin

/-- The crossing on the edge that leaves the vertex `i`, if it changes hemisphere. -/
def edgeCrossing (ring : Ring) (i : Nat) : Crossing :=
  .ofEdge (vertexAt ring i).hemisphere i (vertexAt ring i) (vertexAt ring (following ring.length i))

/-- The edge that leaves the vertex `i` changes hemisphere. -/
def Changes (ring : Ring) (i : Nat) : Prop :=
  Opposed (vertexAt ring i) (vertexAt ring (following ring.length i))

/-- An edge between vertices off the prime meridian leaves if its ends are opposed. -/
theorem leaves_hemisphere_iff {a b : Coord} : leaves a.hemisphere b = true ↔ Opposed a b := by
  rw [leaves_iff, Opposed, @ne_comm _ b.hemisphere a.hemisphere]

theorem Opposed.swap {a b : Coord} (opposed : Opposed a b) : Opposed b a :=
  ⟨opposed.2.1, opposed.1, opposed.2.2.symm⟩

/-- The vertices are finite and off the prime meridian, and no two crossings of the edges lie at the
same place along the meridian circle. -/
structure Cuttable (ring : Ring) : Prop where
  finite : ∀ c ∈ ring, c.IsFinite
  off : ∀ c ∈ ring, c.hemisphere ≠ 0
  distinct : (Arena.ofRings [ring]).crossings.Pairwise fun c d => (c.key == d.key) = false

section

variable {ring : Ring} {i : Nat}

theorem getElem?_eq_vertexAt (below : i < ring.length) : ring[i]? = some (vertexAt ring i) := by
  rw [vertexAt, List.getElem?_eq_getElem below]
  rfl

theorem vertexAt_mem (below : i < ring.length) : vertexAt ring i ∈ ring :=
  List.mem_of_getElem? (getElem?_eq_vertexAt below)

/-- The node of a vertex of a ring off the prime meridian. -/
theorem exists_node (off : ∀ c ∈ ring, c.hemisphere ≠ 0) (below : i < ring.length) :
    ∃ node, (Arena.ofRings [ring])[i]? = some node ∧ node.coord = vertexAt ring i ∧
      node.side = (vertexAt ring i).hemisphere ∧ node.next = following ring.length i ∧
      (Changes ring i → node.crossing = some (edgeCrossing ring i)) ∧
      (¬Changes ring i → node.crossing = none) := by
  have inEdges : i < ring.edges.length := by rwa [Ring.edges, cyclicPairs_length]
  have edge : ring.edges[i]? = some ring.edges[i] := List.getElem?_eq_getElem inEdges
  obtain ⟨here, after⟩ := cyclicPairs_getElem? edge
  have alone : Arena.ofRings [ring] = ringNodes 0 ring := List.append_nil _
  have first : ring.edges[i].1 = vertexAt ring i := by rw [vertexAt, here]; rfl
  have second : ring.edges[i].2 = vertexAt ring (following ring.length i) := by
    rw [vertexAt, after]
    rfl
  have side : ringSide ring i = (vertexAt ring i).hemisphere := by
    rw [← first]
    exact ((liesIn_ringSide here).resolve_left (off _ (List.mem_of_getElem? here))).symm
  refine ⟨_, by rw [alone, ringNodes_getElem? edge], first, side, ?_, ?_, ?_⟩
  · rw [nodeAt_next, Nat.zero_add]
  · intro changes
    rw [nodeAt_crossing, side, first, second, leaves_hemisphere_iff, Nat.zero_add]
    exact ⟨changes, rfl⟩
  · intro keeps
    rw [nodeAt_crossing_none, side, second, ← Bool.not_eq_true, leaves_hemisphere_iff]
    exact keeps

theorem lt_of_node {node : Node} (place : (Arena.ofRings [ring])[i]? = some node) :
    i < ring.length := by
  have below := (List.getElem?_eq_some_iff.1 place).1
  have alone : Arena.ofRings [ring] = ringNodes 0 ring := List.append_nil _
  rwa [alone, ringNodes_length] at below

/-- The crossing of a node is that of an edge that changes hemisphere. -/
theorem changes_of_node (off : ∀ c ∈ ring, c.hemisphere ≠ 0) {node : Node} {c : Crossing}
    (place : (Arena.ofRings [ring])[i]? = some node) (owned : node.crossing = some c) :
    Changes ring i ∧ c = edgeCrossing ring i := by
  obtain ⟨node', place', -, -, -, changes, keeps⟩ := exists_node off (lt_of_node place)
  obtain rfl := Option.some.inj (place.symm.trans place')
  by_cases change : Changes ring i
  · exact ⟨change, Option.some.inj (owned.symm.trans (changes change))⟩
  · rw [keeps change] at owned
    cases owned

theorem not_changes_of_node (off : ∀ c ∈ ring, c.hemisphere ≠ 0) {node : Node}
    (place : (Arena.ofRings [ring])[i]? = some node) (none : node.crossing = none) :
    ¬Changes ring i ∧ node.next = following ring.length i := by
  obtain ⟨node', place', -, -, next, changes, -⟩ := exists_node off (lt_of_node place)
  obtain rfl := Option.some.inj (place.symm.trans place')
  refine ⟨fun change => ?_, next⟩
  rw [changes change] at none
  cases none

/-- The crossings of a ring are those of its edges that change hemisphere. -/
theorem mem_crossings_iff (off : ∀ c ∈ ring, c.hemisphere ≠ 0) {c : Crossing} :
    c ∈ (Arena.ofRings [ring]).crossings ↔
      ∃ i < ring.length, Changes ring i ∧ c = edgeCrossing ring i := by
  constructor
  · intro member
    obtain ⟨node, inArena, crossing⟩ := List.mem_filterMap.1 member
    obtain ⟨i, place⟩ := List.getElem?_of_mem inArena
    exact ⟨i, lt_of_node place, changes_of_node off place crossing⟩
  · rintro ⟨i, below, change, rfl⟩
    obtain ⟨node, place, -, -, -, changes, -⟩ := exists_node off below
    exact mem_crossings place (changes change)

theorem nodup_vertices (ring : Ring) :
    ((Arena.ofRings [ring]).crossings.map Crossing.vertex).Nodup := by
  have linked := ofRings_linked [ring]
  have sublist := @crossings_sublist (Arena.ofRings [ring]) 0 (by
    intro i node c found crossing
    rw [linked.vertex found crossing, Nat.zero_add])
  exact sublist.nodup List.nodup_range'

end

/-! ## Crossings of the same edge -/

/-- Crossings at the same place. -/
structure Crossing.Alike (c d : Crossing) : Prop where
  prime : d.prime = c.prime
  lat : (d.lat == c.lat) = true

/-- Crossings that are alike put their points at the same spots. -/
theorem Crossing.Alike.spot_point {c d : Crossing} (alike : c.Alike d) (side : Int) :
    (d.point side).spot = (c.point side).spot := by
  apply Coord.spot_eq_of_same
  rw [Coord.same, Bool.and_eq_true]
  refine ⟨alike.lat, ?_⟩
  simp only [Crossing.point, alike.prime]
  split
  · decide +kernel
  · split <;> decide +kernel

/-- The end of the circle from which a place on the prime meridian is measured. -/
theorem isFinite_end (x : Float) : (if x < 0 then -Angle.pi else Angle.pi).isFinite = true := by
  split <;> decide +kernel

theorem isFinite_of_within {x : Float} (within : Within (Angle.pi / 2) x) : x.isFinite = true :=
  within.isFinite isFinite_half_pi

theorem Crossing.isNumber_key {c : Crossing} (within : Within (Angle.pi / 2) c.lat) :
    IsNumber c.key := by
  unfold Crossing.key
  split
  · exact (rank_sub (isFinite_end c.lat) (isFinite_of_within within)).1
  · exact (within_iff.1 within).2.1

theorem Crossing.Alike.rank_key {c d : Crossing} (alike : c.Alike d)
    (cWithin : Within (Angle.pi / 2) c.lat) (dWithin : Within (Angle.pi / 2) d.lat) :
    rank d.key = rank c.key := by
  obtain ⟨-, -, ranks⟩ := beq_iff_rank.1 alike.lat
  have cFinite := isFinite_of_within cWithin
  have dFinite := isFinite_of_within dWithin
  have ends : (if d.lat < 0 then -Angle.pi else Angle.pi) =
      if c.lat < 0 then -Angle.pi else Angle.pi := by
    simp only [lt_zero_iff_rank, ranks]
  simp only [Crossing.key, alike.prime]
  split
  · rw [ends, (rank_sub (isFinite_end c.lat) cFinite).2, (rank_sub (isFinite_end c.lat) dFinite).2,
      value_eq_of_rank_eq dFinite cFinite ranks]
  · exact ranks

/-- An edge is crossed at the same place in both directions. -/
theorem alike_ofEdge_swap {a b : Coord} (aFinite : a.IsFinite) (bFinite : b.IsFinite)
    (opposed : Opposed a b) (side side' : Int) (i j : Nat) :
    (Crossing.ofEdge side i a b).Alike (.ofEdge side' j b a) := by
  refine ⟨?_, beq_iff_rank.2 ⟨isNumber_cutLatitude bFinite aFinite,
    isNumber_cutLatitude aFinite bFinite, rank_cutLatitude_swap aFinite bFinite opposed.2.2⟩⟩
  have difference := rank_sub aFinite.2 bFinite.2
  have difference' := rank_sub bFinite.2 aFinite.2
  have ranks : rank (b.lng - a.lng).abs = rank (a.lng - b.lng).abs := by
    rw [rank_abs, rank_abs, rank_sub_swap aFinite.2 bFinite.2, Int.natAbs_neg]
  apply decide_eq_decide.2
  rw [lt_iff_rank, lt_iff_rank, ranks]
  simp only [isNumber_abs difference.1, isNumber_abs difference'.1]

/-- The crossing of an edge is alike in both hemispheres and at every index. -/
theorem alike_ofEdge {a b : Coord} (aFinite : a.IsFinite) (bFinite : b.IsFinite)
    (side side' : Int) (i j : Nat) : (Crossing.ofEdge side i a b).Alike (.ofEdge side' j a b) := by
  have number := isNumber_cutLatitude aFinite bFinite
  exact ⟨rfl, beq_iff_rank.2 ⟨number, number, rfl⟩⟩

/-! ## Edges -/

namespace Relisting

variable {ring ring' : Ring} (r : Relisting ring ring') {i : Nat}

/-- The end of the edge `i` that its image begins at. -/
def tail (i : Nat) : Nat := if r.flipped then following ring.length i else i

/-- The end of the edge `i` that its image leads to. -/
def head (i : Nat) : Nat := if r.flipped then i else following ring.length i

/-- The image of the edge `i`. -/
def edge (i : Nat) : Nat := r.index (r.tail i)

theorem tail_lt (below : i < ring.length) : r.tail i < ring.length := by
  unfold tail
  split
  · exact following_lt below
  · exact below

theorem edge_lt (below : i < ring.length) : r.edge i < ring.length := r.lt (r.tail_lt below)

theorem following_edge (below : i < ring.length) :
    following ring.length (r.edge i) = r.index (r.head i) := by
  have next := r.next below
  unfold edge tail head
  cases flip : r.flipped with
  | false =>
    rw [flip] at next
    exact next.symm
  | true =>
    rw [flip, if_pos rfl] at next
    rw [if_pos rfl, if_pos rfl, next]
    exact following_preceding (r.lt below)

theorem symm_edge_edge (below : i < ring.length) : r.symm.edge (r.edge i) = i := by
  have start : r.symm.edge (r.edge i) =
      r.back (if r.flipped then following ring.length (r.edge i) else r.edge i) := by
    rw [← r.length]
    rfl
  rw [start, r.following_edge below, edge, tail, head]
  cases r.flipped with
  | false => exact r.back_index below
  | true => exact r.back_index below

theorem edge_symm_edge (below : i < ring.length) : r.edge (r.symm.edge i) = i :=
  r.symm.symm_edge_edge (r.length.symm ▸ below)

theorem vertexAt_index (below : i < ring.length) :
    vertexAt ring' (r.index i) = vertexAt ring i := by
  rw [vertexAt, r.vertex below, vertexAt]

/-- The ends of the image of an edge are those of the edge, perhaps exchanged. -/
theorem ends (below : i < ring.length) : vertexAt ring' (r.edge i) = vertexAt ring (r.tail i) ∧
    vertexAt ring' (following ring'.length (r.edge i)) = vertexAt ring (r.head i) := by
  have inside : r.head i < ring.length := by
    unfold head
    split
    · exact below
    · exact following_lt below
  rw [r.length, r.following_edge below]
  exact ⟨r.vertexAt_index (r.tail_lt below), r.vertexAt_index inside⟩

/-- Relisting keeps the edges that change hemisphere. -/
theorem changes_iff (below : i < ring.length) : Changes ring' (r.edge i) ↔ Changes ring i := by
  obtain ⟨first, second⟩ := r.ends below
  unfold Changes
  rw [first, second, tail, head]
  cases r.flipped with
  | false => exact Iff.rfl
  | true => exact ⟨Opposed.swap, Opposed.swap⟩

/-- The crossing on the image of the edge of a crossing. -/
def crossing (c : Crossing) : Crossing := edgeCrossing ring' (r.edge c.vertex)

/-- Relisting keeps crossings alike. -/
theorem alike_crossing (finite : ∀ c ∈ ring, c.IsFinite) (below : i < ring.length)
    (changes : Changes ring i) :
    (edgeCrossing ring i).Alike (r.crossing (edgeCrossing ring i)) := by
  obtain ⟨first, second⟩ := r.ends below
  have here := finite _ (vertexAt_mem below)
  have there := finite _ (vertexAt_mem (following_lt below))
  change (edgeCrossing ring i).Alike (edgeCrossing ring' (r.edge i))
  unfold edgeCrossing
  rw [first, second, tail, head]
  cases r.flipped with
  | false => exact alike_ofEdge here there _ _ _ _
  | true => exact alike_ofEdge_swap here there changes _ _ _ _

end Relisting

/-! ## Crossings in order -/

theorem within_edgeCrossing {ring : Ring} (finite : ∀ c ∈ ring, c.IsFinite) {i : Nat}
    (below : i < ring.length) : Within (Angle.pi / 2) (edgeCrossing ring i).lat :=
  within_cutLatitude (finite _ (vertexAt_mem below)) (finite _ (vertexAt_mem (following_lt below)))

section

variable {ring ring' : Ring} (r : Relisting ring ring')

theorem Relisting.mem_iff (r : Relisting ring ring') : ∀ c, c ∈ ring' ↔ c ∈ ring := by
  have half : ∀ {ring ring' : Ring}, Relisting ring ring' → ∀ c ∈ ring, c ∈ ring' := by
    intro ring ring' r c member
    obtain ⟨i, below, rfl⟩ := List.getElem_of_mem member
    exact List.mem_of_getElem? ((r.vertex below).trans (List.getElem?_eq_getElem below))
  exact fun c => ⟨half r.symm c, half r c⟩

theorem Cuttable.within_lat (cuttable : Cuttable ring) {c : Crossing}
    (member : c ∈ (Arena.ofRings [ring]).crossings) : Within (Angle.pi / 2) c.lat := by
  obtain ⟨i, below, -, rfl⟩ := (mem_crossings_iff cuttable.off).1 member
  exact within_edgeCrossing cuttable.finite below

theorem Cuttable.alike (cuttable : Cuttable ring) {c : Crossing}
    (member : c ∈ (Arena.ofRings [ring]).crossings) : c.Alike (r.crossing c) := by
  obtain ⟨i, below, changes, rfl⟩ := (mem_crossings_iff cuttable.off).1 member
  exact r.alike_crossing cuttable.finite below changes

/-- A relisting maps the crossings of one ring to those of the other. -/
theorem Relisting.crossings_perm (off : ∀ c ∈ ring, c.hemisphere ≠ 0) :
    (Arena.ofRings [ring']).crossings.Perm ((Arena.ofRings [ring]).crossings.map r.crossing) := by
  have off' : ∀ c ∈ ring', c.hemisphere ≠ 0 := fun c member => off c ((r.mem_iff c).1 member)
  rw [List.perm_ext_iff_of_nodup (List.Nodup.of_map _ (nodup_vertices ring'))]
  · intro c
    rw [mem_crossings_iff off', List.mem_map]
    constructor
    · rintro ⟨i, below, changes, rfl⟩
      rw [r.length] at below
      have inside : r.symm.edge i < ring.length := by
        have := r.symm.edge_lt (r.length.symm ▸ below)
        rwa [r.length] at this
      have image := r.edge_symm_edge below
      rw [← image, r.changes_iff inside] at changes
      refine ⟨edgeCrossing ring (r.symm.edge i), ?_, congrArg (edgeCrossing ring') image⟩
      exact (mem_crossings_iff off).2 ⟨_, inside, changes, rfl⟩
    · rintro ⟨d, member, rfl⟩
      obtain ⟨i, below, changes, rfl⟩ := (mem_crossings_iff off).1 member
      exact ⟨r.edge i, r.length.symm ▸ r.edge_lt below, (r.changes_iff below).2 changes, rfl⟩
  · -- the image of an edge determines the edge
    apply List.Nodup.map_on _ (List.Nodup.of_map _ (nodup_vertices ring))
    intro c first d second equal
    obtain ⟨i, below, -, rfl⟩ := (mem_crossings_iff off).1 first
    obtain ⟨j, below', -, rfl⟩ := (mem_crossings_iff off).1 second
    have edges : r.edge i = r.edge j := congrArg Crossing.vertex equal
    rw [← r.symm_edge_edge below, edges, r.symm_edge_edge below']

theorem Cuttable.rank_key (cuttable : Cuttable ring) {c : Crossing}
    (member : c ∈ (Arena.ofRings [ring]).crossings) : IsNumber c.key ∧ IsNumber (r.crossing c).key ∧
      rank (r.crossing c).key = rank c.key := by
  have finite' : ∀ c ∈ ring', c.IsFinite :=
    fun c member => cuttable.finite c ((r.mem_iff c).1 member)
  have alike := cuttable.alike r member
  have within := cuttable.within_lat member
  obtain ⟨i, below, -, rfl⟩ := (mem_crossings_iff cuttable.off).1 member
  have within' : Within (Angle.pi / 2) (r.crossing (edgeCrossing ring i)).lat :=
    within_edgeCrossing finite' (r.length.symm ▸ r.edge_lt below)
  exact ⟨Crossing.isNumber_key within, Crossing.isNumber_key within',
    alike.rank_key within within'⟩

theorem beq_eq_false_symm {x y : Float} (differ : (x == y) = false) : (y == x) = false := by
  rw [← Bool.not_eq_true, beq_iff_rank] at *
  rintro ⟨yNumber, xNumber, equal⟩
  exact differ ⟨xNumber, yNumber, equal.symm⟩

theorem beq_eq_false_of_ranks {x y x' y' : Float} (xNumber : IsNumber x) (yNumber : IsNumber y)
    (xRank : rank x' = rank x) (yRank : rank y' = rank y) (differ : (x == y) = false) :
    (x' == y') = false := by
  rw [← Bool.not_eq_true, beq_iff_rank] at *
  rintro ⟨-, -, equal⟩
  exact differ ⟨xNumber, yNumber, xRank.symm.trans (equal.trans yRank)⟩

/-- Whether a ring can be cut does not depend on how it is listed. -/
theorem Cuttable.relist (cuttable : Cuttable ring) (r : Relisting ring ring') : Cuttable ring' where
  finite c member := cuttable.finite c ((r.mem_iff c).1 member)
  off c member := cuttable.off c ((r.mem_iff c).1 member)
  distinct := by
    rw [(r.crossings_perm cuttable.off).pairwise_iff beq_eq_false_symm, List.pairwise_map]
    apply cuttable.distinct.imp_of_mem
    intro c d first second differ
    obtain ⟨cNumber, -, cRank⟩ := cuttable.rank_key r first
    obtain ⟨dNumber, -, dRank⟩ := cuttable.rank_key r second
    exact beq_eq_false_of_ranks cNumber dNumber cRank dRank differ

/-- The crossings of a ring along the meridian circle. -/
def ringMeridian (ring : Ring) : Meridian := .ofCrossings (Arena.ofRings [ring]).crossings

theorem mem_ringMeridian {c : Crossing} :
    c ∈ ringMeridian ring ↔ c ∈ (Arena.ofRings [ring]).crossings :=
  (Meridian.ofCrossings_perm _).mem_iff

/-- Crossings at different places stand in the order of their places. -/
theorem Cuttable.sorted (cuttable : Cuttable ring) :
    (ringMeridian ring).Pairwise fun c d => rank c.key < rank d.key := by
  have total : Std.Total fun c d : Crossing => totalLe c.key d.key = true := by
    constructor
    intro c d
    simp only [totalLe, decide_eq_true_eq]
    omega
  have transitive : IsTrans Crossing fun c d => totalLe c.key d.key = true := by
    constructor
    intro c d e
    simp only [totalLe, decide_eq_true_eq]
    omega
  have ordered := List.pairwise_insertionSort
    (fun c d : Crossing => totalLe c.key d.key = true) (Arena.ofRings [ring]).crossings
  rw [← Meridian.ofCrossings_eq_insertionSort] at ordered
  have differ := ((Meridian.ofCrossings_perm _).pairwise_iff beq_eq_false_symm).2 cuttable.distinct
  apply (ordered.and differ).imp_of_mem
  rintro c d first second ⟨le, apart⟩
  have cNumber := Crossing.isNumber_key (cuttable.within_lat (mem_ringMeridian.1 first))
  have dNumber := Crossing.isNumber_key (cuttable.within_lat (mem_ringMeridian.1 second))
  rw [← Bool.not_eq_true, beq_iff_rank] at apart
  exact (totalLe_iff_rank cNumber dNumber fun equal => apart ⟨cNumber, dNumber, equal⟩).1 le

/-- A relisting keeps the order of the crossings along the meridian circle. -/
theorem Cuttable.meridian_eq (cuttable : Cuttable ring) :
    ringMeridian ring' = (ringMeridian ring).map r.crossing := by
  refine @List.Perm.eq_of_pairwise _ (fun c d : Crossing => rank c.key < rank d.key) _ _
    ?_ (cuttable.relist r).sorted ?_ ?_
  · intro c d _ _ less greater
    omega
  · rw [List.pairwise_map]
    apply cuttable.sorted.imp_of_mem
    intro c d first second less
    rw [(cuttable.rank_key r (mem_ringMeridian.1 first)).2.2,
      (cuttable.rank_key r (mem_ringMeridian.1 second)).2.2]
    exact less
  · exact (Meridian.ofCrossings_perm _).trans ((r.crossings_perm cuttable.off).trans
      ((Meridian.ofCrossings_perm _).symm.map _))

theorem Cuttable.even (cuttable : Cuttable ring) (r : Relisting ring ring')
    (even : Even (Arena.ofRings [ring]).crossings.length) :
    Even (Arena.ofRings [ring']).crossings.length := by
  rwa [(r.crossings_perm cuttable.off).length_eq, List.length_map]

/-- A relisting maps partners to partners. -/
theorem Cuttable.partner_eq (cuttable : Cuttable ring)
    (even : Even (Arena.ofRings [ring]).crossings.length) {c d : Crossing}
    (member : c ∈ ringMeridian ring) (partner : (ringMeridian ring).partner? c = some d) :
    (ringMeridian ring').partner? (r.crossing c) = some (r.crossing d) := by
  have paired : (ringMeridian ring).Paired := (ofRings_linked [ring]).paired even
  have paired' : (ringMeridian ring').Paired :=
    (ofRings_linked [ring']).paired (cuttable.even r even)
  obtain ⟨k, place⟩ := List.getElem?_of_mem member
  rw [Meridian.partner?_eq paired place] at partner
  have place' : (ringMeridian ring')[k]? = some (r.crossing c) := by
    rw [cuttable.meridian_eq r, List.getElem?_map, place]
    rfl
  rw [Meridian.partner?_eq paired' place', cuttable.meridian_eq r, List.getElem?_map, partner]
  rfl

end

/-! ## Ways -/

section

variable {ring ring' : Ring} (r : Relisting ring ring') {side : Int}

/-- The image of a heading. -/
def Relisting.heading (h : Heading) : Heading := ⟨r.index h.index, xor h.forward r.flipped⟩

/-- A relisting maps an edge within a hemisphere to such an edge. -/
theorem Relisting.joined_along (off : ∀ c ∈ ring, c.hemisphere ≠ 0) {meridian : Meridian} {i : Nat}
    (below : i < ring.length) (keeps : ¬Changes ring i) :
    Joined (Arena.ofRings [ring']) meridian side (r.heading ⟨i, true⟩) []
      (r.heading ⟨following ring.length i, false⟩) := by
  have off' : ∀ c ∈ ring', c.hemisphere ≠ 0 := fun c member => off c ((r.mem_iff c).1 member)
  have inside : r.edge i < ring'.length := r.length.symm ▸ r.edge_lt below
  obtain ⟨node, place, -, -, next, -, none⟩ := exists_node off' inside
  have uncrossed := none (mt (r.changes_iff below).1 keeps)
  rw [r.length, r.following_edge below] at next
  cases flip : r.flipped with
  | false =>
    have along := @Joined.along _ meridian side _ _ place uncrossed
    simpa [Relisting.heading, Relisting.edge, Relisting.tail, Relisting.head, flip, next]
      using along
  | true =>
    have against := @Joined.against _ meridian side _ _ place uncrossed
    simpa [Relisting.heading, Relisting.edge, Relisting.tail, Relisting.head, flip, next]
      using against

/-- A relisting maps the way out by a crossing to the way out by its image. -/
theorem Relisting.heading_wayOut (tagged : Tagged (Arena.ofRings [ring]))
    (tagged' : Tagged (Arena.ofRings [ring'])) (off : ∀ c ∈ ring, c.hemisphere ≠ 0) {i : Nat}
    (below : i < ring.length) (changes : Changes ring i) (isSide : side = 1 ∨ side = -1)
    {owner : Node} (place : (Arena.ofRings [ring])[i]? = some owner) :
    ∃ owner', (Arena.ofRings [ring'])[r.edge i]? = some owner' ∧
      owner'.crossing = some (r.crossing (edgeCrossing ring i)) ∧
      r.heading (wayOut side (edgeCrossing ring i) owner) =
        wayOut side (r.crossing (edgeCrossing ring i)) owner' := by
  have off' : ∀ c ∈ ring', c.hemisphere ≠ 0 := fun c member => off c ((r.mem_iff c).1 member)
  have inside : r.edge i < ring'.length := r.length.symm ▸ r.edge_lt below
  obtain ⟨node, here, -, nodeSide, next, crossed, -⟩ := exists_node off below
  obtain rfl := Option.some.inj (here.symm.trans place)
  obtain ⟨owner', place', -, ownerSide, next', crossed', -⟩ := exists_node off' inside
  have owned := crossed changes
  have owned' : owner'.crossing = some (r.crossing (edgeCrossing ring i)) :=
    crossed' ((r.changes_iff below).2 changes)
  refine ⟨owner', place', owned', ?_⟩
  rw [r.length, r.following_edge below] at next'
  rw [(r.ends below).1] at ownerSide
  have vertex' : (r.crossing (edgeCrossing ring i)).vertex = r.edge i := rfl
  rw [wayOut, wayOut, wayIn_eq tagged here owned isSide, wayIn_eq tagged' place' owned' isSide,
    nodeSide, ownerSide, vertex', next, next']
  have opposite : (vertexAt ring (following ring.length i)).hemisphere =
      -(vertexAt ring i).hemisphere := by
    obtain ⟨hereOff, thereOff, differ⟩ := changes
    rcases (vertexAt ring i).hemisphere_cases with h | h | h <;>
      rcases (vertexAt ring (following ring.length i)).hemisphere_cases with g | g | g <;> omega
  have cases := (vertexAt ring i).hemisphere_cases
  have hereOff := changes.1
  -- the walk leaves by the end of the edge in its hemisphere, whichever direction the edge has
  by_cases same : (vertexAt ring i).hemisphere = side
  · cases flip : r.flipped with
    | false =>
      simp [Relisting.edge, Relisting.tail, Relisting.heading, Heading.turned, flip, same,
        edgeCrossing, Crossing.ofEdge]
    | true =>
      have other : ¬-(vertexAt ring i).hemisphere = side := by omega
      simp [Relisting.tail, Relisting.head, Relisting.heading, Heading.turned, flip, opposite,
        if_pos same, if_neg other, edgeCrossing, Crossing.ofEdge]
  · cases flip : r.flipped with
    | false =>
      simp [Relisting.tail, Relisting.head, Relisting.heading, Heading.turned, flip, same]
    | true =>
      have other : -(vertexAt ring i).hemisphere = side := by omega
      simp [Relisting.edge, Relisting.tail, Relisting.heading, Heading.turned, flip, opposite,
        if_neg same, if_pos other]

/-- A relisting maps every way to a way past the same spots. -/
theorem Cuttable.joined (cuttable : Cuttable ring) (tagged : Tagged (Arena.ofRings [ring]))
    (tagged' : Tagged (Arena.ofRings [ring']))
    (even : Even (Arena.ofRings [ring]).crossings.length) (isSide : side = 1 ∨ side = -1)
    {h k : Heading} {via : List Coord}
    (joined : Joined (Arena.ofRings [ring]) (ringMeridian ring) side h via k) :
    ∃ via', Joined (Arena.ofRings [ring']) (ringMeridian ring') side (r.heading h) via'
      (r.heading k) ∧ via'.map Coord.spot = via.map Coord.spot := by
  have off := cuttable.off
  cases joined with
  | along place none =>
    obtain ⟨keeps, next⟩ := not_changes_of_node off place none
    rw [next]
    exact ⟨[], r.joined_along off (lt_of_node place) keeps, rfl⟩
  | against place none =>
    obtain ⟨keeps, next⟩ := not_changes_of_node off place none
    rw [next]
    exact ⟨[], (r.joined_along off (lt_of_node place) keeps).symm, rfl⟩
  | @seam c d owner other place owned place' owned' forth back differ =>
    have cBelow := lt_of_node place
    have dBelow := lt_of_node place'
    have cMember := mem_crossings place owned
    have dMember := mem_crossings place' owned'
    obtain ⟨cChanges, cEdge⟩ := changes_of_node off place owned
    obtain ⟨dChanges, dEdge⟩ := changes_of_node off place' owned'
    obtain ⟨owner', found, crossing, out⟩ :=
      r.heading_wayOut tagged tagged' off cBelow cChanges isSide place
    obtain ⟨other', found', crossing', out'⟩ :=
      r.heading_wayOut tagged tagged' off dBelow dChanges isSide place'
    rw [← cEdge] at crossing out
    rw [← dEdge] at crossing' out'
    have apart : (r.crossing d).vertex ≠ (r.crossing c).vertex := by
      intro equal
      have edges : r.edge d.vertex = r.edge c.vertex := equal
      apply differ
      rw [← r.symm_edge_edge dBelow, edges, r.symm_edge_edge cBelow]
    refine ⟨[(r.crossing c).point side, (r.crossing d).point side], ?_, ?_⟩
    · rw [out, out']
      exact .seam found crossing found' crossing'
        (cuttable.partner_eq r even (mem_ringMeridian.2 cMember) forth)
        (cuttable.partner_eq r even (mem_ringMeridian.2 dMember) back) apart
    · simp only [List.map_cons, List.map_nil, (cuttable.alike r cMember).spot_point,
        (cuttable.alike r dMember).spot_point]

end

end Antimeridian.Split
