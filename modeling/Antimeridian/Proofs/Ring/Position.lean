import Antimeridian.Proofs.Cut
import Antimeridian.Proofs.Ring.Listing
import Antimeridian.Ring.Position

/-!
# The position of a point does not depend on the listing

A scan along the edges of a ring stops at the first one that touches the arc by which the point
escapes.  All the same its result depends only on whether one touches the arc and on how many cross
it, not on the order in which they come.  So a ring may be listed from any vertex.  A repeated vertex
adds an edge without a length, which touches the arc only if the edge that leaves the vertex does.
-/

namespace Antimeridian

/-! ## Points almost equal to themselves -/

theorem Double.almostEqual_self {x : Float} (number : Double.IsNumber x) :
    Double.almostEqual x x = true := by
  rw [Double.almostEqual, Double.beq_iff_rank.2 ⟨number, number, rfl⟩, Bool.true_or]

theorem Vec3.almostEqual_self {c : Coord} (finite : c.IsFinite) :
    (Vec3.ofCoord c).almostEqual (Vec3.ofCoord c) = true := by
  have within := within_ofCoord finite
  have same : ∀ {x : Float}, Double.Within 1 x → Double.almostEqual x x = true :=
    fun bounded => Double.almostEqual_self (Double.within_iff.1 bounded).2.1
  rw [Vec3.almostEqual, same within.x, same within.y, same within.z]
  rfl

namespace Ring

/-! ## The scan -/

/-- How an edge of a ring meets the arc by which a point escapes.  An edge without a length meets
nothing, unless the point is its vertex. -/
def edgeMeeting (way : Arc) (edge : Vec3 × Vec3) : Arc.Meeting :=
  if way.first.almostEqual edge.1 then .touching
  else if edge.1.almostEqual edge.2 then .disjoint
  else Arc.meet ⟨edge.1, edge.2⟩ way

/-- A scan stops at an edge that touches, counts one that crosses and passes over any other. -/
theorem scan_cons (way : Arc) (crossings : Nat) (edge : Vec3 × Vec3) (rest : List (Vec3 × Vec3)) :
    scan way crossings (edge :: rest) =
      match edgeMeeting way edge with
      | .touching => .boundary
      | .crossing => scan way (crossings + 1) rest
      | .disjoint => scan way crossings rest := by
  rw [scan, edgeMeeting]
  split
  · rfl
  · split
    · rfl
    · rfl

/-- A scan comes to the boundary if any edge touches, wherever it stands.  Otherwise it has counted
all edges that cross, in addition to those counted before. -/
theorem scan_eq (way : Arc) (crossings : Nat) (edges : List (Vec3 × Vec3)) :
    scan way crossings edges =
      if .touching ∈ edges.map (edgeMeeting way) then .boundary
      else if (crossings + (edges.map (edgeMeeting way)).count .crossing) % 2 = 0 then .outside
      else .inside := by
  induction edges generalizing crossings with
  | nil => simp [scan]
  | cons edge rest ih =>
    rw [scan_cons, List.map_cons]
    cases meeting : edgeMeeting way edge with
    | touching => simp
    | crossing =>
      rw [List.count_cons_self, ← Nat.add_assoc, Nat.add_right_comm]
      simp only [ih, List.mem_cons, reduceCtorEq, false_or]
    | disjoint =>
      rw [List.count_cons_of_ne (by decide)]
      simp only [ih, List.mem_cons, reduceCtorEq, false_or]

/-! ## Meetings in any order -/

/-- How the edges of a ring, in order, meet an arc. -/
def meetings (ring : Ring) (way : Arc) : List Arc.Meeting :=
  ring.edges.map fun e => edgeMeeting way (Vec3.ofCoord e.1, Vec3.ofCoord e.2)

/-- The position of a point, given how the edges meet its way out. -/
def verdict (meetings : List Arc.Meeting) : Position :=
  if .touching ∈ meetings then .boundary
  else if meetings.count .crossing % 2 = 0 then .outside
  else .inside

/-- A point that passes the tests of hemisphere and box is placed by the meetings alone. -/
theorem locate_eq {ring : Ring} (several : ring.length ≠ 1) (side : Int) (box : Box) (c : Coord) :
    ring.locate side box c =
      if c.hemisphere ≠ 0 && c.hemisphere ≠ side then .outside
      else if !box.contains (.ofCoord c) then .outside
      else verdict (ring.meetings ⟨.ofCoord c, .ofCoord (escape side c)⟩) := by
  simp only [locate, if_neg several, scan_eq, Nat.zero_add, verdict, meetings, edges,
    cyclicPairs_map, List.map_map]
  rfl

/-- A position depends on the ring only through the verdict over its edges. -/
theorem locate_congr {ring other : Ring} (several : ring.length ≠ 1) (several' : other.length ≠ 1)
    (same : ∀ way, verdict (other.meetings way) = verdict (ring.meetings way)) (side : Int)
    (box : Box) (c : Coord) : other.locate side box c = ring.locate side box c := by
  rw [locate_eq several, locate_eq several', same]

/-- The verdict does not depend on the order of the meetings, nor on further ones in which nothing
happens or an arc is touched that is touched anyway. -/
theorem verdict_of_perm {ms others : List Arc.Meeting} (further : List Arc.Meeting)
    (perm : others.Perm (further ++ ms))
    (neutral : ∀ m ∈ further, m = .disjoint ∨ m = .touching ∧ .touching ∈ ms) :
    verdict others = verdict ms := by
  have touched : .touching ∈ others ↔ .touching ∈ ms := by
    rw [perm.mem_iff, List.mem_append]
    refine ⟨fun either => either.elim (fun member => ?_) id, Or.inr⟩
    exact (neutral _ member).elim (fun absurd => nomatch absurd) And.right
  have none : further.count .crossing = 0 := by
    refine List.count_eq_zero.2 fun member => ?_
    exact (neutral _ member).elim (fun absurd => nomatch absurd) fun touching => nomatch touching.1
  have crossed : others.count .crossing = ms.count .crossing := by
    rw [perm.count_eq, List.count_append, none, Nat.zero_add]
  simp only [verdict, touched, crossed]

/-! ## Listings -/

theorem verdict_rotate (ring : Ring) (k : Nat) (way : Arc) :
    verdict (meetings (ring.rotate k) way) = verdict (ring.meetings way) := by
  apply verdict_of_perm []
  · rw [meetings, edges_rotate, List.map_rotate]
    exact List.rotate_perm _ k
  · exact fun m member => nomatch member

/-- An edge from a vertex to itself meets nothing, unless the edge that leaves the vertex is touched
there. -/
theorem edgeMeeting_loop {ring : Ring} {v : Coord} (inside : v ∈ ring) (finite : v.IsFinite)
    (way : Arc) : edgeMeeting way (Vec3.ofCoord v, Vec3.ofCoord v) = .disjoint ∨
      edgeMeeting way (Vec3.ofCoord v, Vec3.ofCoord v) = .touching ∧
        .touching ∈ ring.meetings way := by
  by_cases here : way.first.almostEqual (Vec3.ofCoord v) = true
  · have touching : ∀ w, edgeMeeting way (Vec3.ofCoord v, w) = .touching := fun w => if_pos here
    rw [← edges_map_fst ring] at inside
    obtain ⟨e, edge, rfl⟩ := List.mem_map.1 inside
    exact Or.inr ⟨touching _, List.mem_map.2 ⟨e, edge, touching _⟩⟩
  · left
    rw [edgeMeeting, if_neg here, if_pos (Vec3.almostEqual_self finite)]

theorem verdict_of_stutters {ring other : Ring} (finite : ∀ v ∈ ring, v.IsFinite)
    (stutters : Stutters ring other) (way : Arc) :
    verdict (other.meetings way) = verdict (ring.meetings way) := by
  obtain ⟨loops, each, perm⟩ := edges_of_stutters stutters
  apply verdict_of_perm (loops.map fun e => edgeMeeting way (Vec3.ofCoord e.1, Vec3.ofCoord e.2))
  · rw [meetings, meetings, ← List.map_append]
    exact perm.map _
  · intro m member
    obtain ⟨e, loop, rfl⟩ := List.mem_map.1 member
    obtain ⟨v, inside, rfl⟩ := each e loop
    exact edgeMeeting_loop inside (finite v inside) way

/-- A point has the same position relative to a ring of two or more finite vertices, whatever vertex
the ring is listed from, and if vertices are repeated in place or the first one at the end. -/
theorem locate_relisted {ring : Ring} (several : 2 ≤ ring.length) (finite : ∀ v ∈ ring, v.IsFinite)
    (side : Int) (box : Box) (c : Coord) :
    (∀ k, Ring.locate (ring.rotate k) side box c = ring.locate side box c) ∧
    (∀ other, Stutters ring other → Ring.locate other side box c = ring.locate side box c) ∧
    Ring.locate (ring ++ ring.head?.toList) side box c = ring.locate side box c := by
  refine ⟨fun k => ?_, fun other stutters => ?_, ?_⟩
  · have size := List.length_rotate ring k
    exact locate_congr (by omega) (by omega) (verdict_rotate ring k) side box c
  · have size := stutters.length_le
    exact locate_congr (by omega) (by omega) (verdict_of_stutters finite stutters) side box c
  · cases ring with
    | nil => rfl
    | cons first rest =>
      refine locate_congr (by omega) (by simp) (fun way => ?_) side box c
      rw [List.head?_cons, Option.toList_some, append_first_eq_rotate, verdict_rotate]
      exact verdict_of_stutters finite (.again (.refl _)) way

/-- A triangle in the east. -/
def triangle : Ring := [⟨0.2, 1⟩, ⟨0.5, 3⟩, ⟨-0.2, 3⟩]

/-- A point inside `triangle`, listed from the second vertex, with vertices repeated, and closed. -/
theorem locate_relisted_triangle :
    Ring.locate [⟨0.5, 3⟩, ⟨-0.2, 3⟩, ⟨0.2, 1⟩] 1 .whole ⟨0.2, 2⟩ = .inside ∧
    Ring.locate [⟨0.2, 1⟩, ⟨0.5, 3⟩, ⟨0.5, 3⟩, ⟨-0.2, 3⟩, ⟨-0.2, 3⟩, ⟨-0.2, 3⟩] 1 .whole ⟨0.2, 2⟩ =
      .inside ∧
    Ring.locate [⟨0.2, 1⟩, ⟨0.5, 3⟩, ⟨-0.2, 3⟩, ⟨0.2, 1⟩] 1 .whole ⟨0.2, 2⟩ = .inside := by
  have finite : ∀ v ∈ triangle, v.IsFinite := by decide +kernel
  have inside : triangle.locate 1 .whole ⟨0.2, 2⟩ = .inside := by decide +kernel
  obtain ⟨rotated, repeated, closed⟩ :=
    locate_relisted (by simp [triangle]) finite 1 .whole ⟨0.2, 2⟩
  have stutters : Stutters triangle
      [⟨0.2, 1⟩, ⟨0.5, 3⟩, ⟨0.5, 3⟩, ⟨-0.2, 3⟩, ⟨-0.2, 3⟩, ⟨-0.2, 3⟩] :=
    .once _ (.again (.once _ (.again (.again (.once _ .nil)))))
  exact ⟨(rotated 1).trans inside, (repeated _ stutters).trans inside, closed.trans inside⟩

end Ring

end Antimeridian
