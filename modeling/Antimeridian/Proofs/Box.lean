import Antimeridian.Box
import Antimeridian.Proofs.Arc
import Antimeridian.Proofs.Double.Opposite
import Antimeridian.Proofs.Ring.Listing

/-!
# The vertices in the box of a ring

Merging keeps every point of both boxes, whatever becomes of a NaN bound, so the box of a ring holds
its first vertex and both ends of every edge that has a length.  An edge between almost equal points
adds nothing.  A vertex between two such edges can lie outside the box, and then it lies close to a
vertex inside: along each axis, no further than one gap for every edge that was left out.
-/

namespace Antimeridian
open Double

/-! ## Merging -/

namespace Double

variable {x y z : Float}

/-- How `least` and `greatest` choose: the first number, unless that is a NaN or the second one is
better. -/
theorem choice_cases (x y : Float) (better : Prop) [Decidable better] :
    (if x.isNaN then y else if better then y else x) = x ∧ IsNumber x ∧ ¬better ∨
      (if x.isNaN then y else if better then y else x) = y ∧ (IsNumber x → better) := by
  by_cases absent : x.isNaN = true
  · rw [if_pos absent]
    refine Or.inr ⟨rfl, fun number => ?_⟩
    rw [isNaN_eq_false_iff.2 number] at absent
    cases absent
  · have number : IsNumber x := isNaN_eq_false_iff.1 (eq_false_of_ne_true absent)
    rw [if_neg absent]
    by_cases second : better
    · exact Or.inr ⟨if_pos second, fun _ => second⟩
    · exact Or.inl ⟨if_neg second, number, second⟩

/-- The lesser of two doubles, with what its choice says about their ranks. -/
theorem least_cases (x y : Float) :
    least x y = x ∧ IsNumber x ∧ (IsNumber y → rank x ≤ rank y) ∨
      least x y = y ∧ (IsNumber x → IsNumber y ∧ rank y < rank x) := by
  rcases choice_cases x y (y < x) with ⟨first, number, notLess⟩ | ⟨second, less⟩
  · refine Or.inl ⟨first, number, fun yNumber => ?_⟩
    by_contra ranks
    exact notLess (lt_iff_rank.2 ⟨yNumber, number, by omega⟩)
  · refine Or.inr ⟨second, fun number => ?_⟩
    obtain ⟨yNumber, -, ranks⟩ := lt_iff_rank.1 (less number)
    exact ⟨yNumber, ranks⟩

/-- The greater of two doubles, with what its choice says about their ranks. -/
theorem greatest_cases (x y : Float) :
    greatest x y = x ∧ IsNumber x ∧ (IsNumber y → rank y ≤ rank x) ∨
      greatest x y = y ∧ (IsNumber x → IsNumber y ∧ rank x < rank y) := by
  rcases choice_cases x y (x < y) with ⟨first, number, notLess⟩ | ⟨second, less⟩
  · refine Or.inl ⟨first, number, fun yNumber => ?_⟩
    by_contra ranks
    exact notLess (lt_iff_rank.2 ⟨number, yNumber, by omega⟩)
  · refine Or.inr ⟨second, fun number => ?_⟩
    obtain ⟨-, yNumber, ranks⟩ := lt_iff_rank.1 (less number)
    exact ⟨yNumber, ranks⟩

theorem least_le_left (below : x ≤ z) : least x y ≤ z := by
  obtain ⟨xNumber, zNumber, le⟩ := le_iff_rank.1 below
  rcases least_cases x y with ⟨first, -⟩ | ⟨second, less⟩
  · rwa [first]
  · obtain ⟨yNumber, lt⟩ := less xNumber
    rw [second]
    exact le_iff_rank.2 ⟨yNumber, zNumber, by omega⟩

theorem least_le_right (below : y ≤ z) : least x y ≤ z := by
  obtain ⟨yNumber, zNumber, le⟩ := le_iff_rank.1 below
  rcases least_cases x y with ⟨first, xNumber, least⟩ | ⟨second, -⟩
  · have ranks := least yNumber
    rw [first]
    exact le_iff_rank.2 ⟨xNumber, zNumber, by omega⟩
  · rwa [second]

theorem le_greatest_left (above : z ≤ x) : z ≤ greatest x y := by
  obtain ⟨zNumber, xNumber, le⟩ := le_iff_rank.1 above
  rcases greatest_cases x y with ⟨first, -⟩ | ⟨second, greater⟩
  · rwa [first]
  · obtain ⟨yNumber, lt⟩ := greater xNumber
    rw [second]
    exact le_iff_rank.2 ⟨zNumber, yNumber, by omega⟩

theorem le_greatest_right (above : z ≤ y) : z ≤ greatest x y := by
  obtain ⟨zNumber, yNumber, le⟩ := le_iff_rank.1 above
  rcases greatest_cases x y with ⟨first, xNumber, greatest⟩ | ⟨second, -⟩
  · have ranks := greatest yNumber
    rw [first]
    exact le_iff_rank.2 ⟨zNumber, xNumber, by omega⟩
  · rwa [second]

end Double

namespace Extent

variable {a b : Extent} {x : Float}

theorem contains_iff : a.contains x = true ↔ a.lo ≤ x ∧ x ≤ a.hi := by
  simp [contains]

theorem contains_join_left (inside : a.contains x = true) : (a.join b).contains x = true := by
  rw [contains_iff] at *
  exact ⟨least_le_left inside.1, le_greatest_left inside.2⟩

theorem contains_join_right (inside : b.contains x = true) : (a.join b).contains x = true := by
  rw [contains_iff] at *
  exact ⟨least_le_right inside.1, le_greatest_right inside.2⟩

theorem contains_single (number : IsNumber x) : (single x).contains x = true := by
  have self : x ≤ x := le_iff_rank.2 ⟨number, number, le_refl _⟩
  exact contains_iff.2 ⟨self, self⟩

end Extent

/-- None of the three parts is a NaN. -/
structure Vec3.IsNumber (v : Vec3) : Prop where
  x : Double.IsNumber v.x
  y : Double.IsNumber v.y
  z : Double.IsNumber v.z

/-- The bounds of a vector have to be numbers for it to be within them. -/
theorem Vec3.Within.isNumber {bound : Float} {v : Vec3} (within : v.Within bound) : v.IsNumber :=
  ⟨(within_iff.1 within.x).2.1, (within_iff.1 within.y).2.1, (within_iff.1 within.z).2.1⟩

namespace Box

variable {a b : Box} {v w : Vec3}

theorem contains_iff : a.contains v = true ↔
    a.x.contains v.x = true ∧ a.y.contains v.y = true ∧ a.z.contains v.z = true := by
  simp [contains, and_assoc]

/-- A merged box keeps the points of the first box. -/
theorem contains_merge_left (inside : a.contains v = true) : (a.merge b).contains v = true := by
  rw [contains_iff] at *
  obtain ⟨x, y, z⟩ := inside
  exact ⟨Extent.contains_join_left x, Extent.contains_join_left y, Extent.contains_join_left z⟩

/-- A merged box keeps the points of the second box. -/
theorem contains_merge_right (inside : b.contains v = true) : (a.merge b).contains v = true := by
  rw [contains_iff] at *
  obtain ⟨x, y, z⟩ := inside
  exact ⟨Extent.contains_join_right x, Extent.contains_join_right y, Extent.contains_join_right z⟩

theorem contains_ofVec (number : v.IsNumber) : (ofVec v).contains v = true :=
  contains_iff.2 ⟨Extent.contains_single number.x, Extent.contains_single number.y,
    Extent.contains_single number.z⟩

/-! ## The box of an arc -/

theorem contains_foldl_merge (points : List Vec3) (inside : a.contains v = true) :
    (points.foldl (fun box p => box.merge (ofVec p)) a).contains v = true := by
  induction points generalizing a with
  | nil => exact inside
  | cons p points ih => exact ih (contains_merge_left inside)

/-- The box of an arc holds whatever the box of its two ends holds. -/
theorem contains_ofArc {arc : Arc}
    (inside : ((ofVec arc.first).merge (ofVec arc.last)).contains v = true) :
    (ofArc arc).contains v = true := by
  unfold ofArc
  dsimp only
  split
  · exact inside
  · exact contains_foldl_merge _ inside

theorem contains_ofArc_first (arc : Arc) (number : arc.first.IsNumber) :
    (ofArc arc).contains arc.first = true :=
  contains_ofArc (contains_merge_left (contains_ofVec number))

theorem contains_ofArc_last (arc : Arc) (number : arc.last.IsNumber) :
    (ofArc arc).contains arc.last = true :=
  contains_ofArc (contains_merge_right (contains_ofVec number))

end Box

/-! ## The edges that a box is made from -/

namespace Ring

/-- The edge joins points that are not almost equal. -/
def HasLength (e : Coord × Coord) : Prop :=
  (Vec3.ofCoord e.1).almostEqual (Vec3.ofCoord e.2) = false

instance (e : Coord × Coord) : Decidable (HasLength e) := inferInstanceAs (Decidable (_ = _))

/-- The vertices that the box of a ring is made from: the first one, and the ends of every edge that
has a length. -/
inductive Spanning (ring : Ring) : Coord → Prop
  | first {c : Coord} (head : ring.head? = some c) : Spanning ring c
  | start {e : Coord × Coord} (member : e ∈ ring.edges) (long : HasLength e) : Spanning ring e.1
  | stop {e : Coord × Coord} (member : e ∈ ring.edges) (long : HasLength e) : Spanning ring e.2

end Ring

namespace Box

/-- One step of the box of a ring: takes in an edge that has a length. -/
def extend (box : Box) (e : Coord × Coord) : Box :=
  if Ring.HasLength e then box.merge (ofCoords e.1 e.2) else box

/-- A ring of two vertices or more is taken in edge by edge, from its first vertex on. -/
theorem ofRing_eq_foldl (a b : Coord) (rest : Ring) :
    ofRing (a :: b :: rest) = (Ring.edges (a :: b :: rest)).foldl extend (ofVec (.ofCoord a)) := by
  have pairs := cyclicPairs_map Vec3.ofCoord (a :: b :: rest)
  rw [List.map_cons, List.map_cons] at pairs
  have step : (fun box e => extend box e) = fun (box : Box) (e : Coord × Coord) =>
      if (Vec3.ofCoord e.1).almostEqual (Vec3.ofCoord e.2) then box
      else box.merge (ofArc ⟨.ofCoord e.1, .ofCoord e.2⟩) := by
    funext box e
    by_cases close : (Vec3.ofCoord e.1).almostEqual (Vec3.ofCoord e.2) = true
    · rw [extend, if_neg (by simp [Ring.HasLength, close]), if_pos close]
    · have long : Ring.HasLength e := eq_false_of_ne_true close
      rw [extend, if_pos long, if_neg close, ofCoords]
  rw [ofRing, List.map_cons, List.map_cons]
  dsimp only
  rw [pairs, List.foldl_map]
  exact congrArg (fun f => List.foldl f _ _) step.symm

variable {box : Box} {v : Vec3} {e : Coord × Coord}

theorem contains_extend (inside : box.contains v = true) : (box.extend e).contains v = true := by
  unfold extend
  split
  · exact contains_merge_left inside
  · exact inside

/-- A box extended by an edge with a length contains both ends of it. -/
theorem contains_extend_ends (box : Box) (long : Ring.HasLength e)
    (first : (Vec3.ofCoord e.1).IsNumber) (last : (Vec3.ofCoord e.2).IsNumber) :
    (box.extend e).contains (.ofCoord e.1) = true ∧
      (box.extend e).contains (.ofCoord e.2) = true := by
  rw [extend, if_pos long]
  exact ⟨contains_merge_right (contains_ofArc_first ⟨_, _⟩ first),
    contains_merge_right (contains_ofArc_last ⟨_, _⟩ last)⟩

theorem contains_foldl_extend (edges : List (Coord × Coord)) (inside : box.contains v = true) :
    (edges.foldl extend box).contains v = true := by
  induction edges generalizing box with
  | nil => exact inside
  | cons e edges ih => exact ih (contains_extend inside)

/-- Once an edge with a length has been taken in, both of its ends stay inside. -/
theorem contains_foldl_extend_ends (box : Box) {edges : List (Coord × Coord)} (member : e ∈ edges)
    (long : Ring.HasLength e) (first : (Vec3.ofCoord e.1).IsNumber)
    (last : (Vec3.ofCoord e.2).IsNumber) :
    (edges.foldl extend box).contains (.ofCoord e.1) = true ∧
      (edges.foldl extend box).contains (.ofCoord e.2) = true := by
  induction edges generalizing box with
  | nil => cases member
  | cons d edges ih =>
    rcases List.mem_cons.1 member with rfl | later
    · obtain ⟨start, stop⟩ := contains_extend_ends box long first last
      exact ⟨contains_foldl_extend edges start, contains_foldl_extend edges stop⟩
    · exact ih _ later

/-- The box of a ring of finite vertices holds the vertices that it is made from. -/
theorem contains_ofRing_of_spanning {ring : Ring} (finite : ∀ c ∈ ring, c.IsFinite) {c : Coord}
    (spanning : ring.Spanning c) : (ofRing ring).contains (.ofCoord c) = true := by
  have number : ∀ c ∈ ring, (Vec3.ofCoord c).IsNumber := fun c member =>
    (within_ofCoord (finite c member)).isNumber
  match ring, spanning with
  | [a], spanning =>
    have only : c = a := by
      cases spanning with
      | first head => exact (Option.some.inj head).symm
      | start member _ => exact List.mem_singleton.1 (Ring.mem_of_mem_edges member).1
      | stop member _ => exact List.mem_singleton.1 (Ring.mem_of_mem_edges member).2
    subst only
    exact contains_ofVec (number c List.mem_cons_self)
  | a :: b :: rest, spanning =>
    rw [ofRing_eq_foldl]
    have ends : ∀ {e}, e ∈ Ring.edges (a :: b :: rest) → Ring.HasLength e → _ :=
      fun {e} member long => contains_foldl_extend_ends (ofVec (.ofCoord a)) member long
        (number _ (Ring.mem_of_mem_edges member).1) (number _ (Ring.mem_of_mem_edges member).2)
    cases spanning with
    | first head =>
      obtain rfl : a = c := Option.some.inj head
      exact contains_foldl_extend _ (contains_ofVec (number a List.mem_cons_self))
    | start member long => exact (ends member long).1
    | stop member long => exact (ends member long).2

end Box

/-! ## The vertices between short edges -/

/-- The gap between one and the next double, in units. -/
def Double.gap : Int := value (Float.ofBits 0x3cb0000000000000)

theorem Double.isFinite_gap : (Float.ofBits 0x3cb0000000000000).isFinite = true := by
  decide +kernel

theorem Double.gap_pos : 0 < gap := by
  have sign := sign_value isFinite_gap
  rw [show (rank (Float.ofBits 0x3cb0000000000000)).sign = 1 by decide +kernel] at sign
  exact Int.sign_eq_one_iff_pos.1 sign

/-- Finite doubles that are almost equal differ by less than the gap, without rounding. -/
theorem Double.value_sub_lt_gap {x y : Float} (xFinite : x.isFinite = true)
    (yFinite : y.isFinite = true) (close : almostEqual x y = true) :
    |value x - value y| < gap := by
  rcases Bool.or_eq_true_iff.1 close with equal | near
  · obtain ⟨-, -, ranks⟩ := beq_iff_rank.1 equal
    rw [value_eq_of_rank_eq xFinite yFinite ranks, sub_self, abs_zero]
    exact gap_pos
  · obtain ⟨-, difference⟩ := rank_sub xFinite yFinite
    obtain ⟨-, -, below⟩ := lt_iff_rank.1 (of_decide_eq_true near)
    rw [rank_abs, difference, rank_eq_nearest_value isFinite_gap] at below
    by_contra far
    -- rounding is monotone, so a difference of a whole gap would not be rounded below it
    have magnitudes : gap.natAbs ≤ (value x - value y).natAbs := by
      have positive := gap_pos
      rw [not_lt, Int.abs_eq_natAbs] at far
      omega
    have rounded := nearestBits_mono unitsPerOne_pos unitsPerOne_pos
      (Nat.mul_le_mul_right unitsPerOne magnitudes)
    rw [← natAbs_nearest, ← natAbs_nearest] at rounded
    have nonneg := nearest_nonneg gap_pos.le unitsPerOne
    rw [gap] at rounded nonneg
    omega

namespace Vec3

/-- Along each axis the two vectors lie at most so many gaps apart. -/
def Near (count : Nat) (v w : Vec3) : Prop :=
  ∀ axis, |v.exact axis - w.exact axis| ≤ count * gap

theorem Near.refl (v : Vec3) : Near 0 v v := by
  intro axis
  simp

/-- Small gaps add up. -/
theorem Near.trans {j k : Nat} {u v w : Vec3} (first : Near j u v) (second : Near k v w) :
    Near (j + k) u w := by
  intro axis
  calc |u.exact axis - w.exact axis|
      ≤ |u.exact axis - v.exact axis| + |v.exact axis - w.exact axis| := abs_sub_le _ _ _
    _ ≤ j * gap + k * gap := add_le_add (first axis) (second axis)
    _ = ↑(j + k) * gap := by push_cast; ring

/-- Vectors that are almost equal are one gap apart at most. -/
theorem near_of_almostEqual {v w : Vec3} (vWithin : v.Within 1) (wWithin : w.Within 1)
    (close : v.almostEqual w = true) : Near 1 w v := by
  obtain ⟨⟨x, y⟩, z⟩ := by simpa only [almostEqual, Bool.and_eq_true] using close
  have part : ∀ {s t : Float}, Double.Within 1 s → Double.Within 1 t →
      Double.almostEqual s t = true → |value t - value s| ≤ (1 : Nat) * gap := by
    intro s t sWithin tWithin close
    rw [abs_sub_comm, Nat.cast_one, one_mul]
    exact (value_sub_lt_gap (sWithin.isFinite isFinite_one) (tWithin.isFinite isFinite_one)
      close).le
  intro axis
  fin_cases axis
  · exact part vWithin.x wWithin.x x
  · exact part vWithin.y wWithin.y y
  · exact part vWithin.z wWithin.z z

end Vec3

namespace Ring

/-- Consecutive vertices of a ring are joined by an edge. -/
theorem mem_edges_of_getElem? {ring : Ring} {i : Nat} {a b : Coord} (here : ring[i]? = some a)
    (next : ring[i + 1]? = some b) : (a, b) ∈ ring.edges := by
  cases ring with
  | nil => cases here
  | cons first rest =>
    have after : (rest ++ [first])[i]? = some b := by
      rw [List.getElem?_cons_succ] at next
      rw [List.getElem?_append_left (List.getElem?_eq_some_iff.1 next).1, next]
    exact List.mem_of_getElem? (List.getElem?_zip_eq_some.2 ⟨here, after⟩)

/-- Going back from a vertex over edges without length leads to a vertex that the box is made from,
by as many gaps at most as edges are passed. -/
theorem exists_spanning_near {ring : Ring} (finite : ∀ c ∈ ring, c.IsFinite) {i : Nat} {c : Coord}
    (vertex : ring[i]? = some c) : ∃ j ≤ i, ∃ d, ring[j]? = some d ∧ ring.Spanning d ∧
      Vec3.Near (i - j) (.ofCoord c) (.ofCoord d) := by
  induction i generalizing c with
  | zero =>
    refine ⟨0, le_refl 0, c, vertex, .first ?_, Vec3.Near.refl _⟩
    rw [List.head?_eq_getElem?, vertex]
  | succ i ih =>
    have bound : i < ring.length := by
      have := (List.getElem?_eq_some_iff.1 vertex).1
      omega
    have before : ring[i]? = some ring[i] := List.getElem?_eq_getElem bound
    have member := mem_edges_of_getElem? before vertex
    by_cases long : HasLength (ring[i], c)
    · exact ⟨i + 1, le_refl _, c, vertex, .stop member long, by
        simpa using Vec3.Near.refl (.ofCoord c)⟩
    · obtain ⟨j, le, d, place, spanning, near⟩ := ih before
      refine ⟨j, by omega, d, place, spanning, ?_⟩
      have step := Vec3.near_of_almostEqual
        (within_ofCoord (finite _ (List.mem_of_getElem? before)))
        (within_ofCoord (finite _ (List.mem_of_getElem? vertex))) (Bool.not_eq_false _ ▸ long)
      rw [show i + 1 - j = 1 + (i - j) by omega]
      exact step.trans near

end Ring

namespace Box

/-- The box of a ring holds its first vertex and the ends of all edges that have a length.  Any
other vertex lies close to one of these: going back to it over edges without length, along each
axis by one gap for every such edge at most. -/
theorem contains_ofRing {ring : Ring} (finite : ∀ c ∈ ring, c.IsFinite) :
    (∀ c, ring.Spanning c → (ofRing ring).contains (.ofCoord c) = true) ∧
    ∀ i c, ring[i]? = some c → ∃ j ≤ i, ∃ d, ring[j]? = some d ∧
      ring.Spanning d ∧ Vec3.Near (i - j) (.ofCoord c) (.ofCoord d) :=
  ⟨fun _ spanning => contains_ofRing_of_spanning finite spanning,
    fun _ _ vertex => Ring.exists_spanning_near finite vertex⟩

/-- Two vertices on the equator, closer to each other than the gap. -/
def shortRing : Ring := [⟨0, 0⟩, ⟨0, 1e-16⟩]

/-- Of two vertices that are almost equal, the box of the ring contains one. -/
theorem contains_ofRing_shortRing : (∀ c ∈ shortRing, c.IsFinite) ∧
    (ofRing shortRing).contains (.ofCoord ⟨0, 0⟩) = true ∧
    ∃ j ≤ 1, ∃ d, shortRing[j]? = some d ∧ shortRing.Spanning d ∧
      Vec3.Near (1 - j) (.ofCoord ⟨0, 1e-16⟩) (.ofCoord d) := by
  have finite : ∀ c ∈ shortRing, c.IsFinite := by decide +kernel
  exact ⟨finite, (contains_ofRing finite).1 _ (.first rfl), (contains_ofRing finite).2 1 _ rfl⟩

/-- A vertex of a ring with finite vertices can lie outside the box of the ring. -/
theorem vertex_outside_ofRing : (∀ c ∈ shortRing, c.IsFinite) ∧
    ∃ c ∈ shortRing, (ofRing shortRing).contains (.ofCoord c) = false :=
  ⟨by decide +kernel, ⟨0, 1e-16⟩, by simp [shortRing], by decide +kernel⟩

end Box

end Antimeridian
