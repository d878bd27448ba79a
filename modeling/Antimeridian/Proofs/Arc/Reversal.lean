import Antimeridian.Proofs.Arc
import Antimeridian.Proofs.Vec

/-!
# Arcs followed the other way

Reversing an arc turns its normal around and leaves the bisector as it is.  Two tests of `meet`
still depend on the direction of the second arc.  On one great circle the first end that is found on
the other arc decides, so an arc that begins where the first one does and ends inside it is found to
touch it in one direction and to cross it in the other.  And the bisector test compares a point with
the first end alone, though rounding may put the two ends of an arc at different distances from its
bisector.  In all other cases both directions meet alike.
-/

namespace Antimeridian.Arc
open Double

/-- The arc from its last end to its first. -/
def reversed (arc : Arc) : Arc := ⟨arc.last, arc.first⟩

/-- The ends of the arc are numerically at the same distance from the bisector. -/
def Even (arc : Arc) : Prop := (arc.reaches.1 == arc.reaches.2) = true

/-- Rounding has put the ends at different distances from the bisector, and between them lies the
point, or the bound below which an arc counts as short. -/
def Blurs (arc : Arc) (p : Vec3) : Prop :=
  ¬(arc.reaches.1 < p.dot arc.bisector ↔ arc.reaches.2 < p.dot arc.bisector) ∨
    ¬(shortness < (1 - arc.reaches.1).abs ↔ shortness < (1 - arc.reaches.2).abs)

instance (arc : Arc) : Decidable arc.Even := inferInstanceAs (Decidable (_ = _))

instance (arc : Arc) (p : Vec3) : Decidable (arc.Blurs p) := inferInstanceAs (Decidable (_ ∨ _))

/-! ## Points seen from both ends -/

section

variable {arc : Arc} {p q : Vec3}

/-- An arc whose ends reach equally far looks the same from both of them. -/
theorem Even.not_blurs (even : arc.Even) (p : Vec3) : ¬arc.Blurs p := by
  have same : number arc.reaches.1 = number arc.reaches.2 := number_eq_of_beq even
  have reach : number (1 - arc.reaches.1) = number (1 - arc.reaches.2) := by
    simp [Double.sub_eq_add_neg, same]
  rintro (point | bound)
  · exact point (lt_congr same rfl)
  · exact bound (by rw [abs_congr reach])

/-- The bisector belongs to the arc and not to its direction. -/
theorem bisector_reversed (arc : Arc) : arc.reversed.bisector = arc.bisector := by
  rw [bisector, reversed, Vec3.add_comm, bisector]

/-- A point that is not blurred is seen alike from both ends. -/
theorem encloses_reversed (sharp : ¬arc.Blurs p) : arc.reversed.encloses p = arc.encloses p := by
  obtain ⟨point, bound⟩ := not_or.1 sharp
  rw [not_not] at point bound
  have reaches : arc.reversed.reaches = (arc.reaches.2, arc.reaches.1) := by
    simp only [Arc.reaches, bisector_reversed]
    rfl
  rw [encloses_eq, encloses_eq, bisector_reversed, reaches]
  simp only [← bound, ← point]
  rw [Vec3.dot_comm (p.sub arc.reversed.first).normalize]
  rfl

/-- A point that is not blurred is placed the same way from both ends. -/
theorem locate_reversed (sharp : ¬arc.Blurs p) : arc.reversed.locate p = arc.locate p := by
  rw [locate, encloses_reversed sharp, Bool.or_comm]
  rfl

/-- Points are placed alike if they differ by the sign of zeros only. -/
theorem locate_congr (same : p.Same q) : arc.locate p = arc.locate q := by
  have first : Vec3.Same arc.first arc.first := ⟨rfl, rfl, rfl⟩
  have last : Vec3.Same arc.last arc.last := ⟨rfl, rfl, rfl⟩
  have middle : Vec3.Same arc.bisector arc.bisector := ⟨rfl, rfl, rfl⟩
  have long := lt_congr (x := arc.reaches.1) rfl (same.dot middle)
  have short := lt_congr ((same.sub first).normalize.dot (same.sub last).normalize) (y := 0) rfl
  rw [locate, same.almostEqual first, same.almostEqual last, locate, encloses_eq, encloses_eq]
  simp only [long, short]

end

/-! ## Normals -/

section

variable {n m : Vec3} (v u : Arc)

/-- Reversing an arc turns the normal of its great circle around. -/
theorem normal_reversed (arc : Arc) : arc.reversed.normal.Same arc.normal.opposite :=
  (Vec3.cross_swap arc.first arc.last).normalize.trans (Vec3.normalize_opposite _)

/-- A great circle has two normals, and either of them tells which circle it is. -/
theorem sameCircle_opposite (turned : m.Same n.opposite) (normal : Vec3) :
    sameCircle normal m = sameCircle normal n := by
  have dots : number (normal.dot m) = Double.opposite (number (normal.dot n)) :=
    (Vec3.Same.dot ⟨rfl, rfl, rfl⟩ turned).trans (Vec3.number_dot_opposite normal n)
  rw [← number_neg] at dots
  rw [sameCircle, abs_congr dots, abs_neg, sameCircle]

/-- The ends are on the other sides of a circle whose normal is turned around. -/
theorem sides_opposite (turned : m.Same n.opposite) (arc : Arc) :
    arc.sides m = (-(arc.sides n).1, -(arc.sides n).2) := by
  have turns : ∀ p : Vec3, Double.sign (m.dot p) = -Double.sign (n.dot p) := by
    intro p
    have dots : number (m.dot p) = Double.opposite (number (n.dot p)) :=
      (turned.dot ⟨rfl, rfl, rfl⟩).trans (Vec3.number_opposite_dot n p)
    rw [← number_neg] at dots
    rw [sign_congr dots, sign_eq_sign_rank, rank_neg, Int.sign_neg, sign_eq_sign_rank]
  rw [sides, turns, turns, sides]

theorem oneSided_neg (s : Int × Int) : oneSided (-s.1, -s.2) = oneSided s := by
  simp [oneSided]

theorem oneSided_swap (s : Int × Int) : oneSided s.swap = oneSided s := by
  rw [Bool.eq_iff_iff]
  simp only [oneSided, Prod.fst_swap, Prod.snd_swap, Bool.and_eq_true, decide_eq_true_iff]
  omega

theorem straddles_neg (s : Int × Int) : straddles (-s.1, -s.2) = straddles s := by
  rw [Bool.eq_iff_iff]
  simp only [straddles, Bool.and_eq_true, decide_eq_true_iff]
  omega

theorem straddles_swap (s : Int × Int) : straddles s.swap = straddles s := by
  rw [Bool.eq_iff_iff]
  simp only [straddles, Prod.fst_swap, Prod.snd_swap, Bool.and_eq_true, decide_eq_true_iff]
  omega

/-- A point common to the great circles of two arcs. -/
def common (v u : Arc) : Vec3 := (v.normal.cross u.normal).normalize

/-- The point on the other side of the sphere becomes the first common point. -/
theorem common_reversed (v u : Arc) : (v.common u.reversed).Same ((v.common u).scale (-1)) := by
  have turned := (Vec3.Same.cross ⟨rfl, rfl, rfl⟩ (normal_reversed u)).trans
    (Vec3.cross_opposite v.normal u.normal)
  exact (turned.normalize.trans (Vec3.normalize_opposite _)).trans (Vec3.scale_neg_one _).symm

/-- Reversing an arc exchanges the two points in which the circles meet. -/
theorem opposite_common_reversed (v u : Arc) :
    ((v.common u.reversed).scale (-1)).Same (v.common u) := by
  refine (Vec3.scale_neg_one _).trans ?_
  refine ((common_reversed v u).trans (Vec3.scale_neg_one _)).opposite.trans ?_
  constructor <;> simp [Vec3.opposite]

end

/-! ## Meetings -/

/-- The points that the second arc has to place: the ends of the first one if both lie on one great
circle, and the two points common to their circles otherwise. -/
def probes (v u : Arc) : List Vec3 :=
  if sameCircle v.normal u.normal then v.ends else [v.common u, (v.common u).scale (-1)]

/-- Of two arcs on one great circle, the second has one end at an end of the first and the other end
inside it. -/
def Shares (v u : Arc) : Prop :=
  sameCircle v.normal u.normal = true ∧
    (v.locate u.first = .endpoint ∧ v.locate u.last = .inside ∨
      v.locate u.first = .inside ∧ v.locate u.last = .endpoint)

instance (v u : Arc) : Decidable (v.Shares u) := inferInstanceAs (Decidable (_ ∧ _))

section

variable {v u : Arc}

theorem sameCircle_reversed (v u : Arc) :
    sameCircle v.normal u.reversed.normal = sameCircle v.normal u.normal :=
  sameCircle_opposite (normal_reversed u) v.normal

theorem meet_of_sameCircle (circle : sameCircle v.normal u.normal = true) :
    v.meet u = meetAlong v u := if_pos circle

/-- The end that is tried first decides whether arcs that share an end touch or cross. -/
theorem Shares.meet (shares : v.Shares u) :
    v.meet u = .touching ∧ v.meet u.reversed = .crossing ∨
      v.meet u = .crossing ∧ v.meet u.reversed = .touching := by
  obtain ⟨circle, places⟩ := shares
  rw [meet_of_sameCircle circle, meet_of_sameCircle ((sameCircle_reversed v u).trans circle)]
  rcases places with ⟨first, last⟩ | ⟨first, last⟩
  · exact Or.inl ⟨by simp [meetAlong, first], by simp [meetAlong, reversed, last]⟩
  · exact Or.inr ⟨by simp [meetAlong, first], by simp [meetAlong, reversed, last]⟩

/-- Arcs of one circle meet the same way unless the arc has one end at an end of the other and one
inside it. -/
theorem meetAlong_reversed
    (unshared : ¬(v.locate u.first = .endpoint ∧ v.locate u.last = .inside ∨
      v.locate u.first = .inside ∧ v.locate u.last = .endpoint))
    (sharp : ∀ p ∈ v.ends, ¬u.Blurs p) : meetAlong v u.reversed = meetAlong v u := by
  have first := locate_reversed (sharp v.first (by simp [ends]))
  have last := locate_reversed (sharp v.last (by simp [ends]))
  rw [meetAlong, first, last, meetAlong]
  simp only [reversed]
  revert unshared
  generalize v.locate u.first = a
  generalize v.locate u.last = b
  cases a <;> cases b <;> simp

/-- How arcs of different circles meet, as a table of sides. -/
theorem meet_of_not_sameCircle (circles : sameCircle v.normal u.normal = false) : v.meet u =
    if oneSided (v.sides u.normal) || oneSided (u.sides v.normal) then .disjoint
    else if !(straddles (v.sides u.normal) && straddles (u.sides v.normal)) then .touching
    else if bothReach v u (v.common u) || bothReach v u ((v.common u).scale (-1)) then .crossing
    else .disjoint := by
  rw [meet, circles]
  rfl

/-- Reversing an arc does not change whether it passes through a point that is not blurred. -/
theorem bothReach_reversed {p q : Vec3} (same : q.Same p) (sharp : ¬u.Blurs p) :
    bothReach v u.reversed q = bothReach v u p := by
  rw [bothReach, locate_congr same, locate_congr same, locate_reversed sharp, bothReach]

/-- Arcs of different circles meet the same way after a reversal, since both common points are
tried. -/
theorem meet_reversed_of_not_sameCircle (circles : sameCircle v.normal u.normal = false)
    (sharp : ¬u.Blurs (v.common u)) (opposite : ¬u.Blurs ((v.common u).scale (-1))) :
    v.meet u.reversed = v.meet u := by
  rw [meet_of_not_sameCircle circles,
    meet_of_not_sameCircle ((sameCircle_reversed v u).trans circles),
    sides_opposite (normal_reversed u), oneSided_neg, straddles_neg,
    show u.reversed.sides v.normal = (u.sides v.normal).swap from rfl, oneSided_swap,
    straddles_swap, bothReach_reversed (common_reversed v u) opposite,
    bothReach_reversed (opposite_common_reversed v u) sharp,
    Bool.or_comm (bothReach v u (v.common u))]

/-- A reversal changes nothing if no point that decides is blurred and no end is shared. -/
theorem meet_reversed_of_sharp (unshared : ¬v.Shares u) (sharp : ∀ p ∈ v.probes u, ¬u.Blurs p) :
    v.meet u.reversed = v.meet u := by
  unfold probes at sharp
  cases circle : sameCircle v.normal u.normal with
  | true =>
    rw [circle, if_pos rfl] at sharp
    rw [meet_of_sameCircle circle, meet_of_sameCircle ((sameCircle_reversed v u).trans circle)]
    exact meetAlong_reversed (fun places => unshared ⟨circle, places⟩) sharp
  | false =>
    rw [circle, if_neg Bool.false_ne_true] at sharp
    exact meet_reversed_of_not_sameCircle circle (sharp _ (by simp)) (sharp _ (by simp))

end

/-- Arcs meet alike in both directions of the second one, unless that one shares an end with the
first on the same great circle and ends inside it, or a point that it has to place is blurred.  In
the former case the arcs touch in one direction and cross in the other.  The latter cannot occur if
the ends of the second arc are numerically at the same distance from its bisector. -/
theorem meet_reversed (v u : Arc) :
    (v.Shares u → v.meet u = .touching ∧ v.meet u.reversed = .crossing ∨
      v.meet u = .crossing ∧ v.meet u.reversed = .touching) ∧
    (¬v.Shares u → (∀ p ∈ v.probes u, ¬u.Blurs p) → v.meet u.reversed = v.meet u) ∧
    (u.Even → (v.meet u.reversed = v.meet u ↔ ¬v.Shares u)) := by
  refine ⟨Shares.meet, meet_reversed_of_sharp, fun even => ⟨?_, fun unshared => ?_⟩⟩
  · intro alike shares
    rcases shares.meet with ⟨first, second⟩ | ⟨first, second⟩
    · exact nomatch first.symm.trans (alike.symm.trans second)
    · exact nomatch first.symm.trans (alike.symm.trans second)
  · exact meet_reversed_of_sharp unshared fun p _ => even.not_blurs p

/-- The first part of `quarter`. -/
def lowerQuarter : Arc := ⟨⟨1, 0, 0⟩, ⟨0.6, 0, 0.8⟩⟩

/-- An arc across the equator, just east of the prime meridian. -/
def acrossEquator : Arc := ⟨⟨0.8, 3e-16, 0.6⟩, ⟨0.8, 3e-16, -0.6⟩⟩

/-- An arc of the equator that begins at the prime meridian. -/
def alongEquator : Arc := ⟨⟨1, 0, 0⟩, ⟨0.96, 0.28, 0⟩⟩

/-- The arc `lowerQuarter` shares an end with `quarter`, and `nearSide` is even. -/
theorem meet_reversed_quarter :
    quarter.Shares lowerQuarter ∧ quarter.meet lowerQuarter.reversed = .crossing ∧
    quarter.meet nearSide.reversed = .touching := by
  have shares : quarter.Shares lowerQuarter := by decide +kernel
  have touching : quarter.meet lowerQuarter = .touching := by decide +kernel
  refine ⟨shares, ?_, ?_⟩
  · rcases (meet_reversed quarter lowerQuarter).1 shares with ⟨-, crossing⟩ | ⟨crossing, -⟩
    · exact crossing
    · exact nomatch touching.symm.trans crossing
  · have even : nearSide.Even := by decide +kernel
    have unshared : ¬quarter.Shares nearSide := by decide +kernel
    rw [((meet_reversed quarter nearSide).2.2 even).2 unshared]
    decide +kernel

/-- Proper arcs meet differently when the second is reversed: on one great circle, where they share
an end, and on different ones, where rounding hides a common point next to an end. -/
theorem reversal_changes_meeting :
    (Proper quarter ∧ Proper lowerQuarter ∧ quarter.meet lowerQuarter = .touching ∧
      quarter.meet lowerQuarter.reversed = .crossing) ∧
    (Proper acrossEquator ∧ Proper alongEquator ∧ acrossEquator.meet alongEquator = .disjoint ∧
      acrossEquator.meet alongEquator.reversed = .crossing) := by
  refine ⟨⟨⟨?_, ?_, ?_, ?_⟩, ⟨?_, ?_, ?_, ?_⟩, ?_, ?_⟩,
    ⟨?_, ?_, ?_, ?_⟩, ⟨?_, ?_, ?_, ?_⟩, ?_, ?_⟩ <;> decide +kernel

end Antimeridian.Arc
