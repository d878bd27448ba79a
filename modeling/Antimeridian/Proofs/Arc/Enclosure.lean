import Antimeridian.Arc
import Antimeridian.Proofs.Vec.Error

/-!
# Points clearly between the ends of an arc

On a long arc the bisector test compares two scalar products with a vector that was normalized
before, and on a short one it multiplies two normalized differences.  Each step is rounded.  A point
that is nearer to the bisector than the first end, or sees the ends in opposite directions, by more
than these errors add up to, passes the test.
-/

namespace Antimeridian.Arc
open Double

/-- The point halfway between the ends. -/
def bisector (arc : Arc) : Vec3 := (arc.first.add arc.last).normalize

/-- The cosines of the distances of the two ends from the bisector, as computed. -/
def reaches (arc : Arc) : Float × Float := (arc.first.dot arc.bisector, arc.last.dot arc.bisector)

theorem encloses_eq (arc : Arc) (p : Vec3) : arc.encloses p =
    if shortness < (1 - arc.reaches.1).abs then decide (arc.reaches.1 < p.dot arc.bisector)
    else decide ((p.sub arc.first).normalize.dot (p.sub arc.last).normalize < 0) := rfl

/-- The point is nearer to the middle of the arc than the first end is, by more than rounding can
blur. -/
def NearsMiddle (arc : Arc) (p : Vec3) : Prop :=
  (unitsPerOne : ℤ) ^ 2 ≤
    2 ^ 36 * ((p.exact - arc.first.exact) ⬝ᵥ (arc.first.exact + arc.last.exact))

instance (arc : Arc) (p : Vec3) : Decidable (arc.NearsMiddle p) :=
  inferInstanceAs (Decidable (_ ≤ _))

/-- Neither of two vectors is extremely short, and they enclose an angle of at least a third of a
turn. -/
structure Wide (x y : Fin 3 → ℤ) : Prop where
  first : (unitsPerOne : ℤ) ^ 2 ≤ 2 ^ 78 * (x ⬝ᵥ x)
  second : (unitsPerOne : ℤ) ^ 2 ≤ 2 ^ 78 * (y ⬝ᵥ y)
  obtuse : x ⬝ᵥ y ≤ 0
  angle : x ⬝ᵥ x * (y ⬝ᵥ y) ≤ 4 * (x ⬝ᵥ y) ^ 2

/-- The point is between the ends by more than rounding can blur. -/
structure Surrounds (arc : Arc) (p : Vec3) : Prop where
  first : arc.first.Within 1
  last : arc.last.Within 1
  point : p.Within 1
  clear : if shortness < (1 - arc.reaches.1).abs then arc.NearsMiddle p
    else Wide (p.exact - arc.first.exact) (p.exact - arc.last.exact)

/-! ## Units and real numbers -/

/-- Differences in units and as real numbers. -/
theorem sub_real_eq (v w : Vec3) (i : Fin 3) :
    (v.real - w.real) i = ((v.exact - w.exact) i : ℤ) / units := by
  rw [Pi.sub_apply, Pi.sub_apply, Vec3.real_eq, Vec3.real_eq, Int.cast_sub, sub_div]

theorem add_real_eq (v w : Vec3) (i : Fin 3) :
    (v.real + w.real) i = ((v.exact + w.exact) i : ℤ) / units := by
  rw [Pi.add_apply, Pi.add_apply, Vec3.real_eq, Vec3.real_eq, Int.cast_add, add_div]

/-- Scalar products in units and as real numbers. -/
theorem dotProduct_eq {x y : Fin 3 → ℤ} {a b : Fin 3 → ℝ} (first : ∀ i, a i = x i / units)
    (second : ∀ i, b i = y i / units) : a ⬝ᵥ b = (x ⬝ᵥ y : ℤ) / units ^ 2 := by
  simp only [dotProduct, first, second, Int.cast_sum, Int.cast_mul, Finset.sum_div]
  apply Finset.sum_congr rfl
  intro i _
  rw [div_mul_div_comm, sq]

/-- A margin in units as a real number. -/
theorem margin_of_units {n : ℤ} {k : ℕ} (margin : (unitsPerOne : ℤ) ^ 2 ≤ 2 ^ k * n) :
    1 / 2 ^ k ≤ (n : ℝ) / units ^ 2 := by
  have one := units_pos
  have margin' : units ^ 2 ≤ 2 ^ k * n := by
    have cast : (((unitsPerOne : ℤ) ^ 2 : ℤ) : ℝ) ≤ ((2 ^ k * n : ℤ) : ℝ) := Int.cast_le.2 margin
    rwa [Int.cast_pow, Int.cast_natCast, Int.cast_mul, Int.cast_pow, Int.cast_ofNat] at cast
  rw [div_le_div_iff₀ (by positivity) (by positivity)]
  linarith

/-- The angle between two vectors in real numbers. -/
theorem Wide.angle_real {x y : Fin 3 → ℤ} {a b : Fin 3 → ℝ} (wide : Wide x y)
    (first : ∀ i, a i = x i / units) (second : ∀ i, b i = y i / units) :
    √(a ⬝ᵥ a) * √(b ⬝ᵥ b) ≤ -(2 * (a ⬝ᵥ b)) := by
  have one := units_pos
  have obtuse : ((x ⬝ᵥ y : ℤ) : ℝ) ≤ 0 := Int.cast_nonpos.2 wide.obtuse
  have angle : ((x ⬝ᵥ x : ℤ) : ℝ) * (y ⬝ᵥ y : ℤ) ≤ 4 * (x ⬝ᵥ y : ℤ) ^ 2 := by
    exact_mod_cast wide.angle
  have nonneg : 0 ≤ a ⬝ᵥ a := Finset.sum_nonneg fun i _ => mul_self_nonneg (a i)
  rw [← Real.sqrt_mul nonneg, dotProduct_eq first first, dotProduct_eq second second,
    dotProduct_eq first second]
  generalize ((x ⬝ᵥ y : ℤ) : ℝ) = k at *
  have quotient : k / units ^ 2 ≤ 0 := div_nonpos_of_nonpos_of_nonneg obtuse (by positivity)
  rw [Real.sqrt_le_left (by linarith), div_mul_div_comm]
  calc _ ≤ 4 * k ^ 2 / (units ^ 2 * units ^ 2) := div_le_div_of_nonneg_right angle (by positivity)
    _ = (-(2 * (k / units ^ 2))) ^ 2 := by
      field_simp
      ring

/-! ## Long arcs -/

section

variable {arc : Arc} {p : Vec3} (first : arc.first.Within 1) (last : arc.last.Within 1)
  (point : p.Within 1)
include first point

theorem abs_way_le (i : Fin 3) : |(p.real - arc.first.real) i| ≤ 2 := by
  have parts := abs_sub (p.real i) (arc.first.real i)
  have both := add_le_add (point.bounded.abs_real_le i) (first.bounded.abs_real_le i)
  rw [Pi.sub_apply]
  linarith

include last

/-- The margin that is left when the ends are added. -/
theorem NearsMiddle.margin (nears : arc.NearsMiddle p) :
    1 / 2 ^ 37 ≤ (p.real - arc.first.real) ⬝ᵥ (arc.first.add arc.last).real := by
  have exact := margin_of_units nears
  rw [← dotProduct_eq (sub_real_eq _ _) (add_real_eq _ _)] at exact
  obtain ⟨-, near⟩ := Vec3.add_error first.bounded last.bounded
  have error := (abs_le.1 (dotProduct_near (abs_way_le first point) near)).1
  norm_num at error exact ⊢
  linarith

/-- The ends are not opposite, so their sum is not extremely short. -/
theorem NearsMiddle.long (nears : arc.NearsMiddle p) :
    1 / 2 ^ 80 ≤ (arc.first.add arc.last).real ⬝ᵥ (arc.first.add arc.last).real := by
  have margin := nears.margin first last point
  have small := abs_way_le first point
  generalize (arc.first.add arc.last).real = sum at *
  generalize p.real - arc.first.real = way at *
  -- a sum that is extremely short could not leave the margin
  have cauchy : (way ⬝ᵥ sum) ^ 2 ≤ way ⬝ᵥ way * (sum ⬝ᵥ sum) := by
    simpa only [dotProduct, sq] using Finset.sum_mul_sq_le_sq_mul_sq Finset.univ way sum
  have twelve : way ⬝ᵥ way ≤ 12 := by
    have near : |way ⬝ᵥ way - way ⬝ᵥ 0| ≤ 3 * (2 * 2) :=
      dotProduct_near small (by simpa using small)
    rw [dotProduct_zero] at near
    linarith [(abs_le.1 near).2]
  have nonneg : 0 ≤ sum ⬝ᵥ sum := Finset.sum_nonneg fun i _ => mul_self_nonneg (sum i)
  have squared : (1 / 2 ^ 37 : ℝ) ^ 2 ≤ (way ⬝ᵥ sum) ^ 2 :=
    pow_le_pow_left₀ (by positivity) margin 2
  have product := mul_le_mul_of_nonneg_right twelve nonneg
  norm_num at squared ⊢
  linarith

/-- The bisector test of a long arc finds the point. -/
theorem NearsMiddle.reach_lt (nears : arc.NearsMiddle p) :
    arc.reaches.1 < p.dot arc.bisector := by
  obtain ⟨sumBounded, -⟩ := Vec3.add_error first.bounded last.bounded
  obtain ⟨bounded, length, positive, most, near⟩ :=
    Vec3.normalize_error sumBounded (nears.long first last point)
  have divided : 1 / 2 ^ 41 ≤
      (p.real - arc.first.real) ⬝ᵥ (length⁻¹ • (arc.first.add arc.last).real) := by
    have margin := nears.margin first last point
    obtain ⟨-, -, short⟩ := Vec3.dot_self_error sumBounded
    have six : √((arc.first.add arc.last).real ⬝ᵥ (arc.first.add arc.last).real) ≤ 6 := by
      rw [Real.sqrt_le_left (by norm_num)]
      linarith
    rw [dotProduct_smul, smul_eq_mul, inv_mul_eq_div, le_div_iff₀ positive]
    norm_num at margin ⊢
    linarith
  have error := (abs_le.1 (dotProduct_near (abs_way_le first point) near)).1
  rw [sub_dotProduct] at error
  obtain ⟨reachFinite, reach⟩ := Vec3.dot_error (first.bounded.mono (by norm_num)) bounded
  obtain ⟨heightFinite, height⟩ := Vec3.dot_error (point.bounded.mono (by norm_num)) bounded
  apply lt_of_real_lt reachFinite heightFinite
  have reachHigh := (abs_le.1 reach).2
  have heightLow := (abs_le.1 height).1
  norm_num at divided error reachHigh heightLow
  linarith

end

/-! ## Short arcs -/

section

variable {a b a' b' : Fin 3 → ℝ} (aLong : 1 / 2 ^ 78 ≤ a ⬝ᵥ a) (bLong : 1 / 2 ^ 78 ≤ b ⬝ᵥ b)
  (aNear : ∀ i, |a' i - a i| ≤ 1 / 2 ^ 47) (bNear : ∀ i, |b' i - b i| ≤ 1 / 2 ^ 47)
include aLong

theorem sq_sqrt_dotProduct_self : √(a ⬝ᵥ a) ^ 2 = a ⬝ᵥ a := by
  apply Real.sq_sqrt
  norm_num at aLong
  linarith

theorem le_sqrt_dotProduct_self : 1 / 2 ^ 39 ≤ √(a ⬝ᵥ a) := by
  apply Real.le_sqrt_of_sq_le
  norm_num at aLong ⊢
  linarith

include aNear

/-- A vector that is not extremely short keeps its length where its parts change little. -/
theorem dotProduct_self_near : 1 / 2 ^ 80 ≤ a' ⬝ᵥ a' ∧ √(a' ⬝ᵥ a') ≤ 3 / 2 * √(a ⬝ᵥ a) := by
  have small : ∀ i, |a i| ≤ √(a ⬝ᵥ a) := fun i => Real.abs_le_sqrt (sq_le_dotProduct_self a i)
  have error := abs_le.1 (dotProduct_near_both (abs_le_of_near small aNear) small aNear aNear)
  have square := sq_sqrt_dotProduct_self aLong
  have least := le_sqrt_dotProduct_self aLong
  have positive : 0 ≤ √(a ⬝ᵥ a) := Real.sqrt_nonneg _
  have product := mul_le_mul_of_nonneg_left least positive
  rw [← sq, square] at product
  norm_num at aLong error product ⊢
  constructor
  · linarith
  · rw [Real.sqrt_le_left (by positivity), mul_pow, square]
    linarith

include bLong bNear

/-- Vectors at an obtuse angle stay at one where their parts change little. -/
theorem dotProduct_le_of_near (angle : √(a ⬝ᵥ a) * √(b ⬝ᵥ b) ≤ -(2 * (a ⬝ᵥ b))) :
    a' ⬝ᵥ b' ≤ -(√(a ⬝ᵥ a) * √(b ⬝ᵥ b) / 4) := by
  have aSmall : ∀ i, |a i| ≤ √(a ⬝ᵥ a) := fun i => Real.abs_le_sqrt (sq_le_dotProduct_self a i)
  have bSmall : ∀ i, |b i| ≤ √(b ⬝ᵥ b) := fun i => Real.abs_le_sqrt (sq_le_dotProduct_self b i)
  have error := (abs_le.1 (dotProduct_near_both (abs_le_of_near aSmall aNear) bSmall aNear bNear)).2
  have aLeast := le_sqrt_dotProduct_self aLong
  have bLeast := le_sqrt_dotProduct_self bLong
  generalize √(a ⬝ᵥ a) = aLength at *
  generalize √(b ⬝ᵥ b) = bLength at *
  have aPositive : 0 ≤ aLength := le_trans (by positivity) aLeast
  have bPositive : 0 ≤ bLength := le_trans (by positivity) bLeast
  have first := mul_le_mul_of_nonneg_left bLeast aPositive
  have second := mul_le_mul_of_nonneg_right aLeast bPositive
  norm_num at error aLeast bLeast first second ⊢
  linarith

end

/-- Vectors of which each is near to a multiple of one of two vectors at an obtuse angle are at one,
too. -/
theorem dotProduct_neg_of_near {a b u v : Fin 3 → ℝ} {x y m : ℝ} (uSmall : ∀ i, |u i| ≤ 3)
    (vSmall : ∀ i, |v i| ≤ 3) (xPositive : 0 < x) (yPositive : 0 < y)
    (uNear : ∀ i, |u i - (x⁻¹ • a) i| ≤ 1 / 2 ^ 47) (vNear : ∀ i, |v i - (y⁻¹ • b) i| ≤ 1 / 2 ^ 47)
    (lengths : x * y ≤ 9 * m) (opposed : a ⬝ᵥ b ≤ -(m / 4)) : u ⬝ᵥ v ≤ -(1 / 40) := by
  have scaled : (x⁻¹ • a) ⬝ᵥ (y⁻¹ • b) = a ⬝ᵥ b / (x * y) := by
    rw [smul_dotProduct, dotProduct_smul, smul_eq_mul, smul_eq_mul, ← mul_assoc, ← mul_inv,
      inv_mul_eq_div]
  have quotient : a ⬝ᵥ b / (x * y) ≤ -(1 / 36) := by
    rw [div_le_iff₀ (mul_pos xPositive yPositive)]
    linarith
  have bounded := abs_le_of_near vSmall fun i => (abs_sub_comm _ _).trans_le (vNear i)
  have error := (abs_le.1 (dotProduct_near_both uSmall bounded uNear vNear)).2
  rw [scaled] at error
  norm_num at error quotient ⊢
  linarith

section

variable {arc : Arc} {p : Vec3}

/-- The test of a short arc finds the point. -/
theorem dot_lt_of_wide (wide : Wide (p.exact - arc.first.exact) (p.exact - arc.last.exact))
    (first : arc.first.Within 1) (last : arc.last.Within 1) (point : p.Within 1) :
    (p.sub arc.first).normalize.dot (p.sub arc.last).normalize < 0 := by
  have angle := wide.angle_real (sub_real_eq p arc.first) (sub_real_eq p arc.last)
  have firstLong := margin_of_units wide.first
  have lastLong := margin_of_units wide.second
  rw [← dotProduct_eq (sub_real_eq _ _) (sub_real_eq _ _)] at firstLong lastLong
  obtain ⟨firstBounded, firstNear⟩ := Vec3.sub_error point.bounded first.bounded
  obtain ⟨lastBounded, lastNear⟩ := Vec3.sub_error point.bounded last.bounded
  have opposed := dotProduct_le_of_near firstLong lastLong firstNear lastNear angle
  obtain ⟨firstLong', firstLength⟩ := dotProduct_self_near firstLong firstNear
  obtain ⟨lastLong', lastLength⟩ := dotProduct_self_near lastLong lastNear
  obtain ⟨uBounded, x, xPositive, xMost, uNear⟩ := Vec3.normalize_error firstBounded firstLong'
  obtain ⟨vBounded, y, yPositive, yMost, vNear⟩ := Vec3.normalize_error lastBounded lastLong'
  have lengths := mul_le_mul (xMost.trans (mul_le_mul_of_nonneg_left firstLength zero_le_two))
    (yMost.trans (mul_le_mul_of_nonneg_left lastLength zero_le_two)) yPositive.le (by positivity)
  have negative := dotProduct_neg_of_near uBounded.abs_real_le vBounded.abs_real_le xPositive
    yPositive uNear vNear (by linarith) opposed
  obtain ⟨finite, error⟩ := Vec3.dot_error uBounded vBounded
  apply lt_of_real_lt finite (by decide +kernel)
  have high := (abs_le.1 error).2
  rw [real_zero]
  norm_num at high
  linarith

/-- The bisector test finds a point that is clearly between the ends. -/
theorem Surrounds.encloses (surrounds : arc.Surrounds p) : arc.encloses p = true := by
  obtain ⟨first, last, point, clear⟩ := surrounds
  rw [encloses_eq]
  split_ifs at clear ⊢ with long
  · exact decide_eq_true (clear.reach_lt first last point)
  · exact decide_eq_true (dot_lt_of_wide clear first last point)

/-- The middle of an arc that is short. -/
example : Surrounds ⟨⟨1, 1e-6, 0⟩, ⟨1, -1e-6, 0⟩⟩ ⟨1, 0, 0⟩ := by
  refine ⟨⟨?_, ?_, ?_⟩, ⟨?_, ?_, ?_⟩, ⟨?_, ?_, ?_⟩, ?_⟩
  case refine_10 =>
    rw [if_neg (by decide +kernel)]
    constructor <;> decide +kernel
  all_goals decide +kernel

end

end Antimeridian.Arc
