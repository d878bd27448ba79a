import Antimeridian.Crossing
import Antimeridian.Proofs.Coord
import Antimeridian.Proofs.Double.Bounds

/-!
# The latitude of a cut

The latitude at which an edge is cut at the meridian circle lies within a right angle, and it is the
same from both ends of an edge that changes hemisphere: the normal of the great circle and the side
that is looked at both turn around, and rounding is the same for opposite values.
-/

namespace Antimeridian
open Double

/-- Neither part of the coordinate is a NaN. -/
def Coord.IsNumber (c : Coord) : Prop := c.lat.isNaN = false ∧ c.lng.isNaN = false

instance (c : Coord) : Decidable c.IsNumber := inferInstanceAs (Decidable (_ ∧ _))

/-- A coordinate is numerically equal to itself unless it holds a NaN. -/
theorem Coord.same_self_iff {c : Coord} : c.same c = true ↔ c.IsNumber := by
  have equal : ∀ x : Float, (x == x) = true ↔ x.isNaN = false := by
    intro x
    rw [beq_iff_rank, isNaN_eq_false_iff]
    exact ⟨fun both => both.1, fun number => ⟨number, number, rfl⟩⟩
  rw [same_iff, equal, equal, IsNumber]

theorem Coord.IsNumber.same_self {c : Coord} (number : c.IsNumber) : c.same c = true :=
  same_self_iff.2 number

/-- Both parts of the coordinate are finite. -/
def Coord.IsFinite (c : Coord) : Prop := c.lat.isFinite = true ∧ c.lng.isFinite = true

instance (c : Coord) : Decidable c.IsFinite := inferInstanceAs (Decidable (_ ∧ _))

theorem Coord.IsFinite.isNumber {c : Coord} (finite : c.IsFinite) : c.IsNumber :=
  ⟨isNaN_eq_false_iff.2 (isNumber_of_isFinite finite.1),
    isNaN_eq_false_iff.2 (isNumber_of_isFinite finite.2)⟩

theorem Coord.IsFinite.same_self {c : Coord} (finite : c.IsFinite) : c.same c = true :=
  finite.isNumber.same_self

/-! ## Bounds -/

/-- All parts of the vector lie within the bound. -/
structure Vec3.Within (bound : Float) (v : Vec3) : Prop where
  x : Double.Within bound v.x
  y : Double.Within bound v.y
  z : Double.Within bound v.z

theorem within_one_mul {x y : Float} (xOne : Within 1 x) (yOne : Within 1 y) :
    Within 1 (x * y) := by
  have product := within_mul xOne yOne isFinite_one isFinite_one
  rwa [show (1 * 1 : Float) = 1 by decide +kernel] at product

/-- A finite coordinate is put into the cube around the sphere. -/
theorem within_ofCoord [Trig] [Trig.Lawful] {c : Coord} (finite : c.IsFinite) :
    (Vec3.ofCoord c).Within 1 :=
  ⟨within_one_mul (Trig.Lawful.within_cos finite.2) (Trig.Lawful.within_cos finite.1),
    within_one_mul (Trig.Lawful.within_sin finite.2) (Trig.Lawful.within_cos finite.1),
    Trig.Lawful.within_sin finite.1⟩

theorem isFinite_two : (2 : Float).isFinite = true := by decide +kernel

theorem within_two_sub {x y : Float} (xOne : Within 1 x) (yOne : Within 1 y) :
    Within 2 (x - y) := by
  have difference := within_sub xOne yOne isFinite_one isFinite_one
  rwa [show (1 - -1 : Float) = 2 by decide +kernel] at difference

/-- The vector product of two points of the sphere has parts of at most two. -/
theorem within_cross {v w : Vec3} (first : v.Within 1) (second : w.Within 1) :
    (v.cross w).Within 2 :=
  ⟨within_two_sub (within_one_mul first.y second.z) (within_one_mul first.z second.y),
    within_two_sub (within_one_mul first.z second.x) (within_one_mul first.x second.z),
    within_two_sub (within_one_mul first.x second.y) (within_one_mul first.y second.x)⟩

/-- The direction in which the meridian circle is looked at for the edge from `a` to `b`. -/
def cutSide (a b : Coord) : Float := if a.lng < 0 || 0 < b.lng then -1 else 1

/-- The point of the meridian circle, not yet of length one, at which an edge is cut. -/
def cutPoint [Trig] (a b : Coord) : Vec3 :=
  let normal := (Vec3.ofCoord a).cross (Vec3.ofCoord b)
  ⟨-(normal.z * cutSide a b), 0, normal.x * cutSide a b⟩

theorem cutLatitude_eq [Trig] (a b : Coord) :
    cutLatitude a b = Trig.asin (clampUnit (cutPoint a b).normalize.z) := rfl

theorem within_cutSide (a b : Coord) : Within 1 (cutSide a b) := by
  unfold cutSide
  split <;> decide +kernel

theorem within_cutPoint [Trig] [Trig.Lawful] {a b : Coord} (aFinite : a.IsFinite)
    (bFinite : b.IsFinite) : (cutPoint a b).Within 2 := by
  have normal := within_cross (within_ofCoord aFinite) (within_ofCoord bFinite)
  have scaled : ∀ {x : Float}, Within 2 x → Within 2 (x * cutSide a b) := by
    intro x within
    have product := within_mul within (within_cutSide a b) isFinite_two isFinite_one
    rwa [show (2 * 1 : Float) = 2 by decide +kernel] at product
  have zero : Within 2 0 := by decide +kernel
  exact ⟨within_neg (scaled normal.z), zero, scaled normal.x⟩

/-- Normalizing a vector makes no NaN out of a finite part. -/
theorem isNumber_normalize {v : Vec3} (finite : v.z.isFinite = true) : IsNumber v.normalize.z := by
  unfold Vec3.normalize
  dsimp only
  split
  · rename_i positive
    exact isNumber_div finite positive
  · exact isNumber_zero

/-- Edges between finite vertices are cut within a right angle of the equator. -/
theorem within_cutLatitude [Trig] [Trig.Lawful] {a b : Coord} (aFinite : a.IsFinite)
    (bFinite : b.IsFinite) : Within (Angle.pi / 2) (cutLatitude a b) := by
  rw [cutLatitude_eq]
  have point := within_cutPoint aFinite bFinite
  have number := isNumber_normalize (point.z.isFinite isFinite_two)
  exact Trig.Lawful.within_asin (within_clampUnit number)

/-! ## Symmetry -/

namespace Double
open Float.Model (UnpackedFloat Format)
open Float.Model.UnpackedFloat

/-- Products of doubles do not depend on the order of the factors, a NaN included. -/
theorem mul_comm (x y : Float) : x * y = y * x := by
  have parts : ∀ u v, UnpackedFloat.mul .binary64 u v = UnpackedFloat.mul .binary64 v u := by
    have signs : ∀ s t : Sign, s * t = t * s := by
      intro s t
      cases s <;> cases t <;> rfl
    intro u v
    cases u <;> cases v <;>
      simp only [UnpackedFloat.mul, signs, Nat.mul_comm, Int.add_comm]
  exact congrArg (fun u => Float.ofModel (Float.Model.pack u)) (parts (view x) (view y))

section

variable {x y x' : Float}

/-- Differences the two ways round to opposite doubles. -/
theorem rank_sub_swap (xFinite : x.isFinite = true) (yFinite : y.isFinite = true) :
    rank (y - x) = -rank (x - y) := by
  rw [(rank_sub yFinite xFinite).2, (rank_sub xFinite yFinite).2, ← nearest_neg, Int.neg_sub]

/-- The product does not change when both factors turn around. -/
theorem rank_mul_of_opposite (xFinite : x.isFinite = true) (xFinite' : x'.isFinite = true)
    (opposite : rank x' = -rank x) (yFinite : y.isFinite = true) :
    rank (x' * -y) = rank (x * y) := by
  have value : value x' = -value x := by
    rw [← value_neg]
    exact value_eq_of_rank_eq xFinite' (isFinite_neg xFinite) (opposite.trans (rank_neg x).symm)
  rw [(rank_mul xFinite' (isFinite_neg yFinite)).2, (rank_mul xFinite yFinite).2, value, value_neg,
    Int.neg_mul_neg]

end

theorem eq_of_view_eq {x y : Float} (equal : view x = view y) : x = y := by
  have bits : x.toModel.toBits.toBitVec = y.toModel.toBits.toBitVec :=
    (unpack_inj_of_valid x.toModel.valid y.toModel.valid).1 equal
  obtain ⟨⟨xBits, xValid⟩⟩ := x
  obtain ⟨⟨yBits, yValid⟩⟩ := y
  obtain rfl : xBits = yBits := UInt64.eq_of_toBitVec_eq bits
  rfl

/-- The double is one of the two zeros. -/
def IsZero (x : Float) : Prop := ∃ s, view x = .zero s

/-- Finite doubles of the same rank are equal or both zero. -/
theorem eq_or_isZero {x y : Float} (xFinite : x.isFinite = true) (yFinite : y.isFinite = true)
    (ranks : rank x = rank y) : x = y ∨ IsZero x ∧ IsZero y := by
  unfold rank at ranks
  rcases view_of_isFinite xFinite with ⟨s, xZero⟩ | ⟨s, m, e, hm, xParts, xCanonical⟩
  · rcases view_of_isFinite yFinite with ⟨t, yZero⟩ | ⟨t, n, f, hn, yParts, yCanonical⟩
    · exact Or.inr ⟨⟨s, xZero⟩, t, yZero⟩
    · have word := (magnitudeWord_bounds yCanonical).1
      rw [xZero, yParts] at ranks
      have magnitude := congrArg Int.natAbs ranks
      rw [natAbs_rankOf_finite] at magnitude
      exact absurd magnitude.symm word.ne'
  · have word := (magnitudeWord_bounds xCanonical).1
    rcases view_of_isFinite yFinite with ⟨t, yZero⟩ | ⟨t, n, f, hn, yParts, yCanonical⟩
    · rw [xParts, yZero] at ranks
      have magnitude := congrArg Int.natAbs ranks
      rw [natAbs_rankOf_finite] at magnitude
      exact absurd magnitude word.ne'
    · left
      apply eq_of_view_eq
      rw [xParts, yParts] at ranks ⊢
      have words := congrArg Int.natAbs ranks
      rw [natAbs_rankOf_finite, natAbs_rankOf_finite] at words
      obtain ⟨mDigits, eLow, -, mLead⟩ := xCanonical
      obtain ⟨nDigits, fLow, -, nLead⟩ := yCanonical
      have equal : e = f ∧ m = n := by
        unfold magnitudeWord at words
        omega
      obtain ⟨rfl, rfl⟩ := equal
      have signs : s = t := by
        simp only [rankOf] at ranks
        cases s <;> cases t <;> simp only [Sign.apply] at ranks <;> first | rfl | omega
      rw [signs]

theorem mul_self_of_isZero {x : Float} (zero : IsZero x) : x * x = 0 := by
  obtain ⟨s, parts⟩ := zero
  apply eq_of_view_eq
  change unpack .binary64 (pack .binary64 (mul .binary64 (view x) (view x))) = _
  rw [parts]
  cases s <;> exact unpack_pack trivial

/-- Squares do not tell numbers of the same rank apart. -/
theorem mul_self_eq {x y : Float} (xFinite : x.isFinite = true) (yFinite : y.isFinite = true)
    (ranks : rank x = rank y) : x * x = y * y := by
  rcases eq_or_isZero xFinite yFinite ranks with rfl | ⟨xZero, yZero⟩
  · rfl
  · rw [mul_self_of_isZero xZero, mul_self_of_isZero yZero]

theorem isZero_div {x y : Float} (zero : IsZero x) (positive : 0 < y) : IsZero (x / y) := by
  obtain ⟨s, parts⟩ := zero
  obtain ⟨-, number, above⟩ := lt_iff_rank.1 positive
  change ∃ s, unpack .binary64 (pack .binary64 (div .binary64 (view x) (view y))) = .zero s
  unfold rank at above
  rw [parts]
  cases parts' : view y with
  | notANumber => exact absurd parts' number
  | zero t => rw [parts'] at above; cases above
  | infinity t => exact ⟨s / t, unpack_pack trivial⟩
  | finite t n f h => exact ⟨s / t, unpack_pack trivial⟩

theorem isZero_iff {x : Float} : IsZero x ↔ x = 0 ∨ x = -0 := by
  constructor
  · rintro ⟨s, parts⟩
    cases s with
    | positive => exact Or.inl (eq_of_view_eq (parts.trans view_zero.symm))
    | negative => exact Or.inr (eq_of_view_eq (by rw [parts, view_neg, view_zero]; rfl))
  · rintro (rfl | rfl)
    · exact ⟨.positive, view_zero⟩
    · exact ⟨.negative, by rw [view_neg, view_zero]; rfl⟩

theorem isZero_of_beq_zero {x : Float} (zero : (x == 0) = true) : IsZero x := by
  obtain ⟨number, -, ranks⟩ := beq_iff_rank.1 zero
  rw [rank_zero] at ranks
  unfold rank at ranks
  cases parts : view x with
  | notANumber => exact absurd parts number
  | zero s => exact ⟨s, parts⟩
  | infinity s => rw [parts] at ranks; cases s <;> cases ranks
  | finite s m e positive =>
    rw [parts] at ranks
    have magnitude := congrArg Int.natAbs ranks
    rw [natAbs_rankOf_finite, Int.natAbs_zero, magnitudeWord] at magnitude
    omega

/-- The functions that round to the nearest double keep the laws. -/
instance lawful : Trig.Lawful where
  within_sin := within_sin
  within_cos := within_cos
  within_asin := within_asin
  asin_zero zero := by
    rcases isZero_iff.1 (isZero_of_beq_zero zero) with rfl | rfl
    · decide +kernel
    · decide +kernel

/-- The arcus sine of zero is zero, whatever the sign. -/
theorem rank_asin_of_isZero [Trig] [Trig.Lawful] {x : Float} (zero : IsZero x) :
    rank (Trig.asin (clampUnit x)) = 0 := by
  have clamped : (clampUnit x == 0) = true := by
    rcases isZero_iff.1 zero with rfl | rfl
    · decide +kernel
    · decide +kernel
  rw [(beq_iff_rank.1 (Trig.Lawful.asin_zero clamped)).2.2, rank_zero]

end Double

theorem rank_cross_swap {v w : Vec3} (first : v.Within 1) (second : w.Within 1) :
    rank (w.cross v).x = -rank (v.cross w).x ∧ rank (w.cross v).z = -rank (v.cross w).z := by
  have finite : ∀ {x y : Float}, Within 1 x → Within 1 y → (x * y).isFinite = true :=
    fun xOne yOne => (within_one_mul xOne yOne).isFinite isFinite_one
  constructor
  · simp only [Vec3.cross]
    rw [mul_comm w.y, mul_comm w.z]
    exact rank_sub_swap (finite first.y second.z) (finite first.z second.y)
  · simp only [Vec3.cross]
    rw [mul_comm w.x, mul_comm w.y]
    exact rank_sub_swap (finite first.x second.y) (finite first.y second.x)

/-- The ends of an edge lie in opposite hemispheres. -/
def Opposed (a b : Coord) : Prop :=
  a.hemisphere ≠ 0 ∧ b.hemisphere ≠ 0 ∧ a.hemisphere ≠ b.hemisphere

/-- Of the two directions of an edge that changes hemisphere exactly one leads from the west or to
the east, also if an end lies on the prime meridian. -/
theorem eastward_swap {a b : Coord} (differ : a.hemisphere ≠ b.hemisphere) :
    (rank b.lng < 0 ∨ 0 < rank a.lng) ↔ ¬(rank a.lng < 0 ∨ 0 < rank b.lng) := by
  simp only [Coord.hemisphere, sign_eq_sign_rank] at differ
  rcases Int.lt_trichotomy (rank a.lng) 0 with aWest | aOn | aEast <;>
    rcases Int.lt_trichotomy (rank b.lng) 0 with bWest | bOn | bEast <;>
    simp_all [Int.sign_eq_neg_one_of_neg, Int.sign_eq_one_of_pos] <;> omega

/-- An edge to the other hemisphere passes the circle on opposite sides in its two directions. -/
theorem cutSide_swap {a b : Coord} (differ : a.hemisphere ≠ b.hemisphere) :
    cutSide b a = -cutSide a b := by
  have negated : -(-1) = (1 : Float) := by decide +kernel
  simp only [cutSide, lt_zero_iff_rank, zero_lt_iff_rank, Bool.or_eq_true, decide_eq_true_iff]
  by_cases eastward : rank a.lng < 0 ∨ 0 < rank b.lng
  · rw [if_pos eastward, if_neg (mt (eastward_swap differ).1 (not_not.2 eastward)), negated]
  · rw [if_neg eastward, if_pos ((eastward_swap differ).2 eastward)]

/-- The point of a cut is the same in both directions: both normals are turned around. -/
theorem cutPoint_swap [Trig] [Trig.Lawful] {a b : Coord} (aFinite : a.IsFinite)
    (bFinite : b.IsFinite) (differ : a.hemisphere ≠ b.hemisphere) :
    rank (cutPoint b a).x = rank (cutPoint a b).x ∧
      rank (cutPoint b a).z = rank (cutPoint a b).z := by
  have first := within_ofCoord aFinite
  have second := within_ofCoord bFinite
  obtain ⟨x, z⟩ := rank_cross_swap first second
  have normal := within_cross first second
  have normal' := within_cross second first
  have side := (within_cutSide a b).isFinite isFinite_one
  simp only [cutPoint, cutSide_swap differ, rank_neg]
  rw [rank_mul_of_opposite (normal.x.isFinite isFinite_two)
      (normal'.x.isFinite isFinite_two) x side,
    rank_mul_of_opposite (normal.z.isFinite isFinite_two)
      (normal'.z.isFinite isFinite_two) z side]
  exact ⟨rfl, rfl⟩

/-- The square of the length of a cut point is the same from both ends. -/
theorem dot_cutPoint_swap [Trig] [Trig.Lawful] {a b : Coord} (aFinite : a.IsFinite)
    (bFinite : b.IsFinite) (differ : a.hemisphere ≠ b.hemisphere) :
    (cutPoint b a).dot (cutPoint b a) = (cutPoint a b).dot (cutPoint a b) := by
  obtain ⟨x, z⟩ := cutPoint_swap aFinite bFinite differ
  have point := within_cutPoint aFinite bFinite
  have point' := within_cutPoint bFinite aFinite
  have y : (cutPoint b a).y = (cutPoint a b).y := rfl
  rw [Vec3.dot, Vec3.dot, y,
    mul_self_eq (point'.x.isFinite isFinite_two) (point.x.isFinite isFinite_two) x,
    mul_self_eq (point'.z.isFinite isFinite_two) (point.z.isFinite isFinite_two) z]

theorem isNumber_cutLatitude [Trig] [Trig.Lawful] {a b : Coord} (aFinite : a.IsFinite)
    (bFinite : b.IsFinite) : Double.IsNumber (cutLatitude a b) :=
  (within_iff.1 (within_cutLatitude aFinite bFinite)).2.1

/-- The latitude of a cut has the same rank in both directions of the edge. -/
theorem rank_cutLatitude_swap [Trig] [Trig.Lawful] {a b : Coord} (aFinite : a.IsFinite)
    (bFinite : b.IsFinite) (differ : a.hemisphere ≠ b.hemisphere) :
    rank (cutLatitude b a) = rank (cutLatitude a b) := by
  have point := within_cutPoint aFinite bFinite
  have point' := within_cutPoint bFinite aFinite
  rw [cutLatitude_eq, cutLatitude_eq]
  simp only [Vec3.normalize]
  rw [dot_cutPoint_swap aFinite bFinite differ]
  split
  · rename_i positive
    rcases eq_or_isZero (point'.z.isFinite isFinite_two) (point.z.isFinite isFinite_two)
      (cutPoint_swap aFinite bFinite differ).2 with equal | ⟨zero', zero⟩
    · rw [equal]
    · -- zeros of different signs stay zeros
      rw [rank_asin_of_isZero (isZero_div zero' positive),
        rank_asin_of_isZero (isZero_div zero positive)]
  · rfl

/-- An edge that changes hemisphere is cut at numerically the same latitude in both directions, also
if it begins or ends on the prime meridian.  This holds for every library of the functions of angles
that keeps the laws. -/
theorem cutLatitude_swap [Trig] [Trig.Lawful] {a b : Coord} (aFinite : a.IsFinite)
    (bFinite : b.IsFinite) (differ : a.hemisphere ≠ b.hemisphere) :
    (cutLatitude a b == cutLatitude b a) = true :=
  beq_iff_rank.2 ⟨isNumber_cutLatitude aFinite bFinite, isNumber_cutLatitude bFinite aFinite,
    (rank_cutLatitude_swap aFinite bFinite differ).symm⟩

/-- An edge over the antimeridian, and one from the prime meridian to the west. -/
theorem cutLatitude_swap_slanted :
    (cutLatitude ⟨0.2, 3⟩ ⟨0, -3⟩ == cutLatitude ⟨0, -3⟩ ⟨0.2, 3⟩) = true ∧
      (cutLatitude ⟨-1, -0⟩ ⟨0.5, -3⟩ == cutLatitude ⟨0.5, -3⟩ ⟨-1, -0⟩) = true :=
  ⟨cutLatitude_swap (by decide +kernel) (by decide +kernel) (by decide +kernel),
    cutLatitude_swap (by decide +kernel) (by decide +kernel) (by decide +kernel)⟩

end Antimeridian
