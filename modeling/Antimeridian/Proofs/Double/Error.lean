import Antimeridian.Proofs.Double.Bounds
import Antimeridian.Proofs.Double.Opposite

/-!
# Rounding errors

A finite double stands for a real number.  What an operation gives differs from the exact result by
half a unit in the last place, which is the result over `2 ^ 53` at most, or by half the least
positive double.
-/

namespace Antimeridian.Double
open Float.Model (UnpackedFloat Format totalExponent)
open Float.Model.UnpackedFloat

/-! ## Reals -/

/-- How many of the least positive double make up one. -/
noncomputable def units : ℝ := unitsPerOne

/-- The real number that a finite double stands for. -/
noncomputable def real (x : Float) : ℝ := value x / units

/-- The double is finite and as close to a real number as doubles are. -/
def Rounds (x : Float) (r : ℝ) : Prop :=
  x.isFinite = true ∧ |real x - r| ≤ |r| / 2 ^ 53 + 1 / (2 * units)

theorem units_pos : 0 < units := Nat.cast_pos.2 unitsPerOne_pos

theorem half_unit_pos : 0 < 1 / (2 * units) := div_pos one_pos (mul_pos two_pos units_pos)

/-- A rounded quotient is half of one away at most. -/
theorem roundDiv_error {num den : Nat} (positive : 0 < den) :
    |(roundDiv num den : ℝ) - num / den| ≤ 1 / 2 := by
  have whole := Nat.div_add_mod num den
  have part := Nat.mod_lt num positive
  have close : 2 * (den * roundDiv num den) ≤ 2 * num + den ∧
      2 * num ≤ 2 * (den * roundDiv num den) + den := by
    rw [roundDiv_eq]
    generalize num / den = floor at *
    generalize num % den = rest at *
    split_ifs with below above
    · omega
    · rw [Nat.mul_add]
      omega
    · rcases Nat.mod_two_eq_zero_or_one floor with even | odd
      · rw [even, Nat.add_zero]
        omega
      · rw [odd, Nat.mul_add]
        omega
  have den' : (0 : ℝ) < den := by exact_mod_cast positive
  have low : (2 : ℝ) * (den * roundDiv num den) ≤ 2 * num + den := by exact_mod_cast close.1
  have high : (2 : ℝ) * num ≤ 2 * (den * roundDiv num den) + den := by exact_mod_cast close.2
  rw [abs_le]
  constructor
  · rw [neg_le_sub_iff_le_add, div_le_iff₀ den']
    linarith
  · rw [sub_le_iff_le_add, ← sub_le_iff_le_add', le_div_iff₀ den']
    linarith

/-- The magnitude of a finite double, read off a word that may hold a carry. -/
theorem natAbs_value_eq {x : Float} (finite : x.isFinite = true) {e n : Nat}
    (word : (rank x).natAbs = e * 2 ^ 52 + n) (upper : n ≤ 2 ^ 53) (lower : e = 0 ∨ 2 ^ 52 ≤ n) :
    (value x).natAbs = n * 2 ^ e := by
  unfold rank at word
  unfold value
  rcases view_of_isFinite finite with ⟨s, zero⟩ | ⟨s, m, f, positive, parts, canonical⟩
  · rw [zero] at word ⊢
    obtain rfl : n = 0 := by
      change 0 = _ at word
      omega
    rw [Nat.zero_mul]
    rfl
  · rw [parts, natAbs_rankOf_finite, magnitudeWord] at word
    rw [parts, natAbs_valueOf_finite]
    obtain ⟨digits, low, -, leading⟩ := canonical
    generalize places : (f + 1074).toNat = p at *
    rcases Nat.lt_trichotomy p e with less | rfl | greater
    · omega
    · rw [show m = n by omega]
    · obtain ⟨rfl, rfl, rfl⟩ : p = e + 1 ∧ m = 2 ^ 52 ∧ n = 2 ^ 53 := by omega
      ring

/-- A mantissa that is half of one away belongs to a magnitude that is half a unit of its last place
away. -/
theorem scaled_error {mantissa power fraction : ℝ} (positive : 0 < power)
    (half : |mantissa - fraction * units / power| ≤ 1 / 2) :
    |mantissa * power / units - fraction| ≤ power / (2 * units) := by
  have one := units_pos
  have scaled : mantissa * power / units - fraction =
      (mantissa - fraction * units / power) * (power / units) := by
    field_simp
  rw [scaled, abs_mul, abs_of_pos (div_pos positive one)]
  calc |mantissa - fraction * units / power| * (power / units)
      ≤ 1 / 2 * (power / units) := mul_le_mul_of_nonneg_right half (div_pos positive one).le
    _ = power / (2 * units) := by field_simp

/-- The word nearest to a fraction belongs to a magnitude close to it. -/
theorem magnitude_error {x : Float} (finite : x.isFinite = true) {num den : Nat}
    (positive : 0 < num) (positive' : 0 < den) (word : (rank x).natAbs = nearestBits num den) :
    |((value x).natAbs : ℝ) / units - num / den| ≤ num / den / 2 ^ 53 + 1 / (2 * units) := by
  have exponent := exponent_exponentFor positive positive'
  generalize exponentFor num den = e at exponent
  obtain ⟨upper, lower⟩ := exponent.mantissaAt_bounds positive'
  obtain ⟨-, above, below⟩ := isFinite_iff_rank.1 finite
  have one := units_pos
  have den' : (0 : ℝ) < den := Nat.cast_pos.2 positive'
  have least : min (e * 2 ^ 52 + mantissaAt num den e) infinityBits =
      e * 2 ^ 52 + mantissaAt num den e := by
    rw [exponent.nearestBits_eq positive positive'] at word
    omega
  rw [exponent.nearestBits_eq positive positive', least] at word
  rw [natAbs_value_eq finite word upper lower, Nat.cast_mul, Nat.cast_pow, Nat.cast_ofNat]
  have half := @roundDiv_error (num * unitsPerOne) _ (Nat.mul_pos positive' (Nat.two_pow_pos e))
  rw [Nat.cast_mul, Nat.cast_mul, Nat.cast_pow, Nat.cast_ofNat, ← div_div, mul_div_right_comm]
    at half
  refine (scaled_error (by positivity) half).trans ?_
  rcases exponent.lower with rfl | leading
  · have nonneg : (0 : ℝ) ≤ num / den / 2 ^ 53 := by positivity
    rw [pow_zero]
    linarith
  · have leading' : (den : ℝ) * 2 ^ (52 + e) ≤ num * units := by
      have cast : ((den * 2 ^ (52 + e) : Nat) : ℝ) ≤ (num * unitsPerOne : Nat) :=
        Nat.cast_le.2 leading
      rwa [Nat.cast_mul, Nat.cast_mul, Nat.cast_pow, Nat.cast_ofNat] at cast
    have close : 2 ^ e / (2 * units) ≤ num / den / 2 ^ 53 := by
      rw [div_div, div_le_div_iff₀ (by positivity) (by positivity)]
      calc (2 : ℝ) ^ e * (den * 2 ^ 53) = 2 * (den * 2 ^ (52 + e)) := by ring
        _ ≤ num * (2 * units) := by linarith
    linarith [half_unit_pos]

/-- A finite double has the sign of the fraction that it is nearest to. -/
theorem value_eq_sign_mul {x : Float} {v : Int} {den : Nat} (finite : x.isFinite = true)
    (nearest : rank x = nearest v den) : value x = v.sign * (value x).natAbs := by
  have sign : (value x).sign = v.sign * ((nearestBits v.natAbs den : Nat) : Int).sign := by
    rw [sign_value finite, nearest, Double.nearest, Int.sign_mul, Int.sign_sign]
  rcases Nat.eq_zero_or_pos (nearestBits v.natAbs den) with zero | some
  · rw [zero, Int.natCast_zero, Int.sign_zero, Int.mul_zero, Int.sign_eq_zero_iff_zero] at sign
    rw [sign, Int.natAbs_zero, Int.natCast_zero, Int.mul_zero]
  · rw [Int.sign_natCast_of_ne_zero some.ne', Int.mul_one] at sign
    rw [← sign, Int.sign_mul_natAbs]

/-- A double that is nearest to a fraction of a moderate magnitude rounds it. -/
theorem rounds_of_rank {x : Float} {v : Int} {den : Nat} (positive : 0 < den) (number : IsNumber x)
    (nearest : rank x = nearest v den) (small : |(v : ℝ) / den| ≤ 32) : Rounds x (v / den) := by
  have den' : (0 : ℝ) < den := Nat.cast_pos.2 positive
  have magnitude : |(v : ℝ) / den| = v.natAbs / den := by
    rw [abs_div, abs_of_pos den', ← Int.cast_abs, Int.abs_eq_natAbs, Int.cast_natCast]
  have word : (rank x).natAbs = nearestBits v.natAbs den := by rw [nearest, natAbs_nearest]
  have finite : x.isFinite = true := by
    have bounded : v.natAbs * 1 ≤ 32 * den := by
      rw [magnitude, div_le_iff₀ den'] at small
      rw [Nat.mul_one]
      exact_mod_cast small
    have most := nearestBits_mono positive Nat.one_pos bounded
    have inside : nearestBits 32 1 < infinityBits := by decide +kernel
    rw [isFinite_iff_rank]
    exact ⟨number, by omega, by omega⟩
  have signed := value_eq_sign_mul finite nearest
  refine ⟨finite, ?_⟩
  rw [magnitude, real]
  rcases eq_or_ne v 0 with rfl | some
  · rw [Int.sign_zero, Int.zero_mul] at signed
    simpa [signed] using half_unit_pos.le
  · have cast : ∀ {z : Int}, z = v.sign * z.natAbs → (z : ℝ) = v.sign * (z.natAbs : ℝ) := by
      intro z sign
      rw [← Int.cast_natCast, ← Int.cast_mul, ← sign]
    have valueSign := cast signed
    have sign := cast (Int.sign_mul_natAbs v).symm
    have difference : (value x : ℝ) / units - v / den =
        v.sign * ((value x).natAbs / units - v.natAbs / den) := by
      rw [mul_sub, ← mul_div_assoc, ← mul_div_assoc, ← valueSign, ← sign]
    have one : |(v.sign : ℝ)| = 1 := by
      rw [← Int.cast_abs, Int.abs_sign_of_ne_zero some, Int.cast_one]
    rw [difference, abs_mul, one, one_mul]
    exact magnitude_error finite (Int.natAbs_pos.2 some) positive word

/-! ## Operations -/

/-- The double is finite and within `2 ^ -47` of a real number. -/
def Close (x : Float) (r : ℝ) : Prop := x.isFinite = true ∧ |real x - r| ≤ 1 / 2 ^ 47

theorem half_unit_le : 1 / (2 * units) ≤ 1 / 2 ^ 100 := by
  have most : 2 ^ 100 ≤ unitsPerOne := by decide +kernel
  have most' : (2 : ℝ) ^ 100 ≤ units := by
    have cast : ((2 ^ 100 : Nat) : ℝ) ≤ unitsPerOne := Nat.cast_le.2 most
    rwa [Nat.cast_pow, Nat.cast_ofNat] at cast
  have one := units_pos
  exact one_div_le_one_div_of_le (by positivity) (by linarith)

/-- Rounding a number of a moderate magnitude stays close to it. -/
theorem Rounds.close {x : Float} {r : ℝ} (rounds : Rounds x r) (small : |r| ≤ 32) : Close x r := by
  refine ⟨rounds.1, rounds.2.trans ?_⟩
  have half := half_unit_le
  norm_num at half ⊢
  linarith

section

variable {x y : Float} (xFinite : x.isFinite = true) (yFinite : y.isFinite = true)
include xFinite yFinite

theorem rounds_mul (small : |real x * real y| ≤ 32) : Rounds (x * y) (real x * real y) := by
  obtain ⟨number, nearest⟩ := rank_mul xFinite yFinite
  have exact : real x * real y =
      ((value x * value y : Int) : ℝ) / ((unitsPerOne * unitsPerOne : Nat) : ℝ) := by
    rw [real, real, div_mul_div_comm, Int.cast_mul, Nat.cast_mul]
    rfl
  rw [exact] at small ⊢
  exact rounds_of_rank (Nat.mul_pos unitsPerOne_pos unitsPerOne_pos) number nearest small

theorem rounds_sub (small : |real x - real y| ≤ 32) : Rounds (x - y) (real x - real y) := by
  obtain ⟨number, nearest⟩ := rank_sub xFinite yFinite
  have exact : real x - real y = ((value x - value y : Int) : ℝ) / (unitsPerOne : ℝ) := by
    rw [real, real, ← sub_div, Int.cast_sub]
    rfl
  rw [exact] at small ⊢
  exact rounds_of_rank unitsPerOne_pos number nearest small

end

theorem real_neg (x : Float) : real (-x) = -real x := by
  rw [real, real, value_neg, Int.cast_neg, neg_div]

theorem real_zero : real 0 = 0 := by
  rw [real, show value 0 = 0 by decide +kernel, Int.cast_zero, zero_div]

theorem rounds_add {x y : Float} (xFinite : x.isFinite = true) (yFinite : y.isFinite = true)
    (small : |real x + real y| ≤ 32) : Rounds (x + y) (real x + real y) := by
  have turned : x + y = x - -y := by
    have twice : - -y = y := eq_of_view_eq (by rw [view_neg, view_neg, neg_neg])
    rw [sub_eq_add_neg, twice]
  have opposite : real x + real y = real x - real (-y) := by rw [real_neg]; ring
  rw [opposite] at small ⊢
  rw [turned]
  exact rounds_sub xFinite (isFinite_neg yFinite) small

/-- What rounding adds to an error that was made before. -/
theorem Rounds.error_le {x : Float} {r exact error : ℝ} (rounds : Rounds x r)
    (near : |r - exact| ≤ error) :
    |real x - exact| ≤ error + (|exact| + error) / 2 ^ 53 + 1 / 2 ^ 100 := by
  have half := half_unit_le
  have magnitude : |r| ≤ |exact| + error := by
    have parts := abs_add_le (r - exact) exact
    rw [sub_add_cancel] at parts
    linarith
  have scaled : |r| / 2 ^ 53 ≤ (|exact| + error) / 2 ^ 53 := by gcongr
  linarith [rounds.2, abs_sub_le (real x) r exact]

/-- The error of a sum from those of its terms. -/
theorem add_error {x y : Float} {r s a b : ℝ} (xFinite : x.isFinite = true)
    (yFinite : y.isFinite = true) (xNear : |real x - r| ≤ a) (yNear : |real y - s| ≤ b)
    (small : |r + s| + (a + b) ≤ 32) : (x + y).isFinite = true ∧
      |real (x + y) - (r + s)| ≤ a + b + (|r + s| + (a + b)) / 2 ^ 53 + 1 / 2 ^ 100 := by
  have near : |real x + real y - (r + s)| ≤ a + b := by
    rw [add_sub_add_comm]
    exact (abs_add_le _ _).trans (add_le_add xNear yNear)
  have size : |real x + real y| ≤ 32 := by
    have parts := abs_add_le (real x + real y - (r + s)) (r + s)
    rw [sub_add_cancel] at parts
    linarith
  have rounds := rounds_add xFinite yFinite size
  exact ⟨rounds.1, rounds.error_le near⟩

/-! ## Bounded doubles -/

/-- The double is finite and of a bounded magnitude. -/
structure Bounded (bound : ℝ) (x : Float) : Prop where
  finite : x.isFinite = true
  magnitude : |real x| ≤ bound

theorem Within.bounded {x : Float} (within : Within 1 x) : Bounded 1 x := by
  refine ⟨within.isFinite isFinite_one, ?_⟩
  have one := units_pos
  have most := within.value_le isFinite_one
  have unit : value 1 = unitsPerOne := by decide +kernel
  rw [unit] at most
  have cast : |((value x : Int) : ℝ)| ≤ units := by
    rw [← Int.cast_abs, Int.abs_eq_natAbs, Int.cast_natCast]
    exact Nat.cast_le.2 (Int.ofNat_le.1 most)
  rw [real, abs_div, abs_of_pos one, div_le_one one]
  exact cast

theorem Close.bounded {x : Float} {r bound : ℝ} (close : Close x r)
    (le : |r| + 1 / 2 ^ 47 ≤ bound) : Bounded bound x := by
  refine ⟨close.1, ?_⟩
  have part := abs_add_le (real x - r) r
  rw [sub_add_cancel] at part
  linarith [close.2]

section

variable {x y : Float} {b c : ℝ} (xBounded : Bounded b x) (yBounded : Bounded c y)
include xBounded yBounded

theorem close_mul (small : b * c ≤ 32) : Close (x * y) (real x * real y) := by
  have product : |real x * real y| ≤ 32 := by
    rw [abs_mul]
    exact (mul_le_mul xBounded.magnitude yBounded.magnitude (abs_nonneg _)
      ((abs_nonneg _).trans xBounded.magnitude)).trans small
  exact (rounds_mul xBounded.finite yBounded.finite product).close product

theorem close_add (small : b + c ≤ 32) : Close (x + y) (real x + real y) := by
  have sum : |real x + real y| ≤ 32 :=
    (abs_add_le _ _).trans ((add_le_add xBounded.magnitude yBounded.magnitude).trans small)
  exact (rounds_add xBounded.finite yBounded.finite sum).close sum

end

/-- The error of a square. -/
theorem Bounded.mul_self_error {x : Float} (bounded : Bounded 3 x) : (x * x).isFinite = true ∧
    |real (x * x) - real x ^ 2| ≤ real x ^ 2 / 2 ^ 53 + 1 / 2 ^ 100 ∧ real x ^ 2 ≤ 9 := by
  obtain ⟨low, high⟩ := abs_le.1 bounded.magnitude
  have most : real x ^ 2 ≤ 9 := by
    have square := sq_le_sq' low high
    linarith
  have size : |real x * real x| ≤ 32 := by
    rw [abs_mul_self, ← sq]
    linarith
  have rounds := rounds_mul bounded.finite bounded.finite size
  have error := rounds.2
  rw [abs_mul_self, ← sq] at error
  exact ⟨rounds.1, error.trans (by linarith [half_unit_le]), most⟩

/-- Finite doubles are ordered as the real numbers they stand for. -/
theorem lt_of_real_lt {x y : Float} (xFinite : x.isFinite = true) (yFinite : y.isFinite = true)
    (less : real x < real y) : x < y := by
  refine lt_iff_rank.2 ⟨isNumber_of_isFinite xFinite, isNumber_of_isFinite yFinite, ?_⟩
  by_contra ranks
  have values := value_mono yFinite xFinite (not_lt.1 ranks)
  have reals : real y ≤ real x := by
    unfold real
    exact div_le_div_of_nonneg_right (Int.cast_le.2 values) units_pos.le
  exact absurd less (not_lt.2 reals)

end Antimeridian.Double
