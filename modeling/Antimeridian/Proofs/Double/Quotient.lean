import Antimeridian.Proofs.Double.Error

/-!
# Quotients and square roots

A quotient or a square root is found as a whole mantissa and its accuracy, which tells the part that
is left out from a half.  This amounts to two more digits of an exact mantissa, so the rounded
result is as close to the real one as that of a product is.
-/

namespace Antimeridian.Double
open Float.Model (UnpackedFloat Format totalExponent)
open Float.Model.UnpackedFloat

/-! ## Accuracy as two more digits -/

/-- How far the exact value lies past a mantissa, in quarters of its last place. -/
def quarters : Accuracy → Nat
  | .exact => 0
  | .inexact .lt => 1
  | .inexact .eq => 2
  | .inexact .gt => 3

theorem quarters_lt (accuracy : Accuracy) : quarters accuracy < 4 := by
  rcases accuracy with _ | (_ | _ | _) <;> decide

/-- A mantissa of some accuracy is an exact one of two more digits. -/
theorem ofMantissaAndAccuracy_eq (m : Nat) (accuracy : Accuracy) :
    ExtendedMantissa.ofMantissaAndAccuracy m accuracy =
      (ExtendedMantissa.ofMantissaAndAccuracy (4 * m + quarters accuracy) .exact >>> 2) := by
  have few := quarters_lt accuracy
  have whole : (4 * m + quarters accuracy) / 2 ^ (1 + 1) = m := by omega
  rw [shifted_succ _ 1, whole]
  rcases accuracy with _ | (_ | _ | _) <;>
    simp [ExtendedMantissa.ofMantissaAndAccuracy, quarters] <;> omega

theorem shiftRight_add (em : ExtendedMantissa) (j k : Nat) :
    (em >>> (j + k)) = ((em >>> j) >>> k) := by
  induction k with
  | zero => rfl
  | succ k ih =>
    have left : (em >>> (j + (k + 1))) = (em >>> (j + k)).shiftRightOne := rfl
    have right : ((em >>> j) >>> (k + 1)) = ((em >>> j) >>> k).shiftRightOne := rfl
    rw [left, right, ih]

section

variable {m : Nat} {e : Int} (digits : 2 ^ 52 ≤ m ∨ e ≤ -1074)
include digits

/-- A mantissa that has all its digits, or the least exponent, is only shifted down. -/
theorem le_target : e ≤ target m e := by
  unfold target
  rcases digits with leading | low
  · have log := (Nat.le_log2 (by omega)).2 leading
    omega
  · omega

/-- Two more digits do not change the exponent that a value is rounded at. -/
theorem target_quarters {k : Nat} (few : k < 4) : target (4 * m + k) (e - 2) = target m e := by
  unfold target
  rcases Nat.eq_zero_or_pos m with rfl | positive
  · have low := digits.resolve_left (by decide)
    have log : (4 * 0 + k).log2 ≤ 1 := by interval_cases k <;> decide
    have log' := Nat.log2_zero
    omega
  · have log : (4 * m + k).log2 = m.log2 + 2 := by
      have low := Nat.log2_self_le positive.ne'
      have high := @Nat.lt_log2_self m
      rw [Nat.pow_succ] at high
      rw [Nat.log2_eq_iff (by omega), Nat.pow_add, Nat.pow_add, Nat.pow_add]
      omega
    omega

/-- A mantissa of some accuracy is rounded as the exact one of two more digits is. -/
theorem roundWithAccuracy_quarters (s : Sign) (accuracy : Accuracy) :
    roundWithAccuracy .binary64 s m e accuracy =
      roundWithAccuracy .binary64 s (4 * m + quarters accuracy) (e - 2) .exact := by
  have fits := le_target digits
  have left : shiftToTargetExponent .binary64 m e accuracy =
      (ExtendedMantissa.ofMantissaAndAccuracy m accuracy >>> (target m e - e).toNat,
        e + (target m e - e).toNat) := rfl
  have right : ∀ n : Nat, shiftToTargetExponent .binary64 n (e - 2) .exact =
      (ExtendedMantissa.ofMantissaAndAccuracy n .exact >>> (target n (e - 2) - (e - 2)).toNat,
        e - 2 + (target n (e - 2) - (e - 2)).toNat) := fun _ => rfl
  have amount : (target m e - (e - 2)).toNat = 2 + (target m e - e).toNat := by omega
  have shifted : shiftToTargetExponent .binary64 m e accuracy =
      shiftToTargetExponent .binary64 (4 * m + quarters accuracy) (e - 2) .exact := by
    rw [left, right, target_quarters digits (quarters_lt accuracy), amount, shiftRight_add,
      ← ofMantissaAndAccuracy_eq]
    congr 1
    omega
  unfold roundWithAccuracy
  rw [shifted]

end

/-! ## Powers of two -/

theorem units_eq_zpow : units = 2 ^ (1074 : Int) := by
  have power : units = 2 ^ 1074 := by
    rw [units, unitsPerOne_eq_two_pow, Nat.cast_pow, Nat.cast_ofNat]
  rw [power]
  exact (zpow_natCast 2 1074).symm

/-- A power of two as a fraction of whole units. -/
theorem zpow_eq_fraction (e : Int) :
    (2 : ℝ) ^ e = 2 ^ (e + 1074).toNat / (units * 2 ^ (-(e + 1074)).toNat) := by
  have one := units_pos
  generalize up : (e + 1074).toNat = b
  generalize down : (-(e + 1074)).toNat = a
  have exponent : e = b - (1074 + a) := by omega
  rw [exponent, zpow_sub₀ two_ne_zero, zpow_add₀ two_ne_zero, ← units_eq_zpow, zpow_natCast,
    zpow_natCast]

theorem apply_eq (s : Sign) (n : Nat) : s.apply n = s.apply 1 * n := by
  cases s <;> simp [Sign.apply]

/-- The real number of a double taken apart. -/
theorem real_of_view {x : Float} {s : Sign} {m : Nat} {e : Int} {positive : 0 < m}
    (parts : view x = .finite s m e positive) : real x = s.apply 1 * (m * 2 ^ e) := by
  have low : -1074 ≤ e := by
    have canonical := canonical_view x
    rw [parts] at canonical
    exact canonical.2.1
  have none : (-(e + 1074)).toNat = 0 := by omega
  rw [real, value, parts, valueOf, apply_eq, zpow_eq_fraction, none, pow_zero, mul_one,
    Int.cast_mul, Int.cast_natCast, Nat.cast_mul, Nat.cast_pow, Nat.cast_ofNat, mul_div_assoc,
    mul_div_assoc]

theorem abs_apply_one (s : Sign) : |((s.apply 1 : Int) : ℝ)| = 1 := by
  cases s <;> simp [Sign.apply]

theorem real_of_zero {x : Float} {s : Sign} (zero : view x = .zero s) : real x = 0 := by
  rw [real, value, zero, show valueOf (.zero s) = 0 from rfl, Int.cast_zero, zero_div]

theorem close_zero {x : Float} {s : Sign} (zero : view x = .zero s) : Close x 0 := by
  have finite : x.isFinite = true := by
    change (view x).isFinite = true
    rw [zero]
    rfl
  have none : real x = 0 := real_of_zero zero
  refine ⟨finite, ?_⟩
  rw [none]
  norm_num

/-- The parts of a finite double that stands for a positive number. -/
theorem view_of_real_pos {x : Float} (finite : x.isFinite = true) (positive : 0 < real x) :
    ∃ m e h, view x = .finite .positive m e h := by
  rcases view_of_isFinite finite with ⟨s, zero⟩ | ⟨s, m, e, h, parts, -⟩
  · exact absurd (real_of_zero zero) positive.ne'
  · cases s with
    | positive => exact ⟨m, e, h, parts⟩
    | negative =>
      have weight : (0 : ℝ) ≤ m * 2 ^ e := by positivity
      rw [real_of_view parts] at positive
      norm_num [Sign.apply] at positive
      linarith

/-- A nonzero number is given by a mantissa, an exponent and an accuracy, with digits enough to be
rounded. -/
structure Approximates (m : Nat) (e : Int) (accuracy : Accuracy) (r : ℝ) : Prop where
  some : 0 < 4 * m + quarters accuracy
  digits : 2 ^ 52 ≤ m ∨ e ≤ -1074
  near : |r - (4 * m + quarters accuracy : Nat) * 2 ^ (e - 2)| ≤ 2 ^ (e - 2)

/-- A number of a moderate magnitude is rounded to a double close to it. -/
theorem Approximates.close {x : Float} {s : Sign} {m : Nat} {e : Int} {accuracy : Accuracy} {r : ℝ}
    (approximates : Approximates m e accuracy r) (small : |r| ≤ 16)
    (parts : view x = unpack .binary64 (pack .binary64
      (roundWithAccuracy .binary64 s m e accuracy))) : Close x (s.apply 1 * r) := by
  obtain ⟨some, digits, near⟩ := approximates
  have fits := le_target digits
  rw [roundWithAccuracy_quarters digits] at parts
  have room := target_quarters digits (quarters_lt accuracy)
  generalize order : 4 * m + quarters accuracy = n at *
  generalize place : e - 2 = f at *
  have weight : (0 : ℝ) < 2 ^ f := by positivity
  have nearLow := (abs_le.1 near).1
  have nearHigh := (abs_le.1 near).2
  have rHigh := (abs_le.1 small).2
  -- the last of the digits is small: there are many of them, or it is less than half a unit
  have fine : (2 : ℝ) ^ f ≤ 1 / 2 ^ 49 := by
    rcases digits with leading | low
    · have many : (2 : ℝ) ^ 54 ≤ n := by
        have cast : 2 ^ 54 ≤ n := by omega
        exact_mod_cast cast
      have product := mul_le_mul_of_nonneg_right many weight.le
      norm_num at product ⊢
      linarith
    · have half := half_unit_le
      have least : (2 : ℝ) ^ f ≤ 2 ^ (-1074 : Int) := zpow_le_zpow_right₀ one_le_two (by omega)
      rw [zpow_neg, ← units_eq_zpow, ← one_div] at least
      have double : 1 / units = 2 * (1 / (2 * units)) := by
        have one := units_pos
        field_simp
      norm_num at half least double ⊢
      linarith
  have measures : Measures (n * 2 ^ (f + 1074).toNat) (unitsPerOne * 2 ^ (-(f + 1074)).toNat) n f
      (-(f + 1074)).toNat (f + 1074).toNat := ⟨by omega, by ring⟩
  have denominator := Nat.mul_pos unitsPerOne_pos (Nat.two_pow_pos (-(f + 1074)).toNat)
  obtain ⟨number, nearest⟩ := measures.roundsTo s some denominator (by omega)
  have fraction : ((s.apply (n * 2 ^ (f + 1074).toNat : Nat) : Int) : ℝ) /
      ((unitsPerOne * 2 ^ (-(f + 1074)).toNat : Nat) : ℝ) = s.apply 1 * (n * 2 ^ f) := by
    rw [apply_eq, zpow_eq_fraction, Int.cast_mul, Int.cast_natCast, Nat.cast_mul, Nat.cast_pow,
      Nat.cast_ofNat, Nat.cast_mul, Nat.cast_pow, Nat.cast_ofNat, mul_div_assoc, mul_div_assoc]
    rfl
  rw [← parts] at number nearest
  have magnitude : |(s.apply 1 : ℝ) * (n * 2 ^ f)| = n * 2 ^ f := by
    rw [abs_mul, abs_apply_one, one_mul, abs_of_nonneg (by positivity)]
  have rounds : Rounds x (s.apply 1 * (n * 2 ^ f)) := by
    rw [← fraction]
    apply rounds_of_rank denominator number nearest
    rw [fraction, magnitude]
    norm_num at fine
    linarith
  have error := rounds.2
  rw [magnitude] at error
  refine ⟨rounds.1, ?_⟩
  have half := half_unit_le
  calc |real x - s.apply 1 * r|
      = |(real x - s.apply 1 * (n * 2 ^ f)) - s.apply 1 * (r - n * 2 ^ f)| := by ring_nf
    _ ≤ |real x - s.apply 1 * (n * 2 ^ f)| + |s.apply 1 * (r - n * 2 ^ f)| := abs_sub _ _
    _ ≤ (n * 2 ^ f / 2 ^ 53 + 1 / (2 * units)) + 2 ^ f := by
      rw [abs_mul, abs_apply_one, one_mul]
      exact add_le_add error near
    _ ≤ 1 / 2 ^ 47 := by
      norm_num at half fine ⊢
      linarith

/-- A number is a quarter of the last place away from a mantissa of two more digits if its multiple
is one away. -/
theorem near_of_quarters {r : ℝ} {n : Nat} (e : Int) (low : (n : ℝ) ≤ 4 * r + 1)
    (high : 4 * r ≤ n + 1) : |r * 2 ^ e - n * 2 ^ (e - 2)| ≤ 2 ^ (e - 2) := by
  have weight : (0 : ℝ) < 2 ^ (e - 2) := by positivity
  have split : (2 : ℝ) ^ e = 4 * 2 ^ (e - 2) := by
    rw [zpow_sub₀ two_ne_zero]
    norm_num
    ring
  have difference : r * 2 ^ e - n * 2 ^ (e - 2) = (4 * r - n) * 2 ^ (e - 2) := by
    rw [split]
    ring
  have one : |4 * r - n| ≤ 1 := abs_le.2 ⟨by linarith, by linarith⟩
  rw [difference, abs_mul, abs_of_pos weight]
  exact mul_le_of_le_one_left weight.le one

/-! ## Quotients -/

/-- The accuracy of a quotient tells its fraction to a quarter. -/
theorem quarters_accuracyOfFraction {k n : Nat} (less : k < n) :
    quarters (accuracyOfFraction k n) * n ≤ 4 * k + n ∧
      4 * k ≤ quarters (accuracyOfFraction k n) * n + n := by
  unfold accuracyOfFraction
  split_ifs with zero
  · simp [zero, quarters]
  · rcases lt_trichotomy (2 * k) n with below | half | above
    · rw [compare_lt_iff_lt.2 below, quarters]
      omega
    · rw [compare_eq_iff_eq.2 half, quarters]
      omega
    · rw [compare_gt_iff_gt.2 above, quarters]
      omega

theorem quarters_accuracyOfFraction_pos {k : Nat} (n : Nat) (some : 0 < k) :
    0 < quarters (accuracyOfFraction k n) := by
  rw [accuracyOfFraction, if_neg some.ne']
  cases compare (2 * k) n <;> decide

/-- The mantissa and the accuracy of a quotient of whole numbers. -/
theorem near_div {m n : Nat} (positive : 0 < n) (e : Int) :
    |(m / n : ℝ) * 2 ^ e - (4 * (m / n) + quarters (accuracyOfFraction (m % n) n) : Nat) *
      2 ^ (e - 2)| ≤ 2 ^ (e - 2) := by
  obtain ⟨low, high⟩ := quarters_accuracyOfFraction (Nat.mod_lt m positive)
  have whole := Nat.div_add_mod m n
  generalize quarters (accuracyOfFraction (m % n) n) = c at *
  have product : (4 * (m / n) + c) * n = 4 * (n * (m / n)) + c * n := by ring
  have positive' : (0 : ℝ) < n := Nat.cast_pos.2 positive
  apply near_of_quarters
  · have bound : (4 * (m / n) + c) * n ≤ 4 * m + n := by omega
    have bound' : ((4 * (m / n) + c : Nat) : ℝ) * n ≤ 4 * m + n := by exact_mod_cast bound
    rw [← sub_le_iff_le_add, ← mul_div_assoc, le_div_iff₀ positive']
    linarith
  · have bound : 4 * m ≤ (4 * (m / n) + c) * n + n := by omega
    have bound' : (4 : ℝ) * m ≤ (4 * (m / n) + c : Nat) * n + n := by exact_mod_cast bound
    rw [← mul_div_assoc, div_le_iff₀ positive']
    linarith

/-- A quotient of nonzero values has digits enough to be rounded. -/
theorem div_digits {m n : Nat} (mPositive : 0 < m) (nPositive : 0 < n) {e f t : Int}
    (exponent : t = min (e - f) (max (m.log2 + 1 + e - (n.log2 + 1 + f) - 53) (-1074))) :
    2 ^ 52 ≤ m * 2 ^ (e - f - t).toNat / n ∨ t ≤ -1074 := by
  rcases le_or_gt t (-1074) with least | above
  · exact Or.inr least
  · left
    rw [Nat.le_div_iff_mul_le nPositive]
    calc 2 ^ 52 * n ≤ 2 ^ 52 * 2 ^ (n.log2 + 1) := Nat.mul_le_mul_left _ Nat.lt_log2_self.le
      _ = 2 ^ (52 + (n.log2 + 1)) := (Nat.pow_add ..).symm
      _ ≤ 2 ^ (m.log2 + (e - f - t).toNat) := Nat.pow_le_pow_right (by decide) (by omega)
      _ = 2 ^ m.log2 * 2 ^ (e - f - t).toNat := Nat.pow_add ..
      _ ≤ m * 2 ^ (e - f - t).toNat := Nat.mul_le_mul_right _ (Nat.log2_self_le mPositive.ne')

/-- The mantissa and the accuracy of a quotient approximate it. -/
theorem approximates_div {m n : Nat} (mPositive : 0 < m) (nPositive : 0 < n) {e f t : Int}
    (exponent : t = min (e - f) (max (m.log2 + 1 + e - (n.log2 + 1 + f) - 53) (-1074))) :
    Approximates (m * 2 ^ (e - f - t).toNat / n) t
      (accuracyOfFraction (m * 2 ^ (e - f - t).toNat % n) n) (m * 2 ^ e / (n * 2 ^ f)) := by
  have digits := div_digits mPositive nPositive exponent
  have whole : (m : ℝ) * 2 ^ e / (n * 2 ^ f) =
      ((m * 2 ^ (e - f - t).toNat : Nat) / n : ℝ) * 2 ^ t := by
    have exponents : e = (e - f - t).toNat + t + f := by omega
    nth_rewrite 1 [exponents]
    rw [zpow_add₀ two_ne_zero, zpow_add₀ two_ne_zero, zpow_natCast, Nat.cast_mul, Nat.cast_pow,
      Nat.cast_ofNat]
    field_simp
  have some : 0 < m * 2 ^ (e - f - t).toNat := Nat.mul_pos mPositive (Nat.two_pow_pos _)
  generalize m * 2 ^ (e - f - t).toNat = product at *
  refine ⟨?_, digits, ?_⟩
  · rcases Nat.eq_zero_or_pos (product % n) with none | rest
    · have quotient := Nat.div_pos (Nat.le_of_dvd some (Nat.dvd_of_mod_eq_zero none)) nPositive
      omega
    · have fraction := quarters_accuracyOfFraction_pos n rest
      omega
  · rw [whole]
    exact near_div nPositive t

/-- A quotient of a moderate magnitude is close to the real one. -/
theorem close_div {x y : Float} (xFinite : x.isFinite = true) (yFinite : y.isFinite = true)
    (positive : 0 < real y) (small : |real x / real y| ≤ 16) :
    Close (x / y) (real x / real y) := by
  have parts : view (x / y) = unpack .binary64 (pack .binary64 (div .binary64 (view x) (view y))) :=
    rfl
  obtain ⟨n, f, hn, yParts⟩ := view_of_real_pos yFinite positive
  rcases view_of_isFinite xFinite with ⟨s, xZero⟩ | ⟨s, m, e, hm, xParts, -⟩
  · have none : div .binary64 (.zero s) (.finite .positive n f hn) = .zero (s / .positive) := rfl
    rw [xZero, yParts, none, @unpack_pack (.zero (s / .positive)) trivial] at parts
    rw [real_of_zero xZero, zero_div]
    exact close_zero parts
  · have ratio : real x / real y = s.apply 1 * (m * 2 ^ e / (n * 2 ^ f)) := by
      rw [real_of_view xParts, real_of_view yParts]
      simp [Sign.apply, mul_div_assoc]
    rw [ratio] at small ⊢
    rw [abs_mul, abs_apply_one, one_mul] at small
    apply (approximates_div hm hn rfl).close small
    rw [parts, xParts, yParts, ← Nat.shiftLeft_eq]
    cases s <;> rfl

/-! ## Square roots -/

/-- The accuracy that a square root has, by the rest that is left when its square is taken away. -/
def accuracyOfRoot (root rest : Nat) : Accuracy :=
  if rest = 0 then .exact else .inexact (if rest ≤ root then .lt else .gt)

/-- The accuracy of a square root tells its fraction to a quarter. -/
theorem quarters_accuracyOfRoot {root rest : Nat} (most : rest ≤ 2 * root) :
    (4 * root + quarters (accuracyOfRoot root rest) : ℝ) ≤ 4 * √(root ^ 2 + rest) + 1 ∧
      4 * √(root ^ 2 + rest) ≤ (4 * root + quarters (accuracyOfRoot root rest) : ℝ) + 1 := by
  have nonneg : (0 : ℝ) ≤ root := Nat.cast_nonneg root
  unfold accuracyOfRoot
  split_ifs with none less
  · -- the square root is whole
    rw [none, Nat.cast_zero, add_zero, Real.sqrt_sq nonneg, quarters, Nat.cast_zero]
    constructor <;> linarith
  · have less' : (rest : ℝ) ≤ root := Nat.cast_le.2 less
    have low : (root : ℝ) ≤ √(root ^ 2 + rest) :=
      Real.le_sqrt_of_sq_le (le_add_of_nonneg_right (Nat.cast_nonneg rest))
    have high : √(root ^ 2 + rest) ≤ (root : ℝ) + 1 / 2 := by
      rw [Real.sqrt_le_left (by linarith)]
      linarith
    rw [quarters, Nat.cast_one]
    constructor <;> linarith
  · have more : (root : ℝ) + 1 ≤ rest := by exact_mod_cast Nat.lt_of_not_le less
    have most' : (rest : ℝ) ≤ 2 * root := by exact_mod_cast most
    have low : (root : ℝ) + 1 / 2 ≤ √(root ^ 2 + rest) := by
      apply Real.le_sqrt_of_sq_le
      linarith
    have high : √(root ^ 2 + rest) ≤ (root : ℝ) + 1 := by
      rw [Real.sqrt_le_left (by linarith)]
      linarith
    rw [quarters, Nat.cast_ofNat]
    constructor <;> linarith

/-- The mantissa and the accuracy of the square root of a whole number. -/
theorem near_sqrt (m : Nat) (e : Int) :
    |√(m : ℝ) * 2 ^ e -
      (4 * m.sqrt + quarters (accuracyOfRoot m.sqrt (m - m.sqrt * m.sqrt)) : Nat) * 2 ^ (e - 2)| ≤
        2 ^ (e - 2) := by
  have low := Nat.sqrt_le m
  have high := Nat.lt_succ_sqrt m
  obtain ⟨rest, square⟩ : ∃ rest, m = m.sqrt * m.sqrt + rest := ⟨m - m.sqrt * m.sqrt, by omega⟩
  have most : rest ≤ 2 * m.sqrt := by
    rw [Nat.succ_mul, Nat.mul_succ] at high
    omega
  have whole : (m : ℝ) = m.sqrt ^ 2 + rest := by
    rw [sq]
    exact_mod_cast square
  rw [show m - m.sqrt * m.sqrt = rest by omega, whole]
  obtain ⟨below, above⟩ := quarters_accuracyOfRoot most
  apply near_of_quarters
  · push_cast
    exact below
  · push_cast
    exact above

/-- The square root of a positive value has digits enough to be rounded. -/
theorem sqrt_digits {m : Nat} (positive : 0 < m) {e t : Int}
    (exponent : t = min (e.ediv 2) (max ((m.log2 + 1 + e + 1).ediv 2 - 53) (-1074))) :
    2 ^ 52 ≤ (m * 2 ^ (e - 2 * t).toNat).sqrt ∨ t ≤ -1074 := by
  rcases le_or_gt t (-1074) with least | above
  · exact Or.inr least
  · left
    rw [Nat.le_sqrt]
    have half : t ≤ (m.log2 + 1 + e + 1) / 2 - 53 := by
      change t = min _ (max ((m.log2 + 1 + e + 1) / 2 - 53) (-1074)) at exponent
      omega
    calc 2 ^ 52 * 2 ^ 52 = 2 ^ 104 := by norm_num
      _ ≤ 2 ^ (m.log2 + (e - 2 * t).toNat) := Nat.pow_le_pow_right (by decide) (by omega)
      _ = 2 ^ m.log2 * 2 ^ (e - 2 * t).toNat := Nat.pow_add ..
      _ ≤ m * 2 ^ (e - 2 * t).toNat := Nat.mul_le_mul_right _ (Nat.log2_self_le positive.ne')

/-- The mantissa and the accuracy of a square root approximate it. -/
theorem approximates_sqrt {m : Nat} (positive : 0 < m) {e t : Int}
    (exponent : t = min (e.ediv 2) (max ((m.log2 + 1 + e + 1).ediv 2 - 53) (-1074))) :
    Approximates (m * 2 ^ (e - 2 * t).toNat).sqrt t
      (accuracyOfRoot (m * 2 ^ (e - 2 * t).toNat).sqrt
        (m * 2 ^ (e - 2 * t).toNat - (m * 2 ^ (e - 2 * t).toNat).sqrt *
          (m * 2 ^ (e - 2 * t).toNat).sqrt)) (√(m * 2 ^ e)) := by
  have digits := sqrt_digits positive exponent
  have whole : √((m : ℝ) * 2 ^ e) = √((m * 2 ^ (e - 2 * t).toNat : Nat) : ℝ) * 2 ^ t := by
    have weight : (0 : ℝ) ≤ 2 ^ t := by positivity
    have exponents : e = (e - 2 * t).toNat + (t + t) := by
      change t = min (e / 2) _ at exponent
      omega
    nth_rewrite 1 [exponents]
    rw [zpow_add₀ two_ne_zero, zpow_add₀ two_ne_zero, zpow_natCast, ← mul_assoc,
      Real.sqrt_mul (by positivity), Real.sqrt_mul_self weight, Nat.cast_mul, Nat.cast_pow,
      Nat.cast_ofNat]
  have some : 0 < m * 2 ^ (e - 2 * t).toNat := Nat.mul_pos positive (Nat.two_pow_pos _)
  generalize m * 2 ^ (e - 2 * t).toNat = product at *
  have root := Nat.sqrt_pos.2 some
  refine ⟨by omega, digits, ?_⟩
  rw [whole]
  exact near_sqrt product t

/-- The square root of a positive double of a moderate magnitude is close to the real one. -/
theorem close_sqrt {x : Float} (finite : x.isFinite = true) (positive : 0 < real x)
    (small : √(real x) ≤ 16) : Close x.sqrt √(real x) := by
  have parts : view x.sqrt = unpack .binary64 (pack .binary64 (sqrt .binary64 (view x))) := rfl
  obtain ⟨m, e, h, xParts⟩ := view_of_real_pos finite positive
  have exact : real x = m * 2 ^ e := by
    rw [real_of_view xParts]
    simp [Sign.apply]
  rw [exact] at small ⊢
  rw [← abs_of_nonneg (Real.sqrt_nonneg _)] at small
  have close : Close x.sqrt ((Sign.positive.apply 1 : Int) * √(m * 2 ^ e)) := by
    apply (approximates_sqrt h rfl).close small
    rw [parts, xParts, ← Nat.shiftLeft_eq]
    rfl
  simpa [Sign.apply] using close

end Antimeridian.Double
