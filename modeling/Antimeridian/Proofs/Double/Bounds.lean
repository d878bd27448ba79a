import Antimeridian.Angle
import Antimeridian.Proofs.Double.Rounding

/-!
# Bounds that survive rounding

A product of numbers within bounds lies within the rounded product of the bounds, since rounding is
monotone, and the same holds of differences.  Sines and cosines lie within one and an arcsine within
a right angle, whatever the machine's function chooses in a close case.
-/

namespace Antimeridian.Double
open Float.Model (UnpackedFloat Format)
open Float.Model.UnpackedFloat

/-- The number is at least `-bound` and at most `bound`. -/
def Within (bound x : Float) : Prop := -bound ≤ x ∧ x ≤ bound

instance (bound x : Float) : Decidable (Within bound x) := inferInstanceAs (Decidable (_ ∧ _))

section

variable {x y bound bound' : Float}

theorem isNumber_of_isFinite (finite : x.isFinite = true) : IsNumber x :=
  (isFinite_iff_rank.1 finite).1

theorem isNumber_neg_iff : IsNumber (-x) ↔ IsNumber x := by
  constructor
  · intro number absent
    apply number
    rw [view_neg, absent]
    rfl
  · exact isNumber_neg

theorem le_transitive {z : Float} (first : x ≤ y) (second : y ≤ z) : x ≤ z := by
  obtain ⟨xNumber, -, le⟩ := le_iff_rank.1 first
  obtain ⟨-, zNumber, le'⟩ := le_iff_rank.1 second
  exact le_iff_rank.2 ⟨xNumber, zNumber, le.trans le'⟩

/-- A bound on a double is a bound on its rank, in both directions. -/
theorem within_iff : Within bound x ↔
    IsNumber bound ∧ IsNumber x ∧ ((rank x).natAbs : Int) ≤ rank bound := by
  rw [Within, le_iff_rank, le_iff_rank, isNumber_neg_iff, rank_neg]
  constructor
  · rintro ⟨⟨boundNumber, number, above⟩, -, -, below⟩
    exact ⟨boundNumber, number, by omega⟩
  · rintro ⟨boundNumber, number, close⟩
    exact ⟨⟨boundNumber, number, by omega⟩, number, boundNumber, by omega⟩

theorem Within.isFinite (within : Within bound x) (finite : bound.isFinite = true) :
    x.isFinite = true := by
  obtain ⟨-, number, close⟩ := within_iff.1 within
  obtain ⟨-, -, below⟩ := isFinite_iff_rank.1 finite
  exact isFinite_iff_rank.2 ⟨number, by omega, by omega⟩

theorem within_neg (within : Within bound x) : Within bound (-x) := by
  obtain ⟨boundNumber, number, close⟩ := within_iff.1 within
  rw [within_iff, isNumber_neg_iff, rank_neg, Int.natAbs_neg]
  exact ⟨boundNumber, number, close⟩

end

/-! ## Values and ranks -/

section

variable {x y : Float}

/-- Doubles with lesser words have lesser values. -/
theorem units_le {s t : Sign} {m n : Nat} {e f : Int} {hm : 0 < m} {hn : 0 < n}
    (first : Canonical (.finite s m e hm)) (second : Canonical (.finite t n f hn))
    (words : magnitudeWord m e ≤ magnitudeWord n f) :
    m * 2 ^ (e + 1074).toNat ≤ n * 2 ^ (f + 1074).toNat := by
  obtain ⟨mDigits, eLow, -, mLead⟩ := first
  obtain ⟨nDigits, fLow, -, nLead⟩ := second
  unfold magnitudeWord at words
  generalize ePlaces : (e + 1074).toNat = p at *
  generalize fPlaces : (f + 1074).toNat = q at *
  rcases Nat.lt_trichotomy p q with less | rfl | greater
  · have leading : 2 ^ 52 ≤ n := by omega
    calc m * 2 ^ p ≤ 2 ^ 53 * 2 ^ p := Nat.mul_le_mul_right _ mDigits.le
      _ = 2 ^ 52 * 2 ^ (p + 1) := by ring
      _ ≤ n * 2 ^ q := Nat.mul_le_mul leading (Nat.pow_le_pow_right (by decide) less)
  · exact Nat.mul_le_mul_right _ (by omega)
  · omega

theorem natAbs_rankOf_finite (s : Sign) (m : Nat) (e : Int) (positive : 0 < m) :
    (rankOf (.finite s m e positive)).natAbs = magnitudeWord m e := by
  cases s <;> simp [rankOf, Sign.apply]

theorem natAbs_valueOf_finite (s : Sign) (m : Nat) (e : Int) (positive : 0 < m) :
    (valueOf (.finite s m e positive)).natAbs = m * 2 ^ (e + 1074).toNat := by
  cases s <;> simp [valueOf, Sign.apply, Int.natAbs_mul, Int.natAbs_pow]

/-- Magnitudes are ordered like ranks. -/
theorem natAbs_value_le (xFinite : x.isFinite = true) (yFinite : y.isFinite = true)
    (ranks : (rank x).natAbs ≤ (rank y).natAbs) : (value x).natAbs ≤ (value y).natAbs := by
  unfold value
  unfold rank at ranks
  rcases view_of_isFinite xFinite with ⟨s, xZero⟩ | ⟨s, m, e, hm, xParts, xCanonical⟩
  · rw [xZero]
    exact Nat.zero_le _
  · rw [xParts, natAbs_rankOf_finite] at ranks
    rw [xParts, natAbs_valueOf_finite]
    rcases view_of_isFinite yFinite with ⟨t, yZero⟩ | ⟨t, n, f, hn, yParts, yCanonical⟩
    · rw [yZero] at ranks
      have positive := (magnitudeWord_bounds xCanonical).1
      exact absurd positive (Nat.not_lt.2 ranks)
    · rw [yParts, natAbs_rankOf_finite] at ranks
      rw [yParts, natAbs_valueOf_finite]
      exact units_le xCanonical yCanonical ranks

/-- The value of a finite double has the sign of its rank. -/
theorem sign_value (finite : x.isFinite = true) : (value x).sign = (rank x).sign := by
  unfold value rank
  rcases view_of_isFinite finite with ⟨s, zero⟩ | ⟨s, m, e, positive, parts, canonical⟩
  · rw [zero]
    rfl
  · have word := (magnitudeWord_bounds canonical).1
    have units := Nat.mul_pos positive (Nat.two_pow_pos (e + 1074).toNat)
    rw [parts, valueOf, rankOf]
    cases s <;> simp only [Sign.apply, Int.sign_neg, Int.sign_natCast_of_ne_zero word.ne',
      Int.sign_natCast_of_ne_zero units.ne']

/-- Finite doubles of the same rank have the same value. -/
theorem value_eq_of_rank_eq (xFinite : x.isFinite = true) (yFinite : y.isFinite = true)
    (ranks : rank x = rank y) : value x = value y := by
  have magnitudes : (value x).natAbs = (value y).natAbs :=
    Nat.le_antisymm (natAbs_value_le xFinite yFinite (by rw [ranks]))
      (natAbs_value_le yFinite xFinite (by rw [ranks]))
  rw [← Int.sign_mul_natAbs (value x), ← Int.sign_mul_natAbs (value y), magnitudes,
    sign_value xFinite, sign_value yFinite, ranks]

/-- Finite doubles are ordered as their values are. -/
theorem value_mono (xFinite : x.isFinite = true) (yFinite : y.isFinite = true)
    (ranks : rank x ≤ rank y) : value x ≤ value y := by
  have nonneg : ∀ {z : Float}, z.isFinite = true → (0 ≤ value z ↔ 0 ≤ rank z) := by
    intro z finite
    rw [← Int.sign_nonneg_iff, sign_value finite, Int.sign_nonneg_iff]
  rcases lt_or_ge (rank x) 0 with negative | positive
  · have below := mt (nonneg xFinite).1 (by omega)
    rcases lt_or_ge (rank y) 0 with negative' | positive'
    · have magnitudes := natAbs_value_le yFinite xFinite (by omega)
      have below' := mt (nonneg yFinite).1 (by omega)
      omega
    · have above := (nonneg yFinite).2 positive'
      omega
  · have magnitudes := natAbs_value_le xFinite yFinite (by omega)
    have above := (nonneg yFinite).2 (by omega)
    omega

theorem value_neg (x : Float) : value (-x) = -value x := by
  rw [value, view_neg, value]
  cases view x with
  | finite s m e positive => exact apply_neg s _
  | _ => rfl

end

/-! ## Products and differences -/

section

variable {x y bound bound' : Float}

theorem natAbs_nearest (v : Int) (den : Nat) :
    (nearest v den).natAbs = nearestBits v.natAbs den := by
  rcases eq_or_ne v 0 with rfl | some
  · simp [nearest, nearestBits]
  · rw [nearest, Int.natAbs_mul, Int.natAbs_sign_of_ne_zero some, Nat.one_mul, Int.natAbs_natCast]

theorem nearest_nonneg {v : Int} (nonneg : 0 ≤ v) (den : Nat) : 0 ≤ nearest v den :=
  Int.mul_nonneg (Int.sign_nonneg_iff.2 nonneg) (Int.natCast_nonneg _)

/-- Values of lesser magnitude are rounded to doubles of lesser magnitude. -/
theorem natAbs_nearest_le {v w : Int} {den : Nat} (positive : 0 < den) (nonneg : 0 ≤ w)
    (close : v.natAbs ≤ w.natAbs) : ((nearest v den).natAbs : Int) ≤ nearest w den := by
  have magnitudes := nearestBits_mono positive positive (Nat.mul_le_mul_right den close)
  rw [← natAbs_nearest, ← natAbs_nearest] at magnitudes
  have sign := nearest_nonneg nonneg den
  omega

/-- Rounding keeps the order. -/
theorem nearest_mono {v w : Int} {den : Nat} (positive : 0 < den) (le : v ≤ w) :
    nearest v den ≤ nearest w den := by
  have below : ∀ {u : Int}, u ≤ 0 → nearest u den ≤ 0 := by
    intro u nonpos
    have opposite := nearest_nonneg (Int.neg_nonneg_of_nonpos nonpos) den
    rw [nearest_neg] at opposite
    omega
  rcases le_total 0 v with nonneg | nonpos
  · have magnitudes := @natAbs_nearest_le v w den positive (nonneg.trans le) (by omega)
    omega
  · rcases le_total 0 w with nonneg' | nonpos'
    · exact (below nonpos).trans (nearest_nonneg nonneg' den)
    · have magnitudes := @natAbs_nearest_le (-w) (-v) den positive (by omega) (by omega)
      rw [nearest_neg, nearest_neg] at magnitudes
      omega

/-- The value of a bound, and what lies within it. -/
theorem Within.value_le (within : Within bound x) (finite : bound.isFinite = true) :
    ((value x).natAbs : Int) ≤ value bound := by
  obtain ⟨-, -, close⟩ := within_iff.1 within
  have magnitudes := natAbs_value_le (within.isFinite finite) finite (by omega)
  have sign : (value bound).sign = (rank bound).sign := sign_value finite
  have nonneg : 0 ≤ value bound := by
    rw [← Int.sign_nonneg_iff, sign, Int.sign_nonneg_iff]
    omega
  omega

/-- A product is bounded by the product of the bounds. -/
theorem within_mul (xWithin : Within bound x) (yWithin : Within bound' y)
    (finite : bound.isFinite = true) (finite' : bound'.isFinite = true) :
    Within (bound * bound') (x * y) := by
  obtain ⟨number, rank⟩ := rank_mul (xWithin.isFinite finite) (yWithin.isFinite finite')
  obtain ⟨boundNumber, boundRank⟩ := rank_mul finite finite'
  have xValue := xWithin.value_le finite
  have yValue := yWithin.value_le finite'
  have unit := Nat.mul_pos unitsPerOne_pos unitsPerOne_pos
  rw [within_iff, rank, boundRank]
  refine ⟨boundNumber, number, natAbs_nearest_le unit ?_ ?_⟩
  · exact Int.mul_nonneg (by omega) (by omega)
  · rw [Int.natAbs_mul, Int.natAbs_mul]
    exact Nat.mul_le_mul (by omega) (by omega)

theorem isFinite_neg (finite : x.isFinite = true) : (-x).isFinite = true := by
  obtain ⟨number, above, below⟩ := isFinite_iff_rank.1 finite
  rw [isFinite_iff_rank, rank_neg]
  exact ⟨isNumber_neg number, by omega, by omega⟩

/-- Subtracting more does not leave more, rounding included. -/
theorem sub_antitone {z : Float} (zFinite : z.isFinite = true) (xFinite : x.isFinite = true)
    (yFinite : y.isFinite = true) (le : x ≤ y) : z - y ≤ z - x := by
  obtain ⟨xNumber, xRank⟩ := rank_sub zFinite xFinite
  obtain ⟨yNumber, yRank⟩ := rank_sub zFinite yFinite
  have values := value_mono xFinite yFinite (le_iff_rank.1 le).2.2
  rw [le_iff_rank, xRank, yRank]
  exact ⟨yNumber, xNumber, nearest_mono unitsPerOne_pos (by omega)⟩

/-- A difference is bounded by the sum of the bounds. -/
theorem within_sub (xWithin : Within bound x) (yWithin : Within bound' y)
    (finite : bound.isFinite = true) (finite' : bound'.isFinite = true) :
    Within (bound - -bound') (x - y) := by
  obtain ⟨number, rank⟩ := rank_sub (xWithin.isFinite finite) (yWithin.isFinite finite')
  obtain ⟨boundNumber, boundRank⟩ := rank_sub finite (isFinite_neg finite')
  have xValue := xWithin.value_le finite
  have yValue := yWithin.value_le finite'
  rw [value_neg] at boundRank
  rw [within_iff, rank, boundRank]
  exact ⟨boundNumber, number, natAbs_nearest_le unitsPerOne_pos (by omega) (by omega)⟩

end

/-! ## Quotients -/

/-- Putting a number together does not make it a NaN. -/
theorem unpack_pack_ne_notANumber {u : UnpackedFloat} (number : u ≠ .notANumber) :
    unpack .binary64 (pack .binary64 u) ≠ .notANumber := by
  cases u with
  | notANumber => exact absurd rfl number
  | infinity s => rw [@unpack_pack (.infinity s) trivial]; simp
  | zero s => rw [@unpack_pack (.zero s) trivial]; simp
  | finite s m e positive =>
    simp only [pack]
    split
    · rw [show packedInfinity .binary64 s = pack .binary64 (.infinity s) from rfl,
        @unpack_pack (.infinity s) trivial]
      simp
    · rename_i inRange
      split
      · -- the exponent field is not all ones
        have bias : (Format.binary64.exponentBias : Int) = 1023 := by decide
        have ordinary : BitVec.ofNat 11 (e + Format.binary64.exponentBias + (52 : Nat)).toNat ≠
            -1#11 := by
          intro ones
          have field := congrArg BitVec.toNat ones
          rw [BitVec.toNat_ofNat, Nat.mod_eq_of_lt (by omega)] at field
          simp at field
          omega
        rw [unpack_packComponents, if_neg ordinary]
        split_ifs <;> simp
      · rw [unpack_packComponents, if_neg (by decide)]
        split_ifs <;> simp

theorem roundWithAccuracy_ne_notANumber (s : Sign) (m : Nat) (e : Int) (accuracy : Accuracy) :
    roundWithAccuracy .binary64 s m e accuracy ≠ .notANumber := by
  unfold roundWithAccuracy
  dsimp only
  split <;> simp

/-- A finite double divided by a positive one is a number. -/
theorem isNumber_div {x y : Float} (finite : x.isFinite = true) (positive : 0 < y) :
    IsNumber (x / y) := by
  obtain ⟨-, number, above⟩ := lt_iff_rank.1 positive
  change unpack .binary64 (pack .binary64 (div .binary64 (view x) (view y))) ≠ .notANumber
  unfold rank at above
  apply unpack_pack_ne_notANumber
  rcases view_of_isFinite finite with ⟨s, zero⟩ | ⟨s, m, e, h, parts, -⟩
  · rw [zero]
    cases parts : view y with
    | notANumber => exact absurd parts number
    | zero t => rw [parts] at above; cases above
    | infinity t | finite t n f h' => simp [div]
  · rw [parts]
    cases parts' : view y with
    | notANumber => exact absurd parts' number
    | zero t => rw [parts'] at above; cases above
    | infinity t => simp [div]
    | finite t n f h' => exact roundWithAccuracy_ne_notANumber _ _ _ _

/-! ## Trigonometry -/

/-- A value rounded by either choice keeps a bound that both choices keep. -/
theorem within_rounded {bound : Float} {num den : Nat} (negative : Bool) (machine : Float)
    (finite : bound.isFinite = true)
    (close : ∀ choice, (roundedBits choice num den : Int) ≤ rank bound) :
    Within bound (rounded negative machine num den) := by
  obtain ⟨boundNumber, -, below⟩ := isFinite_iff_rank.1 finite
  have bits := close (magnitudeBits machine)
  obtain ⟨number, rank⟩ := rank_ofMagnitude negative
    (show roundedBits (magnitudeBits machine) num den ≤ infinityBits by omega)
  rw [within_iff]
  refine ⟨boundNumber, number, ?_⟩
  unfold rounded
  rw [rank]
  split <;> omega

theorem isFinite_one : (1 : Float).isFinite = true := by decide +kernel

theorem rank_one : rank 1 = (1022 * 2 ^ 52 + 2 ^ 52 : Nat) := by decide +kernel

theorem unitsPerOne_eq : unitsPerOne = 2 ^ 1022 * 2 ^ 52 := by
  decide +kernel

/-- A fraction that is at most one is rounded to a number that is at most one. -/
theorem within_one_rounded {num den : Nat} (negative : Bool) (machine : Float) (positive : 0 < den)
    (proper : num ≤ den) : Within 1 (rounded negative machine num den) := by
  apply within_rounded negative machine isFinite_one
  intro choice
  rw [rank_one, Int.ofNat_le]
  apply roundedBits_le positive (by decide) (Or.inl le_rfl)
  calc 32 * (num * unitsPerOne) ≤ 32 * (den * unitsPerOne) :=
        Nat.mul_le_mul_left _ (Nat.mul_le_mul_right _ proper)
    _ = den * 2 ^ 1022 * (32 * 2 ^ 52) := by
        rw [unitsPerOne_eq, ← Nat.mul_assoc den, Nat.mul_left_comm 32]
    _ < den * 2 ^ 1022 * (32 * 2 ^ 52 + 15) :=
        Nat.mul_lt_mul_of_pos_left (by omega) (Nat.mul_pos positive (by positivity))

theorem within_sin {x : Float} (finite : x.isFinite = true) : Within 1 (sin x) := by
  rw [sin, if_pos finite]
  apply within_one_rounded _ _ (Nat.two_pow_pos _)
  split
  · exact min_le_right _ _
  · exact min_le_right _ _

theorem within_cos {x : Float} (finite : x.isFinite = true) : Within 1 (cos x) := by
  rw [cos, if_pos finite]
  apply within_one_rounded _ _ (Nat.two_pow_pos _)
  split
  · exact min_le_right _ _
  · exact min_le_right _ _

theorem isFinite_pi : Angle.pi.isFinite = true := by decide +kernel

theorem isFinite_half_pi : (Angle.pi / 2).isFinite = true := by decide +kernel

theorem rank_half_pi : rank (Angle.pi / 2) = (1022 * 2 ^ 52 + 0x1921fb54442d18 : Nat) := by
  decide +kernel

/-- A right angle in fixed point is closer to the double `π / 2` than to the next one. -/
theorem quarterTurn_lt (places : Nat) :
    32 * (quarterTurn places * unitsPerOne) <
      2 ^ places * 2 ^ 1022 * (32 * 0x1921fb54442d18 + 15) := by
  have floor : quarterTurn places * (2 * piUnit) ≤ piScaled * 2 ^ places :=
    Nat.div_mul_le_self _ _
  have digits : 32 * 2 ^ 52 * piScaled < (32 * 0x1921fb54442d18 + 15) * (2 * piUnit) := by
    decide +kernel
  have regroup : ∀ a b p q u : Nat, a * (b * (p * q)) * u = p * (a * q) * (b * u) := by
    intro a b p q u
    ring
  apply Nat.lt_of_mul_lt_mul_right (a := 2 * piUnit)
  calc 32 * (quarterTurn places * unitsPerOne) * (2 * piUnit)
      = 2 ^ 1022 * (32 * 2 ^ 52) * (quarterTurn places * (2 * piUnit)) := by
        rw [unitsPerOne_eq, regroup]
    _ ≤ 2 ^ 1022 * (32 * 2 ^ 52) * (piScaled * 2 ^ places) := Nat.mul_le_mul_left _ floor
    _ = 2 ^ 1022 * 2 ^ places * (32 * 2 ^ 52 * piScaled) := by
        rw [Nat.mul_comm piScaled, Nat.mul_mul_mul_comm]
    _ < 2 ^ 1022 * 2 ^ places * ((32 * 0x1921fb54442d18 + 15) * (2 * piUnit)) :=
        Nat.mul_lt_mul_of_pos_left digits (by positivity)
    _ = 2 ^ places * 2 ^ 1022 * (32 * 0x1921fb54442d18 + 15) * (2 * piUnit) := by
        rw [Nat.mul_comm (2 ^ 1022)]
        exact (Nat.mul_assoc _ _ _).symm

theorem rank_abs (x : Float) : rank x.abs = (rank x).natAbs := by
  rw [rank, view_abs, rank]
  cases view x with
  | notANumber => rfl
  | zero s => rfl
  | infinity s | finite s m e positive => cases s <;> simp [UnpackedFloat.abs, rankOf, Sign.apply]

theorem isNumber_abs {x : Float} (number : IsNumber x) : IsNumber x.abs := by
  unfold IsNumber at *
  rw [view_abs]
  cases parts : view x <;> simp_all [UnpackedFloat.abs]

theorem within_asin {x : Float} (within : Within 1 x) : Within (Angle.pi / 2) (asin x) := by
  have proper : x.abs ≤ 1 := by
    obtain ⟨one, number, close⟩ := within_iff.1 within
    rw [le_iff_rank, rank_abs]
    exact ⟨isNumber_abs number, one, close⟩
  rw [asin, if_pos proper]
  apply within_rounded _ _ isFinite_half_pi
  intro choice
  rw [rank_half_pi, Int.ofNat_le]
  apply roundedBits_le (Nat.two_pow_pos _) (by decide) (Or.inl (by decide))
  refine Nat.lt_of_le_of_lt ?_ (quarterTurn_lt _)
  exact Nat.mul_le_mul_left _ (Nat.mul_le_mul_right _ (min_le_right _ _))

/-- Clamping puts every number within one. -/
theorem within_clampUnit {x : Float} (number : IsNumber x) : Within 1 (clampUnit x) := by
  have one : IsNumber 1 := isNumber_of_isFinite isFinite_one
  unfold clampUnit
  split
  · decide +kernel
  · rename_i above
    split
    · decide +kernel
    · rename_i below
      rw [lt_iff_rank, rank_neg] at above
      rw [lt_iff_rank] at below
      have low := mt (fun less => ⟨number, isNumber_neg one, less⟩) above
      have high := mt (fun less => ⟨one, number, less⟩) below
      exact within_iff.2 ⟨one, number, by omega⟩

end Antimeridian.Double

namespace Antimeridian
open Double

/-- What geometry relies on in a library of the functions of angles. -/
class Trig.Lawful [Trig] : Prop where
  within_sin : ∀ {x : Float}, x.isFinite = true → Within 1 (Trig.sin x)
  within_cos : ∀ {x : Float}, x.isFinite = true → Within 1 (Trig.cos x)
  within_asin : ∀ {x : Float}, Within 1 x → Within (Angle.pi / 2) (Trig.asin x)
  /-- A zero of either sign is the sine of a zero. -/
  asin_zero : ∀ {x : Float}, (x == 0) = true → (Trig.asin x == 0) = true

end Antimeridian
