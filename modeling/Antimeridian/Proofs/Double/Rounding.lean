import Antimeridian.Proofs.Double.Nearest
import Antimeridian.Proofs.Double.Rank

/-!
# Products and differences round to the nearest double

The operations on doubles compute exactly and round once.  They round a mantissa by shifting it,
with two more bits that tell the dropped part from a half.  Here this is shown to be `roundDiv` by a
power of two, and so the rank of a product or a difference is the word that `nearestBits` gives to
its exact value.
-/

namespace Antimeridian.Double
open Float.Model (UnpackedFloat Format totalExponent)
open Float.Model.UnpackedFloat

/-! ## Shifting -/

/-- What is left of a mantissa after a shift: the quotient, the next bit, and whether anything is
below. -/
theorem shifted_succ (m k : Nat) :
    (ExtendedMantissa.ofMantissaAndAccuracy m .exact >>> (k + 1)) =
      ⟨m / 2 ^ (k + 1), m / 2 ^ k % 2 != 0, m % 2 ^ k != 0⟩ := by
  induction k with
  | zero => simp [HShiftRight.hShiftRight, Nat.repeat, ExtendedMantissa.shiftRightOne,
      ExtendedMantissa.ofMantissaAndAccuracy, Nat.mod_one]
  | succ k ih =>
    have step : (ExtendedMantissa.ofMantissaAndAccuracy m .exact >>> (k + 1 + 1)) =
        (ExtendedMantissa.ofMantissaAndAccuracy m .exact >>> (k + 1)).shiftRightOne := rfl
    have low : m % 2 ^ (k + 1) = m % 2 ^ k + 2 ^ k * (m / 2 ^ k % 2) := by
      rw [Nat.pow_succ, Nat.mod_mul]
    rw [step, ih, ExtendedMantissa.shiftRightOne, Nat.div_div_eq_div_mul, ← Nat.pow_succ, low]
    congr 1
    rcases Nat.mod_two_eq_zero_or_one (m / 2 ^ k) with zero | one
    · simp [zero]
    · simp [one]

/-- Rounding a shifted mantissa is rounding its quotient by a power of two. -/
theorem roundedMantissa_shifted (m k : Nat) :
    (ExtendedMantissa.ofMantissaAndAccuracy m .exact >>> k).roundedMantissa =
      roundDiv m (2 ^ k) := by
  cases k with
  | zero =>
    rw [Nat.pow_zero, roundDiv_eq_div (by omega), Nat.div_one]
    rfl
  | succ k =>
    have low : m % 2 ^ (k + 1) = m % 2 ^ k + 2 ^ k * (m / 2 ^ k % 2) := by
      rw [Nat.pow_succ, Nat.mod_mul]
    have part := Nat.mod_lt m (Nat.two_pow_pos k)
    rw [shifted_succ, roundDiv_eq, low, Nat.pow_succ]
    generalize m / (2 ^ k * 2) = quotient
    generalize m % 2 ^ k = rest at *
    generalize 2 ^ k = half at *
    rcases Nat.mod_two_eq_zero_or_one (m / half) with zero | one
    · -- the dropped part is less than a half
      rw [zero, if_pos (by omega)]
      cases rest with
      | zero => rfl
      | succ rest => rfl
    · rw [one, if_neg (by omega)]
      cases rest with
      | zero =>
        rw [if_neg (by omega)]
        rfl
      | succ rest =>
        rw [if_pos (by omega)]
        rfl

/-! ## Rounding to 53 digits -/

/-- The exponent that the value `m * 2 ^ e` is rounded at. -/
def target (m : Nat) (e : Int) : Int := max (m.log2 + 1 + e - 53) (-1074)

/-- The mantissa that it is rounded to, with 54 digits if rounding carries. -/
def carried (m : Nat) (e : Int) : Nat := roundDiv m (2 ^ (target m e - e).toNat)

/-- The value `n * 2 ^ f` under a sign. -/
def settled (s : Sign) (n : Nat) (f : Int) : UnpackedFloat :=
  if h : n = 0 then .zero s else .finite s n f (Nat.pos_of_ne_zero h)

theorem settled_of_pos (s : Sign) {n : Nat} (f : Int) (positive : 0 < n) :
    settled s n f = .finite s n f positive := dif_neg positive.ne'

section

variable {m : Nat} {e : Int}

/-- A rounded mantissa has 53 digits, one more if it carried, or the least exponent. -/
theorem carried_bounds (positive : 0 < m) (fits : e ≤ target m e) :
    carried m e ≤ 2 ^ 53 ∧ (target m e = -1074 ∨ 2 ^ 52 ≤ carried m e) := by
  have low := Nat.log2_self_le positive.ne'
  have high := @Nat.lt_log2_self m
  obtain ⟨shift, amount⟩ : ∃ shift : Nat, target m e = e + shift :=
    ⟨(target m e - e).toNat, by omega⟩
  have places : (target m e - e).toNat = shift := by omega
  rw [carried, places]
  unfold target at amount ⊢
  constructor
  · apply roundDiv_le (Nat.two_pow_pos shift)
    rw [← Nat.pow_add]
    exact high.le.trans (Nat.pow_le_pow_right (by decide) (by omega))
  · by_cases least : m.log2 + 1 + e - 53 ≤ -1074
    · left
      omega
    · right
      apply le_roundDiv (Nat.two_pow_pos shift)
      rw [← Nat.pow_add]
      exact (Nat.pow_le_pow_right (by decide) (by omega)).trans low

/-- What a value that is rounded to 53 digits becomes: zero, or a value whose mantissa has 53 digits
unless its exponent is the least. -/
theorem roundWithAccuracy_cases (s : Sign) (positive : 0 < m) (fits : e ≤ target m e) :
    carried m e = 0 ∧ roundWithAccuracy .binary64 s m e .exact = .zero s ∨
      ∃ n f h, roundWithAccuracy .binary64 s m e .exact = .finite s n f h ∧ n < 2 ^ 53 ∧
        -1074 ≤ f ∧ (2 ^ 52 ≤ n ∨ f = -1074) ∧
        magnitudeWord n f = magnitudeWord (carried m e) (target m e) := by
  obtain ⟨upper, lower⟩ := carried_bounds positive fits
  have least : -1074 ≤ target m e := le_max_right _ _
  have unfolded : roundWithAccuracy .binary64 s m e .exact =
      settled s (ExtendedMantissa.ofMantissaAndAccuracy
          (ExtendedMantissa.ofMantissaAndAccuracy m .exact >>>
            (target m e - e).toNat).roundedMantissa .exact >>>
          (target (ExtendedMantissa.ofMantissaAndAccuracy m .exact >>>
            (target m e - e).toNat).roundedMantissa (e + (target m e - e).toNat) -
            (e + (target m e - e).toNat)).toNat).mantissa
        (e + (target m e - e).toNat +
          (target (ExtendedMantissa.ofMantissaAndAccuracy m .exact >>>
            (target m e - e).toNat).roundedMantissa (e + (target m e - e).toNat) -
            (e + (target m e - e).toNat)).toNat) := rfl
  have exponent : e + (target m e - e).toNat = target m e := by omega
  have rounded : roundDiv m (2 ^ (target m e - e).toNat) = carried m e := rfl
  rw [unfolded, roundedMantissa_shifted, rounded, exponent]
  generalize target m e = t at *
  generalize carried m e = n at *
  rcases upper.eq_or_lt with rfl | less
  · -- the carry makes room by one more shift
    have amount : (target (2 ^ 53) t - t).toNat = 1 := by
      have digits : (2 ^ 53 : Nat).log2 = 53 := Nat.log2_two_pow
      unfold target
      omega
    right
    refine ⟨2 ^ 52, t + 1, by decide, ?_, by decide, by omega, Or.inl le_rfl, ?_⟩
    · rw [amount]
      rfl
    · unfold magnitudeWord
      omega
  · have amount : (target n t - t).toNat = 0 := by
      unfold target
      rcases Nat.eq_zero_or_pos n with rfl | some
      · simp
        omega
      · have digits := (Nat.log2_lt some.ne').2 less
        omega
    have kept : (ExtendedMantissa.ofMantissaAndAccuracy n .exact >>> 0).mantissa = n := rfl
    rw [amount, kept, Int.natCast_zero, Int.add_zero]
    rcases Nat.eq_zero_or_pos n with rfl | some
    · exact Or.inl ⟨rfl, rfl⟩
    · exact Or.inr ⟨n, t, some, settled_of_pos s t some, less, least, lower.symm, rfl⟩

/-- A value of at most 53 digits becomes the double with its word, or infinity. -/
theorem rankOf_pack_finite (s : Sign) {positive : 0 < m} (digits : m < 2 ^ 53) (low : -1074 ≤ e)
    (leading : 2 ^ 52 ≤ m ∨ e = -1074) :
    rankOf (unpack .binary64 (pack .binary64 (.finite s m e positive))) =
        s.apply (min (magnitudeWord m e) infinityBits : Nat) ∧
      unpack .binary64 (pack .binary64 (.finite s m e positive)) ≠ .notANumber := by
  by_cases high : e ≤ 971
  · have canonical : Canonical (.finite s m e positive) := ⟨digits, low, high, leading⟩
    rw [unpack_pack canonical, min_eq_left (magnitudeWord_bounds canonical).2.le]
    exact ⟨rfl, by simp⟩
  · have bias : (Format.binary64.exponentBias : Int) = 1023 := by decide
    have past : pack .binary64 (.finite s m e positive) = pack .binary64 (.infinity s) := by
      simp only [pack, bias]
      rw [if_pos (by omega)]
    have word : infinityBits ≤ magnitudeWord m e := by
      unfold infinityBits magnitudeWord
      omega
    rw [past, @unpack_pack (.infinity s) trivial, min_eq_right word]
    exact ⟨rfl, by simp⟩

variable {num den a b : Nat}

/-- The fraction `num / den` is `m * 2 ^ e`, with the units of the fraction kept whole. -/
structure Measures (num den m : Nat) (e : Int) (a b : Nat) : Prop where
  scale : (b : Int) - a = e + 1074
  value : num * unitsPerOne * 2 ^ a = den * m * 2 ^ b

/-- The exponent that a value is rounded at is the one that fits the fraction. -/
theorem Measures.exponent (measures : Measures num den m e a b) (positive : 0 < m)
    (positive' : 0 < den) : Exponent num den (target m e + 1074).toNat := by
  obtain ⟨scale, value⟩ := measures
  have low := Nat.log2_self_le positive.ne'
  have high := @Nat.lt_log2_self m
  have grow : ∀ {i j : Nat}, i ≤ j → 2 ^ i ≤ 2 ^ j := Nat.pow_le_pow_right (by decide)
  obtain ⟨places, exponent⟩ : ∃ places : Nat, target m e + 1074 = places :=
    ⟨(target m e + 1074).toNat, by unfold target; omega⟩
  rw [exponent, Int.toNat_natCast]
  unfold target at exponent
  constructor
  · apply Nat.lt_of_mul_lt_mul_right (a := 2 ^ a)
    calc num * unitsPerOne * 2 ^ a = den * m * 2 ^ b := value
      _ < den * 2 ^ (m.log2 + 1) * 2 ^ b :=
        Nat.mul_lt_mul_of_pos_right (Nat.mul_lt_mul_of_pos_left high positive') (Nat.two_pow_pos b)
      _ = den * 2 ^ (m.log2 + 1 + b) := by rw [Nat.mul_assoc, ← Nat.pow_add]
      _ ≤ den * 2 ^ (53 + places + a) := Nat.mul_le_mul_left _ (grow (by omega))
      _ = den * 2 ^ (53 + places) * 2 ^ a := by rw [Nat.pow_add _ _ a, Nat.mul_assoc]
  · rcases Nat.eq_zero_or_pos places with zero | above
    · exact Or.inl zero
    · right
      apply Nat.le_of_mul_le_mul_right (c := 2 ^ a) _ (Nat.two_pow_pos a)
      calc den * 2 ^ (52 + places) * 2 ^ a = den * 2 ^ (52 + places + a) := by
            rw [Nat.pow_add _ _ a, Nat.mul_assoc]
        _ ≤ den * 2 ^ (m.log2 + b) := Nat.mul_le_mul_left _ (grow (by omega))
        _ = den * 2 ^ m.log2 * 2 ^ b := by rw [Nat.pow_add, Nat.mul_assoc]
        _ ≤ den * m * 2 ^ b := Nat.mul_le_mul_right _ (Nat.mul_le_mul_left _ low)
        _ = num * unitsPerOne * 2 ^ a := value.symm

/-- The mantissa that a value is rounded to is the rounded quotient. -/
theorem Measures.mantissaAt_eq (measures : Measures num den m e a b) (positive : 0 < den)
    (fits : e ≤ target m e) :
    mantissaAt num den (target m e + 1074).toNat = carried m e := by
  obtain ⟨scale, value⟩ := measures
  obtain ⟨places, exponent⟩ : ∃ places : Nat, target m e + 1074 = places :=
    ⟨(target m e + 1074).toNat, by unfold target; omega⟩
  obtain ⟨shift, amount⟩ : ∃ shift : Nat, target m e - e = shift :=
    ⟨(target m e - e).toNat, by omega⟩
  rw [mantissaAt, carried, exponent, amount, Int.toNat_natCast, Int.toNat_natCast]
  apply roundDiv_congr (Nat.mul_pos positive (Nat.two_pow_pos places)) (Nat.two_pow_pos shift)
  apply Nat.eq_of_mul_eq_mul_right (Nat.two_pow_pos a)
  calc num * unitsPerOne * 2 ^ shift * 2 ^ a = num * unitsPerOne * 2 ^ a * 2 ^ shift := by ring
    _ = den * m * 2 ^ (b + shift) := by rw [value, Nat.mul_assoc, ← Nat.pow_add]
    _ = den * m * 2 ^ (places + a) := by rw [show b + shift = places + a by omega]
    _ = m * (den * 2 ^ places) * 2 ^ a := by ring

/-- A value that is rounded to 53 digits becomes the double nearest to it. -/
theorem Measures.rankOf_round (measures : Measures num den m e a b) (s : Sign) (positive : 0 < m)
    (positive' : 0 < den) (fits : e ≤ target m e) :
    rankOf (unpack .binary64 (pack .binary64 (roundWithAccuracy .binary64 s m e .exact))) =
        s.apply (nearestBits num den) ∧
      unpack .binary64 (pack .binary64 (roundWithAccuracy .binary64 s m e .exact)) ≠
        .notANumber := by
  have exponent := measures.exponent positive positive'
  have some : 0 < num := by
    have product : 0 < num * unitsPerOne * 2 ^ a := by
      rw [measures.value]
      exact Nat.mul_pos (Nat.mul_pos positive' positive) (Nat.two_pow_pos b)
    exact Nat.pos_of_mul_pos_right (Nat.pos_of_mul_pos_right product)
  rw [exponent.nearestBits_eq some positive', measures.mantissaAt_eq positive' fits]
  obtain ⟨-, lower⟩ := carried_bounds positive fits
  rcases roundWithAccuracy_cases s positive fits with ⟨none, rounded⟩ | ⟨n, f, h, rounded, rest⟩
  · have least := lower.resolve_right (by omega)
    rw [rounded, @unpack_pack (.zero s) trivial, none, least]
    exact ⟨by cases s <;> rfl, by simp⟩
  · obtain ⟨digits, low, leading, word⟩ := rest
    rw [rounded]
    have packed := @rankOf_pack_finite n f s h digits low leading
    rw [word] at packed
    exact packed

end

/-! ## Exact values -/

/-- The exact value of a finite double taken apart, in units. -/
def valueOf : UnpackedFloat → Int
  | .finite s m e _ => s.apply (m * 2 ^ (e + 1074).toNat : Nat)
  | _ => 0

/-- The exact value of a finite double, in units. -/
def value (x : Float) : Int := valueOf (view x)

/-- The rank of the double nearest to `v / den`. -/
def nearest (v : Int) (den : Nat) : Int := v.sign * nearestBits v.natAbs den

/-- Packed, the value is the double nearest to `v / den`. -/
def RoundsTo (u : UnpackedFloat) (v : Int) (den : Nat) : Prop :=
  unpack .binary64 (pack .binary64 u) ≠ .notANumber ∧
    rankOf (unpack .binary64 (pack .binary64 u)) = nearest v den

theorem apply_mul (s t : Sign) (m n : Nat) :
    s.apply m * t.apply n = (s * t).apply (m * n : Nat) := by
  rw [Int.natCast_mul]
  cases s <;> cases t
  · exact Int.neg_mul_neg _ _
  · exact Int.neg_mul _ _
  · exact Int.mul_neg _ _
  · rfl

theorem nearest_apply (s : Sign) (n den : Nat) :
    nearest (s.apply n) den = s.apply (nearestBits n den) := by
  rcases Nat.eq_zero_or_pos n with rfl | some
  · cases s <;> simp [nearest, nearestBits, Sign.apply]
  · have one : (n : Int).sign = 1 := Int.sign_eq_one_of_pos (by omega)
    cases s <;> simp [nearest, Sign.apply, one]

theorem nearest_zero (den : Nat) : nearest 0 den = 0 := by
  simp [nearest]

theorem nearest_neg (v : Int) (den : Nat) : nearest (-v) den = -nearest v den := by
  simp [nearest]

theorem roundsTo_zero (s : Sign) (den : Nat) : RoundsTo (.zero s) 0 den := by
  rw [RoundsTo, @unpack_pack (.zero s) trivial, nearest_zero]
  exact ⟨by simp, rfl⟩

theorem Measures.roundsTo {num den m a b : Nat} {e : Int} (measures : Measures num den m e a b)
    (s : Sign) (positive : 0 < m) (positive' : 0 < den) (fits : e ≤ target m e) :
    RoundsTo (roundWithAccuracy .binary64 s m e .exact) (s.apply num) den := by
  obtain ⟨rank, number⟩ := measures.rankOf_round s positive positive' fits
  exact ⟨number, rank.trans (nearest_apply s num den).symm⟩

/-- The parts of a finite double. -/
theorem view_of_isFinite {x : Float} (finite : x.isFinite = true) :
    (∃ s, view x = .zero s) ∨
      ∃ s m e h, view x = .finite s m e h ∧ Canonical (.finite s m e h) := by
  have canonical := canonical_view x
  change (view x).isFinite = true at finite
  cases parts : view x with
  | notANumber => rw [parts] at finite; cases finite
  | infinity s => rw [parts] at finite; cases finite
  | zero s => exact Or.inl ⟨s, rfl⟩
  | finite s m e positive =>
    rw [parts] at canonical
    exact Or.inr ⟨s, m, e, positive, rfl, canonical⟩

/-- A finite double is the one nearest to its value. -/
theorem nearestBits_units {s : Sign} {m : Nat} {e : Int} {positive : 0 < m}
    (canonical : Canonical (.finite s m e positive)) :
    nearestBits (m * 2 ^ (e + 1074).toNat) unitsPerOne = magnitudeWord m e := by
  obtain ⟨digits, low, high, leading⟩ := id canonical
  have one := unitsPerOne_pos
  generalize places : (e + 1074).toNat = p
  have exponent : Exponent (m * 2 ^ p) unitsPerOne p := by
    constructor
    · rw [Nat.mul_comm _ unitsPerOne, Nat.pow_add]
      exact Nat.mul_lt_mul_of_pos_left (Nat.mul_lt_mul_of_pos_right digits (Nat.two_pow_pos p)) one
    · rcases leading with normal | least
      · right
        rw [Nat.mul_comm _ unitsPerOne, Nat.pow_add]
        exact Nat.mul_le_mul_left _ (Nat.mul_le_mul_right _ normal)
      · left
        omega
  have whole : mantissaAt (m * 2 ^ p) unitsPerOne p = m := by
    have unit := Nat.mul_pos one (Nat.two_pow_pos p)
    have product : m * 2 ^ p * unitsPerOne = m * (unitsPerOne * 2 ^ p) := by ring
    rw [mantissaAt, product]
    exact Nat.le_antisymm (roundDiv_le unit le_rfl) (le_roundDiv unit le_rfl)
  have word := (magnitudeWord_bounds canonical).2.le
  rw [exponent.nearestBits_eq (Nat.mul_pos positive (Nat.two_pow_pos p)) one, whole, ← places]
  exact min_eq_left word

theorem roundsTo_valueOf {u : UnpackedFloat} (canonical : Canonical u)
    (finite : u.isFinite = true) : RoundsTo u (valueOf u) unitsPerOne := by
  rw [RoundsTo, unpack_pack canonical]
  cases u with
  | notANumber => cases finite
  | infinity s => cases finite
  | zero s => exact ⟨by simp, (nearest_zero _).symm⟩
  | finite s m e positive =>
    refine ⟨by simp, ?_⟩
    rw [valueOf, nearest_apply, nearestBits_units canonical]
    rfl

/-! ## Products -/

/-- The exact product of two mantissas has digits enough to be rounded. -/
theorem mul_fits {s t : Sign} {m n : Nat} {e f : Int} {hm : 0 < m} {hn : 0 < n}
    (first : Canonical (.finite s m e hm)) (second : Canonical (.finite t n f hn)) :
    e + f ≤ target (m * n) (e + f) := by
  obtain ⟨-, eLow, -, mLead⟩ := first
  obtain ⟨-, fLow, -, nLead⟩ := second
  unfold target
  by_cases normal : 2 ^ 52 ≤ m * n
  · have digits := (Nat.le_log2 (Nat.mul_pos hm hn).ne').2 normal
    omega
  · have small : m < 2 ^ 52 ∧ n < 2 ^ 52 := by
      constructor
      · by_contra large
        exact normal ((Nat.not_lt.1 large).trans (Nat.le_mul_of_pos_right m hn))
      · by_contra large
        exact normal ((Nat.not_lt.1 large).trans (Nat.le_mul_of_pos_left n hm))
    omega

/-- A product of nonzero values is rounded once. -/
theorem roundsTo_mul {s t : Sign} {m n : Nat} {e f : Int} {hm : 0 < m} {hn : 0 < n}
    (first : Canonical (.finite s m e hm)) (second : Canonical (.finite t n f hn)) :
    RoundsTo (mul .binary64 (.finite s m e hm) (.finite t n f hn))
      (valueOf (.finite s m e hm) * valueOf (.finite t n f hn)) (unitsPerOne * unitsPerOne) := by
  have measures : Measures (m * 2 ^ (e + 1074).toNat * (n * 2 ^ (f + 1074).toNat))
      (unitsPerOne * unitsPerOne) (m * n) (e + f) 1074 ((e + 1074).toNat + (f + 1074).toNat) := by
    have eLow := first.2.1
    have fLow := second.2.1
    constructor
    · omega
    · rw [← unitsPerOne_eq_two_pow, Nat.pow_add]
      ring
  rw [valueOf, valueOf, apply_mul]
  exact measures.roundsTo (s * t) (Nat.mul_pos hm hn)
    (Nat.mul_pos unitsPerOne_pos unitsPerOne_pos) (mul_fits first second)

/-- A product of finite doubles is the double nearest to the product of their values. -/
theorem rank_mul {x y : Float} (xFinite : x.isFinite = true) (yFinite : y.isFinite = true) :
    IsNumber (x * y) ∧ rank (x * y) = nearest (value x * value y) (unitsPerOne * unitsPerOne) := by
  change RoundsTo (mul .binary64 (view x) (view y)) (valueOf (view x) * valueOf (view y)) _
  rcases view_of_isFinite xFinite with ⟨s, xZero⟩ | ⟨s, m, e, hm, xParts, xCanonical⟩
  · rw [xZero, show valueOf (.zero s) = 0 from rfl, Int.zero_mul]
    rcases view_of_isFinite yFinite with ⟨t, yZero⟩ | ⟨t, n, f, hn, yParts, -⟩
    · rw [yZero]
      exact roundsTo_zero _ _
    · rw [yParts]
      exact roundsTo_zero _ _
  · rcases view_of_isFinite yFinite with ⟨t, yZero⟩ | ⟨t, n, f, hn, yParts, yCanonical⟩
    · rw [xParts, yZero, show valueOf (.zero t) = 0 from rfl, Int.mul_zero]
      exact roundsTo_zero _ _
    · rw [xParts, yParts]
      exact roundsTo_mul xCanonical yCanonical

/-! ## Differences -/

theorem target_shifted {m : Nat} (positive : 0 < m) (e : Int) (k : Nat) :
    target (m * 2 ^ k) (e - k) = target m e := by
  have digits : (m * 2 ^ k).log2 = m.log2 + k := by
    rw [Nat.log2_eq_iff (Nat.mul_pos positive (Nat.two_pow_pos k)).ne']
    constructor
    · rw [Nat.pow_add]
      exact Nat.mul_le_mul_right _ (Nat.log2_self_le positive.ne')
    · rw [Nat.add_right_comm, Nat.pow_add]
      exact Nat.mul_lt_mul_of_pos_right Nat.lt_log2_self (Nat.two_pow_pos k)
  unfold target
  omega

/-- A value that has too few digits is shifted up before it is rounded. -/
theorem roundsTo_round (s : Sign) {m : Nat} (positive : 0 < m) {e : Int} (low : -1074 ≤ e) :
    RoundsTo (round .binary64 s m e) (s.apply (m * 2 ^ (e + 1074).toNat : Nat)) unitsPerOne := by
  obtain ⟨k, amount⟩ : ∃ k, k = (e - target m e).toNat := ⟨_, rfl⟩
  have unfolded : round .binary64 s m e =
      roundWithAccuracy .binary64 s (m * 2 ^ k) (e - k) .exact := by
    rw [← Nat.shiftLeft_eq, amount]
    rfl
  have measures : Measures (m * 2 ^ (e + 1074).toNat) unitsPerOne (m * 2 ^ k) (e - k) k
      (e + 1074).toNat := by
    constructor
    · omega
    · ring
  rw [unfolded]
  apply measures.roundsTo s (Nat.mul_pos positive (Nat.two_pow_pos k)) unitsPerOne_pos
  rw [target_shifted positive]
  omega

/-- Lowering an exponent keeps the value. -/
theorem decreaseExponent_value {m : Nat} {e f : Int} (low : -1074 ≤ f) (le : f ≤ e) :
    (decreaseExponent m e f).1 * 2 ^ (f + 1074).toNat = m * 2 ^ (e + 1074).toNat := by
  have shift : (decreaseExponent m e f).1 = m * 2 ^ (e - f).toNat := Nat.shiftLeft_eq _ _
  rw [shift, Nat.mul_assoc, ← Nat.pow_add]
  congr 2
  omega

theorem roundsTo_normalize (v : Int) {e : Int} (low : -1074 ≤ e) (s : Sign) :
    RoundsTo (normalize .binary64 v e s) (v * (2 ^ (e + 1074).toNat : Nat)) unitsPerOne := by
  unfold UnpackedFloat.normalize
  rcases lt_trichotomy v 0 with below | rfl | above
  · obtain ⟨m, rfl⟩ : ∃ m : Nat, v = -m := ⟨(-v).toNat, by omega⟩
    have rounds := roundsTo_round .negative (m := m) (by omega) low
    rw [compare_lt_iff_lt.2 below, Int.neg_neg, Int.toNat_natCast, Int.neg_mul,
      ← Int.natCast_mul]
    exact rounds
  · rw [Int.zero_mul]
    exact roundsTo_zero s _
  · obtain ⟨m, rfl⟩ : ∃ m : Nat, v = m := ⟨v.toNat, by omega⟩
    have rounds := roundsTo_round .positive (m := m) (by omega) low
    rw [compare_gt_iff_gt.2 above, Int.toNat_natCast, ← Int.natCast_mul]
    exact rounds

theorem apply_mul_natCast (s : Sign) (m n : Nat) : s.apply m * n = s.apply (m * n : Nat) := by
  cases s <;> simp [Sign.apply]

theorem roundsTo_sub {s t : Sign} {m n : Nat} {e f : Int} {hm : 0 < m} {hn : 0 < n}
    (first : Canonical (.finite s m e hm)) (second : Canonical (.finite t n f hn)) :
    RoundsTo (sub .binary64 (.finite s m e hm) (.finite t n f hn))
      (valueOf (.finite s m e hm) - valueOf (.finite t n f hn)) unitsPerOne := by
  have eLow := first.2.1
  have fLow := second.2.1
  have low : -1074 ≤ min e f := by omega
  have rounds := roundsTo_normalize
    (s.apply (decreaseExponent m e (min e f)).1 - t.apply (decreaseExponent n f (min e f)).1)
    low .positive
  rw [Int.sub_mul, apply_mul_natCast, apply_mul_natCast,
    decreaseExponent_value low (min_le_left e f), decreaseExponent_value low (min_le_right e f)]
    at rounds
  exact rounds

/-- A difference of finite doubles is the double nearest to the difference of their values. -/
theorem rank_sub {x y : Float} (xFinite : x.isFinite = true) (yFinite : y.isFinite = true) :
    IsNumber (x - y) ∧ rank (x - y) = nearest (value x - value y) unitsPerOne := by
  change RoundsTo (sub .binary64 (view x) (view y)) (valueOf (view x) - valueOf (view y)) _
  rcases view_of_isFinite xFinite with ⟨s, xZero⟩ | ⟨s, m, e, hm, xParts, xCanonical⟩
  · rw [xZero, show valueOf (.zero s) = 0 from rfl, Int.zero_sub]
    rcases view_of_isFinite yFinite with ⟨t, yZero⟩ | ⟨t, n, f, hn, yParts, yCanonical⟩
    · rw [yZero]
      cases s <;> cases t <;> exact roundsTo_zero _ _
    · rw [yParts]
      have negated : Canonical (.finite (-t) n f hn) := yCanonical
      have opposite : valueOf (.finite (-t) n f hn) = -valueOf (.finite t n f hn) := by
        cases t
        · exact (Int.neg_neg _).symm
        · rfl
      rw [← opposite]
      exact roundsTo_valueOf negated rfl
  · rcases view_of_isFinite yFinite with ⟨t, yZero⟩ | ⟨t, n, f, hn, yParts, yCanonical⟩
    · rw [xParts, yZero, show valueOf (.zero t) = 0 from rfl, Int.sub_zero]
      exact roundsTo_valueOf xCanonical rfl
    · rw [xParts, yParts]
      exact roundsTo_sub xCanonical yCanonical

end Antimeridian.Double
