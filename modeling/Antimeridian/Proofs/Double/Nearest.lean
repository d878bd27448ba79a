import Antimeridian.Double.Trig
import Mathlib

/-!
# Rounding is monotone

`roundDiv` and `nearestBits` depend on the fraction alone and never turn an order around.  The
exponent of a fraction is the one at which its mantissa has 53 digits, so fractions with different
exponents are told apart by a power of two, and those with one exponent by their mantissas.  The
rounding of the elementary functions stays below a double if the exact value is not near the midpoint
to the next one.
-/

namespace Antimeridian.Double

/-! ## Quotients -/

section

variable {num den num' den' k : Nat}

theorem roundDiv_eq (num den : Nat) : roundDiv num den =
    if 2 * (num % den) < den then num / den
    else if den < 2 * (num % den) then num / den + 1 else num / den + num / den % 2 := rfl

theorem roundDiv_bounds (num den : Nat) :
    num / den ≤ roundDiv num den ∧ roundDiv num den ≤ num / den + 1 := by
  rw [roundDiv_eq]
  split
  · omega
  · split <;> omega

theorem roundDiv_eq_div (below : 2 * (num % den) < den) : roundDiv num den = num / den := by
  rw [roundDiv_eq, if_pos below]

/-- Rounding does not go below a whole number that is at most the quotient. -/
theorem le_roundDiv (positive : 0 < den) (most : k * den ≤ num) : k ≤ roundDiv num den :=
  ((Nat.le_div_iff_mul_le positive).2 most).trans (roundDiv_bounds num den).1

theorem roundDiv_le (positive : 0 < den) (least : num ≤ k * den) : roundDiv num den ≤ k := by
  have floor : num / den ≤ k := Nat.div_le_of_le_mul (by rwa [Nat.mul_comm] at least)
  have upper := (roundDiv_bounds num den).2
  rcases Nat.lt_or_ge (num / den) k with less | atLeast
  · omega
  · have whole := Nat.div_add_mod num den
    have exact : num / den = k := Nat.le_antisymm floor atLeast
    rw [exact, Nat.mul_comm] at whole
    rw [roundDiv_eq_div (by omega), exact]

/-- A greater fraction is not rounded to less. -/
theorem roundDiv_mono (positive : 0 < den) (positive' : 0 < den')
    (le : num * den' ≤ num' * den) : roundDiv num den ≤ roundDiv num' den' := by
  have whole := Nat.div_add_mod num den
  have whole' := Nat.div_add_mod num' den'
  rcases Nat.lt_trichotomy (num / den) (num' / den') with less | equal | more
  · have upper := (roundDiv_bounds num den).2
    have lower := (roundDiv_bounds num' den').1
    omega
  · -- the fractional parts decide
    rw [roundDiv_eq, roundDiv_eq, equal]
    rw [equal] at whole
    generalize num' / den' = floor at *
    generalize num % den = part at *
    generalize num' % den' = part' at *
    subst whole whole'
    have parts : 2 * part * den' ≤ 2 * part' * den := by nlinarith
    have half : 2 * part' < den' → 2 * part < den := by
      intro below
      by_contra atLeast
      nlinarith
    have past : den < 2 * part → den' < 2 * part' := by
      intro above
      by_contra atMost
      nlinarith
    split_ifs <;> omega
  · exfalso
    have next : (num' / den' + 1) * den ≤ num := by
      calc (num' / den' + 1) * den ≤ num / den * den := Nat.mul_le_mul_right _ more
        _ ≤ num := Nat.div_mul_le_self num den
    have part := Nat.mod_lt num' positive'
    nlinarith

theorem roundDiv_congr (positive : 0 < den) (positive' : 0 < den')
    (equal : num * den' = num' * den) : roundDiv num den = roundDiv num' den' :=
  Nat.le_antisymm (roundDiv_mono positive positive' equal.le)
    (roundDiv_mono positive' positive equal.ge)

end

/-! ## Exponents -/

theorem unitsPerOne_eq_two_pow : unitsPerOne = 2 ^ 1074 := by decide +kernel

theorem unitsPerOne_pos : 0 < unitsPerOne := by decide +kernel

section

variable {num den num' den' : Nat}

/-- The exponent of a fraction, in the same units as the fraction: its mantissa has at most 53
digits, and 53 unless the exponent is the least. -/
structure Exponent (num den exponent : Nat) : Prop where
  upper : num * unitsPerOne < den * 2 ^ (53 + exponent)
  lower : exponent = 0 ∨ den * 2 ^ (52 + exponent) ≤ num * unitsPerOne

theorem two_pow_log2_le {n : Nat} (positive : 0 < n) (k : Nat) : 2 ^ (n.log2 + k) ≤ n * 2 ^ k := by
  rw [Nat.pow_add]
  exact Nat.mul_le_mul_right _ (Nat.log2_self_le positive.ne')

theorem lt_two_pow_log2 (n k : Nat) : n * 2 ^ k < 2 ^ (n.log2 + 1 + k) := by
  rw [Nat.pow_add]
  exact Nat.mul_lt_mul_of_pos_right Nat.lt_log2_self (Nat.two_pow_pos _)

/-- The exponent that is computed is the one that fits. -/
theorem exponent_exponentFor (positive : 0 < num) (positive' : 0 < den) :
    Exponent num den (exponentFor num den) := by
  have numLow := two_pow_log2_le positive 1074
  have numHigh := lt_two_pow_log2 num 1074
  rw [← unitsPerOne_eq_two_pow] at numLow numHigh
  have grow : ∀ {a b : Nat}, a ≤ b → 2 ^ a ≤ 2 ^ b := Nat.pow_le_pow_right (by decide)
  have split : exponentFor num den =
      if num * unitsPerOne < den * 2 ^ (52 + (num.log2 + 1074 - den.log2 - 52))
      then num.log2 + 1074 - den.log2 - 52 - 1 else num.log2 + 1074 - den.log2 - 52 := rfl
  rw [split]
  generalize scale : num.log2 + 1074 - den.log2 - 52 = exponent
  split_ifs with below
  · -- the quotient of the leading powers is too large by one
    refine ⟨below.trans_le (Nat.mul_le_mul_left _ (grow (by omega))), ?_⟩
    rcases Nat.lt_or_ge 1 exponent with several | atMost
    · right
      exact ((lt_two_pow_log2 den _).le.trans (grow (by omega))).trans numLow
    · left
      omega
  · exact ⟨numHigh.trans_le ((grow (by omega)).trans (two_pow_log2_le positive' _)),
      Or.inr (Nat.not_lt.1 below)⟩

/-- A greater fraction has no lesser exponent. -/
theorem Exponent.mono {e e' : Nat} (first : Exponent num den e) (second : Exponent num' den' e')
    (positive : 0 < den) (le : num * den' ≤ num' * den) : e ≤ e' := by
  by_contra more
  have lower := first.lower.resolve_left (by omega)
  have upper := second.upper
  have power : 2 ^ (53 + e') ≤ 2 ^ (52 + e) := Nat.pow_le_pow_right (by decide) (by omega)
  have chain : den * den' * 2 ^ (52 + e) < den * den' * 2 ^ (52 + e) := by
    calc den * den' * 2 ^ (52 + e) = den * 2 ^ (52 + e) * den' := by ring
      _ ≤ num * unitsPerOne * den' := Nat.mul_le_mul_right _ lower
      _ = num * den' * unitsPerOne := by ring
      _ ≤ num' * den * unitsPerOne := Nat.mul_le_mul_right _ le
      _ = num' * unitsPerOne * den := by ring
      _ < den' * 2 ^ (53 + e') * den := Nat.mul_lt_mul_of_pos_right upper positive
      _ ≤ den' * 2 ^ (52 + e) * den := Nat.mul_le_mul_right _ (Nat.mul_le_mul_left _ power)
      _ = den * den' * 2 ^ (52 + e) := by ring
  exact Nat.lt_irrefl _ chain

/-! ## Words -/

/-- The mantissa of a fraction at an exponent. -/
def mantissaAt (num den exponent : Nat) : Nat := roundDiv (num * unitsPerOne) (den * 2 ^ exponent)

theorem nearestBits_eq (positive : 0 < num) : nearestBits num den =
    min (exponentFor num den * 2 ^ 52 + mantissaAt num den (exponentFor num den)) infinityBits :=
  if_neg positive.ne'

/-- At the fitting exponent a mantissa has 53 digits, or fewer if the exponent is the least. -/
theorem Exponent.mantissaAt_bounds {e : Nat} (exponent : Exponent num den e) (positive : 0 < den) :
    mantissaAt num den e ≤ 2 ^ 53 ∧ (e = 0 ∨ 2 ^ 52 ≤ mantissaAt num den e) := by
  have unit : 0 < den * 2 ^ e := Nat.mul_pos positive (Nat.two_pow_pos e)
  constructor
  · apply roundDiv_le unit
    have upper := exponent.upper.le
    rwa [Nat.pow_add, Nat.mul_left_comm] at upper
  · rcases exponent.lower with zero | lower
    · exact Or.inl zero
    · right
      apply le_roundDiv unit
      rwa [Nat.pow_add, Nat.mul_left_comm] at lower

/-- The exponent of a fraction is unique. -/
theorem Exponent.nearestBits_eq {e : Nat} (exponent : Exponent num den e) (positive : 0 < num)
    (positive' : 0 < den) :
    nearestBits num den = min (e * 2 ^ 52 + mantissaAt num den e) infinityBits := by
  have other := exponent_exponentFor positive positive'
  rw [Double.nearestBits_eq positive, Nat.le_antisymm (other.mono exponent positive' le_rfl)
    (exponent.mono other positive' le_rfl)]

/-- A greater fraction has no lesser word. -/
theorem nearestBits_mono (positive : 0 < den) (positive' : 0 < den')
    (le : num * den' ≤ num' * den) : nearestBits num den ≤ nearestBits num' den' := by
  rcases Nat.eq_zero_or_pos num with rfl | some
  · rw [nearestBits, if_pos rfl]
    exact Nat.zero_le _
  have some' : 0 < num' := Nat.pos_of_mul_pos_right ((Nat.mul_pos some positive').trans_le le)
  rw [nearestBits_eq some, nearestBits_eq some']
  have exponent := exponent_exponentFor some positive
  have exponent' := exponent_exponentFor some' positive'
  have exponents := exponent.mono exponent' positive le
  apply min_le_min_right
  generalize exponentFor num den = e at *
  generalize exponentFor num' den' = e' at *
  rcases exponents.eq_or_lt with rfl | less
  · apply Nat.add_le_add_left
    apply roundDiv_mono (Nat.mul_pos positive (Nat.two_pow_pos e))
      (Nat.mul_pos positive' (Nat.two_pow_pos e))
    calc num * unitsPerOne * (den' * 2 ^ e) = num * den' * (unitsPerOne * 2 ^ e) := by ring
      _ ≤ num' * den * (unitsPerOne * 2 ^ e) := Nat.mul_le_mul_right _ le
      _ = num' * unitsPerOne * (den * 2 ^ e) := by ring
  · obtain ⟨upper, -⟩ := exponent.mantissaAt_bounds positive
    have lower := (exponent'.mantissaAt_bounds positive').2.resolve_left (by omega)
    omega

/-! ## The rounding of the elementary functions -/

/-- The word below a fraction. -/
def floorBits (num den : Nat) : Nat :=
  exponentFor num den * 2 ^ 52 + num * unitsPerOne / (den * 2 ^ exponentFor num den)

/-- The machine has a choice between the word below a fraction and the next one, and only near their
midpoint. -/
theorem roundedBits_cases (choice num den : Nat) :
    roundedBits choice num den = nearestBits num den ∨
      (roundedBits choice num den ≤ floorBits num den + 1 ∧
        15 * (den * 2 ^ exponentFor num den) ≤
          32 * (num * unitsPerOne % (den * 2 ^ exponentFor num den))) := by
  have unfolded : roundedBits choice num den =
      if 16 * (if 2 * (num * unitsPerOne % (den * 2 ^ exponentFor num den)) <
            den * 2 ^ exponentFor num den
          then den * 2 ^ exponentFor num den -
            2 * (num * unitsPerOne % (den * 2 ^ exponentFor num den))
          else 2 * (num * unitsPerOne % (den * 2 ^ exponentFor num den)) -
            den * 2 ^ exponentFor num den) ≤ den * 2 ^ exponentFor num den &&
          (choice = floorBits num den || choice = floorBits num den + 1)
      then choice else nearestBits num den := rfl
  rw [unfolded]
  generalize num * unitsPerOne % (den * 2 ^ exponentFor num den) = part
  generalize den * 2 ^ exponentFor num den = unit
  generalize distance : (if 2 * part < unit then unit - 2 * part else 2 * part - unit) = offset
  split
  · rename_i chosen
    simp only [Bool.and_eq_true, Bool.or_eq_true, decide_eq_true_iff] at chosen
    obtain ⟨near, either⟩ := chosen
    right
    split at distance <;> omega
  · exact Or.inl rfl

/-- A fraction that lies at most fifteen thirty-seconds of a gap above a double is not rounded past
it. -/
theorem roundedBits_le {choice e mantissa : Nat} (positive : 0 < den) (digits : mantissa < 2 ^ 53)
    (leading : 2 ^ 52 ≤ mantissa ∨ e = 0)
    (below : 32 * (num * unitsPerOne) < den * 2 ^ e * (32 * mantissa + 15)) :
    roundedBits choice num den ≤ e * 2 ^ 52 + mantissa := by
  have unit : ∀ n, 0 < den * 2 ^ n := fun n => Nat.mul_pos positive (Nat.two_pow_pos n)
  rcases Nat.eq_zero_or_pos num with rfl | some
  · -- zero is exact
    rcases roundedBits_cases choice 0 den with nearest | ⟨-, near⟩
    · rw [nearest, nearestBits, if_pos rfl]
      exact Nat.zero_le _
    · have := unit (exponentFor 0 den)
      rw [Nat.zero_mul, Nat.zero_mod] at near
      omega
  have exponent := exponent_exponentFor some positive
  have cases := roundedBits_cases choice num den
  rw [Double.nearestBits_eq some, floorBits] at cases
  generalize exponentFor num den = e' at *
  have floor := roundDiv_bounds (num * unitsPerOne) (den * 2 ^ e')
  have exact : 2 * (num * unitsPerOne % (den * 2 ^ e')) < den * 2 ^ e' →
      mantissaAt num den e' = num * unitsPerOne / (den * 2 ^ e') := roundDiv_eq_div
  have whole := Nat.div_add_mod (num * unitsPerOne) (den * 2 ^ e')
  have here := unit e'
  rw [← mantissaAt] at floor
  rcases Nat.lt_trichotomy e' e with less | rfl | more
  · -- at a lesser exponent all words are lesser
    have upper : num * unitsPerOne / (den * 2 ^ e') < 2 ^ 53 := by
      rw [Nat.div_lt_iff_lt_mul here]
      have bound := exponent.upper
      rwa [Nat.pow_add, Nat.mul_left_comm] at bound
    have mantissas := (exponent.mantissaAt_bounds positive).1
    generalize num * unitsPerOne / (den * 2 ^ e') = quotient at *
    generalize mantissaAt num den e' = nearest at *
    clear below whole exact here floor
    omega
  · generalize num * unitsPerOne / (den * 2 ^ e') = quotient at *
    generalize num * unitsPerOne % (den * 2 ^ e') = rest at *
    generalize mantissaAt num den e' = nearest at *
    generalize num * unitsPerOne = scaled at *
    generalize den * 2 ^ e' = gap at *
    subst whole
    have atMost : quotient ≤ mantissa := by
      by_contra above
      have next : gap * (mantissa + 1) ≤ gap * quotient := Nat.mul_le_mul_left _ (by omega)
      nlinarith
    rcases atMost.lt_or_eq with less | rfl
    · clear below exact
      omega
    · -- above the double itself the fraction is too far from the midpoint
      have far : 32 * rest < 15 * gap := by linarith
      clear below
      omega
  · exfalso
    have lower := exponent.lower.resolve_left (by omega)
    have power : 2 ^ (53 + e) ≤ 2 ^ (52 + e') := Nat.pow_le_pow_right (by decide) (by omega)
    have atLeast : den * 2 ^ e * 2 ^ 53 ≤ num * unitsPerOne := by
      calc den * 2 ^ e * 2 ^ 53 = den * 2 ^ (53 + e) := by ring
        _ ≤ den * 2 ^ (52 + e') := Nat.mul_le_mul_left _ power
        _ ≤ num * unitsPerOne := lower
    have limit : den * 2 ^ e * (32 * mantissa + 15) ≤ den * 2 ^ e * (32 * 2 ^ 53) :=
      Nat.mul_le_mul_left _ (by omega)
    linarith

end

end Antimeridian.Double
