import Antimeridian.Proofs.Double.Comparison

/-!
# The rank of a double

Doubles of one sign are ordered as their words are.  The rank of a double is its word without the
sign bit, under the sign of the double, so that both zeros have the rank zero.  All comparisons of
numbers are comparisons of ranks: the numeric ones, the sign, the total order and whether a number is
finite.
-/

namespace Antimeridian.Double
open Float.Model (UnpackedFloat Format)
open Float.Model.UnpackedFloat

/-- The word of a magnitude, in which the exponent counts from the least one. -/
def magnitudeWord (m : Nat) (e : Int) : Nat := (e + 1074).toNat * 2 ^ 52 + m

/-- The rank of a double taken apart; a NaN is put at zero. -/
def rankOf : UnpackedFloat → Int
  | .infinity s => s.apply infinityBits
  | .notANumber => 0
  | .zero _ => 0
  | .finite s m e _ => s.apply (magnitudeWord m e)

/-- The rank of a double. -/
def rank (x : Float) : Int := rankOf (view x)

/-- The double is not a NaN. -/
def IsNumber (x : Float) : Prop := view x ≠ .notANumber

/-! ## Order -/

/-- Magnitudes are ordered by their exponents first. -/
theorem compare_magnitudeWord {m n : Nat} {e f : Int} (m53 : m < 2 ^ 53) (n53 : n < 2 ^ 53)
    (eLow : -1074 ≤ e) (fLow : -1074 ≤ f) (mLead : 2 ^ 52 ≤ m ∨ e = -1074)
    (nLead : 2 ^ 52 ≤ n ∨ f = -1074) :
    (compare e f).then (compare m n) =
      compare (magnitudeWord m e : Int) (magnitudeWord n f : Int) := by
  unfold magnitudeWord
  rcases lt_trichotomy e f with less | rfl | more
  · rw [compare_lt_iff_lt.2 less]
    exact (compare_lt_iff_lt.2 (by omega)).symm
  · rw [compare_eq_iff_eq.2 rfl]
    change compare m n = _
    rcases lt_trichotomy m n with less | rfl | more
    · rw [compare_lt_iff_lt.2 less]
      exact (compare_lt_iff_lt.2 (by omega)).symm
    · rw [compare_eq_iff_eq.2 rfl, compare_eq_iff_eq.2 rfl]
    · rw [compare_gt_iff_gt.2 more]
      exact (compare_gt_iff_gt.2 (by omega)).symm
  · rw [compare_gt_iff_gt.2 more]
    exact (compare_gt_iff_gt.2 (by omega)).symm

/-- A finite magnitude lies strictly between zero and infinity. -/
theorem magnitudeWord_bounds {s : Sign} {m : Nat} {e : Int} {positive : 0 < m}
    (canonical : Canonical (.finite s m e positive)) :
    0 < magnitudeWord m e ∧ magnitudeWord m e < infinityBits := by
  obtain ⟨digits, low, high, leading⟩ := canonical
  unfold magnitudeWord infinityBits
  omega

theorem compare_neg_neg (a b : Int) : compare (-a) (-b) = compare b a := by
  simp only [compare, compareOfLessAndEq, neg_lt_neg_iff, neg_inj, eq_comm]

theorem compare_notANumber (u : UnpackedFloat) : u.compare .notANumber = none := by
  cases u <;> rfl

/-- Numbers are compared as their ranks are. -/
theorem compare_eq_compare_rankOf {u v : UnpackedFloat} (uCanonical : Canonical u)
    (vCanonical : Canonical v) (uNumber : u ≠ .notANumber) (vNumber : v ≠ .notANumber) :
    u.compare v = some (compare (rankOf u) (rankOf v)) := by
  have less : ∀ {a b : Int}, a < b → some .lt = some (compare a b) := by
    intro a b below
    rw [compare_lt_iff_lt.2 below]
  have more : ∀ {a b : Int}, b < a → some .gt = some (compare a b) := by
    intro a b above
    rw [compare_gt_iff_gt.2 above]
  cases u with
  | notANumber => exact absurd rfl uNumber
  | infinity s =>
    cases v with
    | notANumber => exact absurd rfl vNumber
    | infinity t => cases s <;> cases t <;> decide
    | zero t => cases s <;> cases t <;> decide
    | finite t n f positive =>
      obtain ⟨low, high⟩ := magnitudeWord_bounds vCanonical
      cases s <;> cases t
      · exact less (by simp only [rankOf, Sign.apply]; omega)
      · exact less (by simp only [rankOf, Sign.apply]; omega)
      · exact more (by simp only [rankOf, Sign.apply]; omega)
      · exact more (by simp only [rankOf, Sign.apply]; omega)
  | zero s =>
    cases v with
    | notANumber => exact absurd rfl vNumber
    | infinity t => cases s <;> cases t <;> decide
    | zero t => rfl
    | finite t n f positive =>
      obtain ⟨low, -⟩ := magnitudeWord_bounds vCanonical
      cases t
      · exact more (by simp only [rankOf, Sign.apply]; omega)
      · exact less (by simp only [rankOf, Sign.apply]; omega)
  | finite s m e positive =>
    obtain ⟨low, high⟩ := magnitudeWord_bounds uCanonical
    cases v with
    | notANumber => exact absurd rfl vNumber
    | infinity t =>
      cases s <;> cases t
      · exact more (by simp only [rankOf, Sign.apply]; omega)
      · exact less (by simp only [rankOf, Sign.apply]; omega)
      · exact more (by simp only [rankOf, Sign.apply]; omega)
      · exact less (by simp only [rankOf, Sign.apply]; omega)
    | zero t =>
      cases s
      · exact less (by simp only [rankOf, Sign.apply]; omega)
      · exact more (by simp only [rankOf, Sign.apply]; omega)
    | finite t n f positive' =>
      obtain ⟨low', -⟩ := magnitudeWord_bounds vCanonical
      obtain ⟨m53, eLow, -, mLead⟩ := uCanonical
      obtain ⟨n53, fLow, -, nLead⟩ := vCanonical
      have magnitudes := compare_magnitudeWord m53 n53 eLow fLow mLead nLead
      cases s <;> cases t
      · simp only [UnpackedFloat.compare, magnitudes, rankOf, Sign.apply]
        rw [← Std.OrientedOrd.eq_swap]
        exact congrArg some (compare_neg_neg _ _).symm
      · exact less (by simp only [rankOf, Sign.apply]; omega)
      · exact more (by simp only [rankOf, Sign.apply]; omega)
      · exact congrArg some magnitudes

section

variable {x y : Float}

/-- Numbers compare as their ranks do, and a NaN compares with nothing. -/
theorem compare_view (x y : Float) : IsNumber x ∧ IsNumber y ∧
      (view x).compare (view y) = some (compare (rank x) (rank y)) ∨
    ¬(IsNumber x ∧ IsNumber y) ∧ (view x).compare (view y) = none := by
  by_cases xNumber : view x = .notANumber
  · exact Or.inr ⟨fun both => both.1 xNumber, by rw [xNumber]; rfl⟩
  by_cases yNumber : view y = .notANumber
  · exact Or.inr ⟨fun both => both.2 yNumber, by rw [yNumber, compare_notANumber]⟩
  exact Or.inl ⟨xNumber, yNumber, compare_eq_compare_rankOf (canonical_view x) (canonical_view y)
    xNumber yNumber⟩

theorem lt_iff_rank : x < y ↔ IsNumber x ∧ IsNumber y ∧ rank x < rank y := by
  rw [lt_iff, ← and_assoc]
  rcases compare_view x y with ⟨xNumber, yNumber, order⟩ | ⟨absent, order⟩
  · simp [order, xNumber, yNumber, compare_lt_iff_lt]
  · simp [order, absent]

/-- Numbers are equal if their ranks are; both zeros have rank zero. -/
theorem beq_iff_rank : (x == y) = true ↔ IsNumber x ∧ IsNumber y ∧ rank x = rank y := by
  change ((view x).compare (view y) == some .eq) = true ↔ _
  rw [beq_iff_eq, ← and_assoc]
  rcases compare_view x y with ⟨xNumber, yNumber, order⟩ | ⟨absent, order⟩
  · simp [order, xNumber, yNumber]
  · simp [order, absent]

theorem le_iff_rank : x ≤ y ↔ IsNumber x ∧ IsNumber y ∧ rank x ≤ rank y := by
  rw [le_iff, ← and_assoc]
  rcases compare_view x y with ⟨xNumber, yNumber, order⟩ | ⟨absent, order⟩
  · simp [order, xNumber, yNumber, compare_lt_iff_lt, Int.le_iff_lt_or_eq]
  · simp [order, absent]

@[simp] theorem rank_zero : rank 0 = 0 := rfl

theorem isNumber_zero : IsNumber 0 := by
  simp [IsNumber, view_zero]

theorem rank_of_not_isNumber (absent : ¬IsNumber x) : rank x = 0 := by
  rw [rank, not_not.1 absent]
  rfl

theorem lt_zero_iff_rank : x < 0 ↔ rank x < 0 := by
  rw [lt_iff_rank, rank_zero]
  constructor
  · exact fun less => less.2.2
  · intro less
    have number : IsNumber x := by
      by_contra absent
      exact less.ne (rank_of_not_isNumber absent)
    exact ⟨number, isNumber_zero, less⟩

theorem zero_lt_iff_rank : 0 < x ↔ 0 < rank x := by
  rw [lt_iff_rank, rank_zero]
  constructor
  · exact fun less => less.2.2
  · intro less
    have number : IsNumber x := by
      by_contra absent
      exact less.ne' (rank_of_not_isNumber absent)
    exact ⟨isNumber_zero, number, less⟩

/-- The sign of a double is that of its rank. -/
theorem sign_eq_sign_rank (x : Float) : sign x = (rank x).sign := by
  unfold sign
  rcases lt_trichotomy (rank x) 0 with negative | zero | positive
  · rw [if_pos (lt_zero_iff_rank.2 negative), Int.sign_eq_neg_one_of_neg negative]
  · rw [if_neg (mt lt_zero_iff_rank.1 (by omega)), if_neg (mt zero_lt_iff_rank.1 (by omega)), zero]
    rfl
  · rw [if_neg (mt lt_zero_iff_rank.1 (by omega)), if_pos (zero_lt_iff_rank.2 positive),
      Int.sign_eq_one_of_pos positive]

theorem isNaN_eq_false_iff : x.isNaN = false ↔ IsNumber x := by
  change (view x).isNaN = false ↔ view x ≠ .notANumber
  cases view x <;> simp [UnpackedFloat.isNaN]

/-- A number is finite if its rank lies strictly between those of the infinities. -/
theorem isFinite_iff_rank : x.isFinite = true ↔
    IsNumber x ∧ -(infinityBits : Int) < rank x ∧ rank x < infinityBits := by
  change (view x).isFinite = true ↔
    view x ≠ .notANumber ∧ -_ < rankOf (view x) ∧ rankOf (view x) < _
  have canonical := canonical_view x
  cases parts : view x with
  | notANumber => simp [UnpackedFloat.isFinite]
  | infinity s => cases s <;> simp [UnpackedFloat.isFinite, rankOf, Sign.apply]
  | zero s => simp [UnpackedFloat.isFinite, rankOf, infinityBits]
  | finite s m e positive =>
    rw [parts] at canonical
    obtain ⟨low, high⟩ := magnitudeWord_bounds canonical
    cases s <;> simp only [UnpackedFloat.isFinite, rankOf, Sign.apply] <;> simp <;> omega

theorem apply_neg (s : Sign) (n : Int) : (-s).apply n = -s.apply n := by
  cases s with
  | negative => exact (Int.neg_neg n).symm
  | positive => rfl

theorem rankOf_neg (u : UnpackedFloat) : rankOf u.neg = -rankOf u := by
  cases u with
  | notANumber => rfl
  | zero s => rfl
  | infinity s | finite s m e positive => exact apply_neg s _

@[simp] theorem rank_neg (x : Float) : rank (-x) = -rank x := by
  rw [rank, view_neg, rankOf_neg, rank]

theorem isNumber_neg (number : IsNumber x) : IsNumber (-x) := by
  unfold IsNumber at *
  rw [view_neg]
  cases parts : view x <;> simp_all [UnpackedFloat.neg]

end

/-! ## Words -/

theorem packComponents_toNat (s : Sign) (e : BitVec 11) (m : BitVec 52) :
    (packComponents .binary64 s e m).toNat =
      s.toBitVec.toNat * 2 ^ 63 + (e.toNat * 2 ^ 52 + m.toNat) := by
  have mantissa := m.isLt
  have exponent := e.isLt
  rw [packComponents, BitVec.toNat_append, BitVec.toNat_append,
    ← Nat.shiftLeft_add_eq_or_of_lt mantissa,
    ← Nat.shiftLeft_add_eq_or_of_lt exponent, Nat.shiftLeft_eq, Nat.shiftLeft_eq]
  ring

/-- The rank of a word of sign, exponent and mantissa fields. -/
theorem rankOf_packComponents {s : Sign} {e : BitVec 11} {m : BitVec 52}
    (number : unpack .binary64 (packComponents .binary64 s e m) ≠ .notANumber) :
    rankOf (unpack .binary64 (packComponents .binary64 s e m)) =
      s.apply (e.toNat * 2 ^ 52 + m.toNat : Nat) := by
  rw [unpack_packComponents] at number ⊢
  by_cases ones : e = -1#11
  · rw [if_pos ones] at number ⊢
    by_cases zero : m = 0#52
    · rw [if_pos zero, ones, zero]
      rfl
    · rw [if_neg zero] at number
      exact absurd rfl number
  · rw [if_neg ones]
    by_cases least : e = 0#11
    · rw [if_pos least]
      by_cases zero : m = 0#52
      · rw [dif_pos zero, least, zero]
        cases s <;> simp [rankOf, Sign.apply]
      · rw [dif_neg zero, least]
        simp [rankOf, magnitudeWord]
    · rw [if_neg least]
      have normal : e.toNat ≠ 0 := by
        intro zero
        exact least (BitVec.eq_of_toNat_eq (by simpa using zero))
      have word : magnitudeWord (1#1 ++ m).toNat ((e.toNat : Int) - 1075) =
          e.toNat * 2 ^ 52 + m.toNat := by
        rw [magnitudeWord, leadingBit_append]
        omega
      rw [rankOf, word]

theorem exists_packComponents (b : BitVec 64) :
    ∃ s e m, b = packComponents .binary64 s e m :=
  ⟨_, _, _, (@packComponents_unpackSign_unpackExponent_unpackMantissa .binary64 b).symm⟩

/-- The rank of a number is its word without the sign bit, under its sign. -/
theorem rank_eq {x : Float} (number : IsNumber x) :
    rank x = if signBit x then -(magnitudeBits x : Int) else magnitudeBits x := by
  obtain ⟨s, e, m, fields⟩ := exists_packComponents x.toModel.toBits.toBitVec
  have viewed : view x = unpack .binary64 (packComponents .binary64 s e m) := by
    rw [← fields]
    rfl
  have word : x.toBits.toNat = s.toBitVec.toNat * 2 ^ 63 + (e.toNat * 2 ^ 52 + m.toNat) := by
    rw [← packComponents_toNat, ← fields]
    rfl
  have mantissa : m.toNat < 2 ^ 52 := m.isLt
  have exponent : e.toNat < 2 ^ 11 := e.isLt
  have power : Nat.pow 2 63 = 2 ^ 63 := rfl
  rw [IsNumber, viewed] at number
  rw [rank, viewed, rankOf_packComponents number, signBit, magnitudeBits, word, power]
  cases s with
  | negative =>
    have bit : Sign.negative.toBitVec.toNat = 1 := rfl
    rw [if_pos (by simp [bit]), bit, Sign.apply]
    congr 1
    omega
  | positive =>
    have bit : Sign.positive.toBitVec.toNat = 0 := rfl
    rw [if_neg (by simp [bit]; omega), bit, Sign.apply]
    omega

/-- The total order goes by ranks, as long as they differ. -/
theorem totalLe_iff_rank {x y : Float} (xNumber : IsNumber x) (yNumber : IsNumber y)
    (differ : rank x ≠ rank y) : totalLe x y = true ↔ rank x < rank y := by
  have xRank := rank_eq xNumber
  have yRank := rank_eq yNumber
  rw [totalLe, decide_eq_true_iff, orderKey, orderKey]
  split at xRank <;> split at yRank <;> simp_all <;> omega

theorem isNumber_packComponents {s : Sign} {e : BitVec 11} {m : BitVec 52}
    (bound : e.toNat * 2 ^ 52 + m.toNat ≤ infinityBits) :
    unpack .binary64 (packComponents .binary64 s e m) ≠ .notANumber := by
  rw [unpack_packComponents]
  split
  · rename_i ones
    have zero : m = 0#52 := by
      have field : e.toNat = 2047 := by rw [ones]; rfl
      apply BitVec.eq_of_toNat_eq
      simp only [field, infinityBits] at bound
      simp
      omega
    simp [zero]
  · split
    · split <;> simp
    · simp

/-- A double made from a sign and a word up to that of infinity. -/
theorem rank_ofMagnitude (negative : Bool) {bits : Nat} (bound : bits ≤ infinityBits) :
    IsNumber (ofMagnitude negative bits) ∧
      rank (ofMagnitude negative bits) = if negative then -(bits : Int) else bits := by
  unfold infinityBits at bound
  obtain ⟨s, e, m, fields⟩ :=
    exists_packComponents (if negative then bits + Nat.pow 2 63 else bits).toUInt64.toBitVec
  have viewed : view (ofMagnitude negative bits) =
      unpack .binary64 (packComponents .binary64 s e m) := by
    rw [← fields]
    exact view_ofModel_pack (canonical_unpack _)
  have power : Nat.pow 2 63 = 2 ^ 63 := rfl
  have word : (if negative then bits + 2 ^ 63 else bits) =
      s.toBitVec.toNat * 2 ^ 63 + (e.toNat * 2 ^ 52 + m.toNat) := by
    rw [← packComponents_toNat, ← fields, power]
    change _ = (if negative then bits + 2 ^ 63 else bits) % 2 ^ 64
    split <;> omega
  have mantissa : m.toNat < 2 ^ 52 := m.isLt
  have exponent : e.toNat < 2 ^ 11 := e.isLt
  have magnitude : e.toNat * 2 ^ 52 + m.toNat = bits := by
    split at word <;> omega
  have number : unpack .binary64 (packComponents .binary64 s e m) ≠ .notANumber :=
    isNumber_packComponents (by rw [magnitude]; exact bound)
  refine ⟨by rwa [IsNumber, viewed], ?_⟩
  rw [rank, viewed, rankOf_packComponents number, magnitude]
  cases s with
  | negative =>
    have bit : Sign.negative.toBitVec.toNat = 1 := rfl
    cases negative with
    | false => rw [if_neg Bool.false_ne_true] at word; omega
    | true => rfl
  | positive =>
    have bit : Sign.positive.toBitVec.toNat = 0 := rfl
    cases negative with
    | false => rfl
    | true => rw [if_pos rfl] at word; omega

end Antimeridian.Double
