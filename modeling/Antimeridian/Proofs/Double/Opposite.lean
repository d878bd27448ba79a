import Antimeridian.Proofs.Cut

/-!
# Opposite doubles

Rounding is the same for opposite values, so a computation with opposite numbers gives the opposite
result.  Only the sign of a zero may come out differently, and no comparison sees it: doubles that
are equal up to the sign of a zero stay so under every operation but a division by them.
-/

namespace Antimeridian.Double
open Float.Model (UnpackedFloat Format)
open Float.Model.UnpackedFloat

/-! ## Parts -/

/-- The parts of a double, where a zero has lost its sign. -/
def plain : UnpackedFloat → UnpackedFloat
  | .zero _ => .zero .positive
  | u => u

/-- The opposite of parts without a signed zero. -/
def opposite (u : UnpackedFloat) : UnpackedFloat := plain u.neg

/-- What parts are rounded to when they are put together, without the sign of a zero. -/
def settle (u : UnpackedFloat) : UnpackedFloat := plain (unpack .binary64 (pack .binary64 u))

@[simp] theorem settle_zero (s : Sign) : settle (.zero s) = .zero .positive := by
  rw [settle, @unpack_pack (.zero s) trivial]
  rfl

@[simp] theorem settle_notANumber : settle .notANumber = .notANumber := by
  rw [settle, @unpack_pack .notANumber trivial]
  rfl

theorem unpack_pack_neg (u : UnpackedFloat) :
    unpack .binary64 (pack .binary64 u.neg) = (unpack .binary64 (pack .binary64 u)).neg := by
  cases u with
  | notANumber => rw [@unpack_pack .notANumber trivial, @unpack_pack (neg .notANumber) trivial]
  | infinity s => rw [@unpack_pack (.infinity s) trivial, @unpack_pack (neg (.infinity s)) trivial]
  | zero s => rw [@unpack_pack (.zero s) trivial, @unpack_pack (neg (.zero s)) trivial]
  | finite s m e positive =>
    simp only [UnpackedFloat.neg, pack, packedInfinity]
    split_ifs <;> simp only [unpack_packComponents] <;> split_ifs <;> rfl

/-- Rounding treats both signs alike. -/
theorem settle_neg (u : UnpackedFloat) : settle u.neg = opposite (settle u) := by
  rw [settle, unpack_pack_neg, settle, opposite]
  cases unpack .binary64 (pack .binary64 u) <;> rfl

theorem neg_roundWithAccuracy (s : Sign) (m : Nat) (e : Int) (accuracy : Accuracy) :
    roundWithAccuracy .binary64 (-s) m e accuracy =
      (roundWithAccuracy .binary64 s m e accuracy).neg := by
  unfold roundWithAccuracy
  dsimp only
  split <;> rfl

/-- Opposite sums are rounded to opposite values. -/
theorem settle_normalize_neg (m : Int) (e : Int) (s : Sign) :
    settle (normalize .binary64 (-m) e s) = opposite (settle (normalize .binary64 m e s)) := by
  rw [← settle_neg]
  unfold UnpackedFloat.normalize UnpackedFloat.round
  rcases lt_trichotomy m 0 with below | rfl | above
  · rw [compare_lt_iff_lt.2 below, compare_gt_iff_gt.2 (by omega)]
    exact congrArg settle (neg_roundWithAccuracy .negative _ _ _)
  · simp [UnpackedFloat.neg]
  · rw [compare_gt_iff_gt.2 above, compare_lt_iff_lt.2 (by omega), Int.neg_neg]
    exact congrArg settle (neg_roundWithAccuracy .positive _ _ _)

/-! ## Operations on parts -/

section

variable (u v : UnpackedFloat)

theorem plain_plain : plain (plain u) = plain u := by
  cases u <;> rfl

/-- The sign of a zero does not show in a sum, zeros aside. -/
theorem settle_add_plain :
    settle (add .binary64 (plain u) (plain v)) = settle (add .binary64 u v) := by
  cases u <;> cases v <;> simp only [plain, add]
  split_ifs <;> simp

theorem settle_mul_plain :
    settle (mul .binary64 (plain u) (plain v)) = settle (mul .binary64 u v) := by
  cases u <;> cases v <;> simp only [plain, mul, settle_zero]

theorem settle_div_plain : settle (div .binary64 (plain u) v) = settle (div .binary64 u v) := by
  cases u <;> cases v <;> simp only [plain, div, settle_zero]

theorem settle_sqrt_plain : settle (sqrt .binary64 (plain u)) = settle (sqrt .binary64 u) := by
  cases u <;> simp only [plain, sqrt, settle_zero]

theorem sub_eq_add_neg_parts : sub .binary64 u v = add .binary64 u v.neg := by
  cases u <;> cases v <;> simp only [sub, add, UnpackedFloat.neg, apply_neg, Int.sub_eq_add_neg]

theorem add_comm_parts : add .binary64 u v = add .binary64 v u := by
  cases u <;> cases v <;> simp only [add, Int.add_comm, min_comm]
  case infinity.infinity s t => cases s <;> cases t <;> rfl
  case zero.zero s t => cases s <;> cases t <;> rfl

@[simp] theorem settle_add_opposite :
    settle (add .binary64 (opposite u) (opposite v)) = opposite (settle (add .binary64 u v)) := by
  rw [opposite, opposite, settle_add_plain, ← settle_neg]
  cases u <;> cases v <;> simp only [add, UnpackedFloat.neg]
  case infinity.infinity s t => cases s <;> cases t <;> rfl
  case zero.zero s t => cases s <;> cases t <;> simp
  case finite.finite s m e _ t n f _ =>
    rw [apply_neg, apply_neg, ← Int.neg_add, settle_normalize_neg]
    exact (settle_neg _).symm

@[simp] theorem settle_opposite_mul :
    settle (mul .binary64 (opposite u) v) = opposite (settle (mul .binary64 u v)) := by
  have signs : ∀ s t : Sign, -s * t = -(s * t) := by
    intro s t
    cases s <;> cases t <;> rfl
  rw [opposite, ← settle_mul_plain, plain_plain, settle_mul_plain, ← settle_neg]
  cases u <;> cases v <;> simp only [mul, UnpackedFloat.neg, signs, neg_roundWithAccuracy]

@[simp] theorem settle_mul_opposite :
    settle (mul .binary64 u (opposite v)) = opposite (settle (mul .binary64 u v)) := by
  have signs : ∀ s t : Sign, s * -t = -(s * t) := by
    intro s t
    cases s <;> cases t <;> rfl
  rw [opposite, ← settle_mul_plain, plain_plain, settle_mul_plain, ← settle_neg]
  cases u <;> cases v <;> simp only [mul, UnpackedFloat.neg, signs, neg_roundWithAccuracy]

@[simp] theorem settle_opposite_div :
    settle (div .binary64 (opposite u) v) = opposite (settle (div .binary64 u v)) := by
  have signs : ∀ s t : Sign, -s / t = -(s / t) := by
    intro s t
    cases s <;> cases t <;> rfl
  rw [opposite, settle_div_plain, ← settle_neg]
  cases u <;> cases v <;> simp only [div, UnpackedFloat.neg, signs, neg_roundWithAccuracy]

end

/-! ## Doubles -/

/-- A double taken apart, without the sign of a zero. -/
def number (x : Float) : UnpackedFloat := plain (view x)

section

variable {x y x' y' : Float}

@[simp] theorem number_add (x y : Float) :
    number (x + y) = settle (add .binary64 (number x) (number y)) :=
  (settle_add_plain (view x) (view y)).symm

@[simp] theorem number_mul (x y : Float) :
    number (x * y) = settle (mul .binary64 (number x) (number y)) :=
  (settle_mul_plain (view x) (view y)).symm

@[simp] theorem number_div (x y : Float) :
    number (x / y) = settle (div .binary64 (number x) (view y)) :=
  (settle_div_plain (view x) (view y)).symm

@[simp] theorem number_sqrt (x : Float) : number x.sqrt = settle (sqrt .binary64 (number x)) :=
  (settle_sqrt_plain (view x)).symm

@[simp] theorem number_neg (x : Float) : number (-x) = opposite (number x) := by
  rw [number, view_neg, number]
  cases view x <;> rfl

/-- A difference is the sum with the negated number. -/
theorem sub_eq_add_neg (x y : Float) : x - y = x + -y := by
  apply eq_of_view_eq
  change unpack .binary64 (pack .binary64 (sub .binary64 (view x) (view y))) =
    unpack .binary64 (pack .binary64 (add .binary64 (view x) (view (-y))))
  rw [sub_eq_add_neg_parts, view_neg]

theorem add_comm (x y : Float) : x + y = y + x :=
  congrArg (fun u => Float.ofModel (Float.Model.pack u)) (add_comm_parts (view x) (view y))

@[simp] theorem opposite_opposite_number (x : Float) :
    opposite (opposite (number x)) = number x := by
  rw [← number_neg, ← number_neg, number, view_neg, view_neg, neg_neg, number]

/-- A difference the other way around is the opposite number. -/
theorem number_sub_swap (x y : Float) : number (y - x) = opposite (number (x - y)) := by
  rw [sub_eq_add_neg, sub_eq_add_neg, number_add, number_add, number_neg, number_neg,
    ← settle_add_opposite, opposite_opposite_number, add_comm_parts]

/-- The rank of a finite double is that of its value. -/
theorem rank_eq_nearest_value (finite : x.isFinite = true) :
    rank x = nearest (value x) unitsPerOne := by
  have rounds := (roundsTo_valueOf (canonical_view x) finite).2
  rwa [unpack_pack (canonical_view x)] at rounds

/-- Doubles that compare equal are the same up to the sign of a zero. -/
theorem number_eq_of_beq (equal : (x == y) = true) : number x = number y := by
  obtain ⟨-, -, same | ⟨xZero, yZero⟩ | ⟨xZero, yZero⟩⟩ :=
    (beq_iff_ne_notANumber_and_eq (view x) (view y)).1 equal
  · rw [number, same, number]
  · rw [number, number, xZero, yZero]
    rfl
  · rw [number, number, xZero, yZero]
    rfl

/-- The nearest double depends on the fraction only, not on how it is written. -/
theorem nearest_mul (v : Int) {den k : Nat} (positive : 0 < den) (positive' : 0 < k) :
    nearest (v * k) (den * k) = nearest v den := by
  have expanded : 0 < den * k := Nat.mul_pos positive positive'
  have cross : v.natAbs * k * den = v.natAbs * (den * k) := by ring
  have bits : nearestBits (v.natAbs * k) (den * k) = nearestBits v.natAbs den :=
    Nat.le_antisymm (nearestBits_mono expanded positive cross.le)
      (nearestBits_mono positive expanded cross.ge)
  rw [nearest, nearest, Int.sign_mul, Int.sign_natCast_of_ne_zero positive'.ne', Int.mul_one,
    Int.natAbs_mul, Int.natAbs_natCast, bits]

theorem number_mul_one (x : Float) : number (x * 1) = number x := by
  by_cases finite : x.isFinite = true
  · obtain ⟨isNumber, product⟩ := rank_mul finite isFinite_one
    have one : value 1 = unitsPerOne := by decide +kernel
    have same : rank (x * 1) = rank x := by
      rw [product, rank_eq_nearest_value finite, one, nearest_mul _ unitsPerOne_pos unitsPerOne_pos]
    exact number_eq_of_beq (beq_iff_rank.2 ⟨isNumber, isNumber_of_isFinite finite, same⟩)
  · rw [number_mul, number]
    cases parts : view x with
    | notANumber => exact settle_notANumber
    | infinity s => cases s <;> rfl
    | zero s => exact absurd (congrArg UnpackedFloat.isFinite parts) finite
    | finite s m e positive => exact absurd (congrArg UnpackedFloat.isFinite parts) finite

/-! ## Comparisons -/

theorem rank_eq_rankOf_number (x : Float) : rank x = rankOf (number x) := by
  rw [rank, number]
  cases view x <;> rfl

theorem isNumber_iff_number : IsNumber x ↔ number x ≠ .notANumber := by
  rw [IsNumber, number]
  cases view x <;> simp [plain]

/-- Comparisons do not see the sign of a zero. -/
theorem lt_congr (left : number x = number x') (right : number y = number y') :
    x < y ↔ x' < y' := by
  simp only [lt_iff_rank, isNumber_iff_number, rank_eq_rankOf_number, left, right]

theorem beq_congr (left : number x = number x') (right : number y = number y') :
    (x == y) = (x' == y') := by
  apply Bool.eq_iff_iff.2
  simp only [beq_iff_rank, isNumber_iff_number, rank_eq_rankOf_number, left, right]

theorem sign_congr (same : number x = number x') : sign x = sign x' := by
  rw [sign_eq_sign_rank, sign_eq_sign_rank, rank_eq_rankOf_number, same, rank_eq_rankOf_number]

theorem abs_congr (same : number x = number x') : x.abs = x'.abs := by
  have magnitude : ∀ z : Float, view z.abs = (number z).abs := by
    intro z
    rw [view_abs, number]
    cases view z <;> rfl
  apply eq_of_view_eq
  rw [magnitude, magnitude, same]

theorem abs_neg (x : Float) : (-x).abs = x.abs := by
  apply eq_of_view_eq
  rw [view_abs, view_neg, view_abs]
  cases view x <;> rfl

/-- Only zeros lose anything with their sign. -/
theorem eq_of_number_eq (same : number x = number x') (positive : 0 < x) : x = x' := by
  have keeps : ∀ z : Float, 0 < z → number z = view z := by
    intro z above
    rw [zero_lt_iff_rank, rank] at above
    rw [number]
    cases parts : view z with
    | zero s => rw [parts] at above; cases above
    | _ => rfl
  have positive' : 0 < x' := (lt_congr rfl same).1 positive
  apply eq_of_view_eq
  rw [← keeps x positive, ← keeps x' positive', same]

end

end Antimeridian.Double
