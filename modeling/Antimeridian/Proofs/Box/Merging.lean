import Antimeridian.Proofs.Box

/-!
# Merging boxes in any order

Up to the sign of zeros, the lesser of two doubles is a minimum, if a NaN, which yields to every
other bound, is put above all numbers.  The greater of two doubles is the opposite of the lesser of
their opposites.  So the bounds of a box are elements of a semilattice, in which a merged box has the
infimum of the bounds.  Hence the order of merging does not matter, and a box that was merged before
is merged again without any effect.
-/

namespace Antimeridian

namespace Double

variable {x y : Float}

/-- A lower bound by its rank; a NaN bounds nothing and comes last. -/
def lowerRank (x : Float) : WithTop ℤ := if x.isNaN then ⊤ else (rank x : ℤ)

theorem lowerRank_of_isNumber (number : IsNumber x) : lowerRank x = (rank x : ℤ) := by
  rw [lowerRank, isNaN_eq_false_iff.2 number, if_neg Bool.false_ne_true]

/-- Only a NaN has no rank to be compared. -/
theorem lowerRank_eq_top_iff : lowerRank x = ⊤ ↔ ¬IsNumber x := by
  constructor
  · intro top number
    rw [lowerRank_of_isNumber number] at top
    exact WithTop.coe_ne_top top
  · intro absent
    rw [lowerRank, if_pos (eq_true_of_ne_false (mt isNaN_eq_false_iff.1 absent))]

/-- All NaNs are the same double. -/
theorem eq_of_not_isNumber (first : ¬IsNumber x) (second : ¬IsNumber y) : x = y :=
  eq_of_view_eq ((not_not.1 first).trans (not_not.1 second).symm)

/-- Bounds of the same rank are the same up to the sign of a zero. -/
theorem number_eq_of_lowerRank_eq (equal : lowerRank x = lowerRank y) : number x = number y := by
  by_cases xNumber : IsNumber x
  · have yNumber : IsNumber y := by
      by_contra absent
      rw [lowerRank_eq_top_iff.2 absent, lowerRank_eq_top_iff] at equal
      exact equal xNumber
    rw [lowerRank_of_isNumber xNumber, lowerRank_of_isNumber yNumber] at equal
    exact number_eq_of_beq (beq_iff_rank.2 ⟨xNumber, yNumber, WithTop.coe_injective equal⟩)
  · rw [lowerRank_eq_top_iff.2 xNumber, eq_comm, lowerRank_eq_top_iff] at equal
    rw [eq_of_not_isNumber xNumber equal]

/-- The first of two bounds is kept if it is at least as low. -/
theorem least_eq_left (lower : lowerRank x ≤ lowerRank y) : least x y = x := by
  rcases least_cases x y with ⟨first, -⟩ | ⟨second, less⟩
  · exact first
  rw [second]
  by_cases xNumber : IsNumber x
  · obtain ⟨yNumber, ranks⟩ := less xNumber
    rw [lowerRank_of_isNumber xNumber, lowerRank_of_isNumber yNumber, WithTop.coe_le_coe] at lower
    omega
  · rw [lowerRank_eq_top_iff.2 xNumber, top_le_iff, lowerRank_eq_top_iff] at lower
    exact eq_of_not_isNumber lower xNumber

/-- The second of two bounds is taken if it is lower. -/
theorem least_eq_right (lower : lowerRank y < lowerRank x) : least x y = y := by
  rcases least_cases x y with ⟨-, xNumber, ranks⟩ | ⟨second, -⟩
  · have yNumber : IsNumber y := not_not.1 (mt lowerRank_eq_top_iff.2 lower.ne_top)
    have order := ranks yNumber
    rw [lowerRank_of_isNumber xNumber, lowerRank_of_isNumber yNumber, WithTop.coe_lt_coe] at lower
    omega
  · exact second

/-- The lesser of two doubles has the lesser lower rank, with a NaN above all numbers. -/
theorem lowerRank_least (x y : Float) : lowerRank (least x y) = lowerRank x ⊓ lowerRank y := by
  rcases le_or_gt (lowerRank x) (lowerRank y) with lower | lower
  · rw [least_eq_left lower, inf_eq_left.2 lower]
  · rw [least_eq_right lower, inf_eq_right.2 lower.le]

theorem neg_injective (equal : -x = -y) : x = y := by
  have turned := congrArg view equal
  rw [view_neg, view_neg] at turned
  apply eq_of_view_eq
  rw [← neg_neg (view x), turned, neg_neg]

/-- The greater of two doubles is the opposite of the lesser of their opposites. -/
theorem neg_greatest (x y : Float) : -greatest x y = least (-x) (-y) := by
  have absent : (-x).isNaN = x.isNaN := by
    rw [Bool.eq_iff_iff, ← not_iff_not, Bool.not_eq_true, Bool.not_eq_true, isNaN_eq_false_iff,
      isNaN_eq_false_iff, isNumber_neg_iff]
  have order : -y < -x ↔ x < y := by
    rw [lt_iff_rank, lt_iff_rank, isNumber_neg_iff, isNumber_neg_iff, rank_neg, rank_neg,
      neg_lt_neg_iff, and_left_comm]
  simp only [greatest, least, absent, order]
  split
  · rfl
  · split <;> rfl

theorem greatest_eq_left (higher : lowerRank (-x) ≤ lowerRank (-y)) : greatest x y = x :=
  neg_injective ((neg_greatest x y).trans (least_eq_left higher))

end Double

open Double

/-! ## Bounds -/

namespace Extent

/-- The extents have the same bounds, up to the sign of a zero. -/
structure Same (a b : Extent) : Prop where
  lo : number a.lo = number b.lo
  hi : number a.hi = number b.hi

/-- The bounds by their ranks, both as lower bounds: the wider an extent, the less they are. -/
def bounds (e : Extent) : WithTop ℤ × WithTop ℤ := (lowerRank e.lo, lowerRank (-e.hi))

variable {a b : Extent}

theorem same_of_bounds_eq (equal : a.bounds = b.bounds) : Same a b where
  lo := number_eq_of_lowerRank_eq (congrArg Prod.fst equal)
  hi := by
    have turned := number_eq_of_lowerRank_eq (congrArg Prod.snd equal)
    rw [number_neg, number_neg] at turned
    rw [← opposite_opposite_number, turned, opposite_opposite_number]

/-- Joining extents takes the lesser of each pair of bounds. -/
theorem bounds_join (a b : Extent) : (a.join b).bounds = a.bounds ⊓ b.bounds := by
  refine Prod.ext (lowerRank_least a.lo b.lo) ?_
  exact (congrArg lowerRank (neg_greatest a.hi b.hi)).trans (lowerRank_least (-a.hi) (-b.hi))

/-- An extent is not changed by one within its bounds. -/
theorem join_eq_left (within : a.bounds ≤ b.bounds) : a.join b = a := by
  rw [join, least_eq_left within.1, greatest_eq_left within.2]

end Extent

namespace Box

/-- The boxes have the same bounds, up to the sign of a zero. -/
structure Same (a b : Box) : Prop where
  x : a.x.Same b.x
  y : a.y.Same b.y
  z : a.z.Same b.z

/-- The bounds along the three axes. -/
def bounds (box : Box) := (box.x.bounds, box.y.bounds, box.z.bounds)

variable {a b : Box}

theorem same_of_bounds_eq (equal : a.bounds = b.bounds) : Same a b where
  x := Extent.same_of_bounds_eq (congrArg (fun s => s.1) equal)
  y := Extent.same_of_bounds_eq (congrArg (fun s => s.2.1) equal)
  z := Extent.same_of_bounds_eq (congrArg (fun s => s.2.2) equal)

/-- Merging boxes takes the lesser of each pair of bounds. -/
theorem bounds_merge (a b : Box) : (a.merge b).bounds = a.bounds ⊓ b.bounds :=
  Prod.ext (Extent.bounds_join a.x b.x)
    (Prod.ext (Extent.bounds_join a.y b.y) (Extent.bounds_join a.z b.z))

/-- A box is not changed by one within its bounds. -/
theorem merge_eq_left (within : a.bounds ≤ b.bounds) : a.merge b = a := by
  rw [merge, Extent.join_eq_left within.1, Extent.join_eq_left within.2.1,
    Extent.join_eq_left within.2.2]

/-! ## Several boxes -/

/-- Merging boxes one by one takes the infimum of their bounds. -/
theorem bounds_foldl_merge (boxes : List Box) (a : Box) :
    (boxes.foldl merge a).bounds = (boxes.map bounds).foldl (· ⊓ ·) a.bounds := by
  induction boxes generalizing a with
  | nil => rfl
  | cons b boxes ih => rw [List.foldl_cons, ih, bounds_merge, List.map_cons, List.foldl_cons]

/-- The order in which boxes are merged does not show in the bounds. -/
theorem bounds_foldl_merge_perm {boxes others : List Box} (perm : boxes.Perm others) (a : Box) :
    (boxes.foldl merge a).bounds = (others.foldl merge a).bounds := by
  rw [bounds_foldl_merge, bounds_foldl_merge]
  exact (perm.map bounds).foldl_eq' (fun s _ t _ u => inf_right_comm u s t) a.bounds

/-- The result bounds the box that others are merged into and each of these. -/
theorem bounds_foldl_merge_le (boxes : List Box) (a : Box) :
    (boxes.foldl merge a).bounds ≤ a.bounds ∧
      ∀ b ∈ boxes, (boxes.foldl merge a).bounds ≤ b.bounds := by
  induction boxes generalizing a with
  | nil => exact ⟨le_refl _, by simp⟩
  | cons c boxes ih =>
    obtain ⟨first, later⟩ := ih (a.merge c)
    rw [bounds_merge] at first
    refine ⟨first.trans inf_le_left, fun b member => ?_⟩
    rcases List.mem_cons.1 member with rfl | inside
    · exact first.trans inf_le_right
    · exact later b inside

/-- Merged into the empty box one by one, boxes give the same box in any order, up to the sign of
zeros.  Merging one of them again changes nothing, and the points of all of them are kept. -/
theorem foldl_merge_perm {boxes others : List Box} (perm : boxes.Perm others) :
    Same (boxes.foldl merge empty) (others.foldl merge empty) ∧
    (∀ b ∈ boxes, (boxes.foldl merge empty).merge b = boxes.foldl merge empty) ∧
    ∀ b ∈ boxes, ∀ v, b.contains v = true → (boxes.foldl merge empty).contains v = true := by
  have absorbed : ∀ b ∈ boxes, (boxes.foldl merge empty).merge b = boxes.foldl merge empty :=
    fun b member => merge_eq_left ((bounds_foldl_merge_le boxes empty).2 b member)
  refine ⟨same_of_bounds_eq (bounds_foldl_merge_perm perm empty), absorbed, ?_⟩
  intro b member v inside
  rw [← absorbed b member]
  exact contains_merge_right inside

/-- A box with a positive zero, a NaN and an infinite bound. -/
def ragged : Box := ⟨⟨0, 1⟩, ⟨nan, 2⟩, ⟨-1, infinity⟩⟩

/-- A box with a negative zero and no upper bound along one axis. -/
def frayed : Box := ⟨⟨-0, 0.5⟩, ⟨-2, nan⟩, ⟨-3, 0⟩⟩

/-- The order decides which zero is kept, and nothing else. -/
theorem foldl_merge_perm_ragged_frayed :
    Same ([ragged, frayed, zero].foldl merge empty) ([frayed, ragged, zero].foldl merge empty) ∧
    ([ragged, frayed, zero].foldl merge empty).x.lo.toBits = 0 ∧
    ([frayed, ragged, zero].foldl merge empty).x.lo.toBits = 0x8000000000000000 ∧
    ([ragged, frayed, zero].foldl merge empty).merge frayed =
      [ragged, frayed, zero].foldl merge empty ∧
    ([ragged, frayed, zero].foldl merge empty).contains ⟨0, -0, 0⟩ = true := by
  have swapped : [ragged, frayed, zero].Perm [frayed, ragged, zero] := .swap frayed ragged [zero]
  have atOrigin : zero.contains ⟨0, -0, 0⟩ = true := by decide +kernel
  obtain ⟨same, absorbed, kept⟩ := foldl_merge_perm swapped
  exact ⟨same, by decide +kernel, by decide +kernel, absorbed frayed (by simp),
    kept zero (by simp) _ atOrigin⟩

end Box

end Antimeridian
