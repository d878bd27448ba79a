import Antimeridian.Angle
import Antimeridian.Proofs.Double.Packing

/-!
# Laws of the numeric comparisons

All numeric comparisons of doubles go through one comparison of their parts, which has no answer
next to a NaN.  It turns around when its arguments are exchanged or negated.
-/

namespace Antimeridian.Double
open Float.Model (UnpackedFloat)
open Float.Model.UnpackedFloat

theorem lt_iff {x y : Float} : x < y ↔ (view x).compare (view y) = some .lt := by
  change decide ((view x).lt (view y) = true) = true ↔ _
  rw [decide_eq_true_iff]
  exact beq_iff_eq

theorem le_iff {x y : Float} : x ≤ y ↔
    (view x).compare (view y) = some .lt ∨ (view x).compare (view y) = some .eq := by
  change decide ((view x).le (view y) = true) = true ↔ _
  rw [decide_eq_true_iff, UnpackedFloat.le]
  cases (view x).compare (view y) with
  | none => simp
  | some order => cases order <;> simp

/-! ## The comparison of the parts -/

theorem compare_sign_swap (s t : Sign) : compare t s = (compare s t).swap := by
  cases s <;> cases t <;> rfl

theorem compare_then_swap (e f : Int) (m n : Nat) :
    (compare f e).then (compare n m) = ((compare e f).then (compare m n)).swap := by
  have exponents : compare f e = (compare e f).swap := Std.OrientedOrd.eq_swap
  have mantissas : compare n m = (compare m n).swap := Std.OrientedOrd.eq_swap
  rw [Ordering.swap_then, exponents, mantissas]

/-- Comparing the other way around turns the outcome around. -/
theorem compare_swap (u v : UnpackedFloat) : v.compare u = (u.compare v).map Ordering.swap := by
  cases u with
  | notANumber => cases v <;> rfl
  | infinity s =>
    cases v with
    | infinity t => simp [UnpackedFloat.compare, compare_sign_swap s t]
    | _ => cases s <;> rfl
  | zero s =>
    cases v with
    | infinity t => cases t <;> rfl
    | finite t _ _ _ => cases t <;> rfl
    | _ => rfl
  | finite s m e _ =>
    cases v with
    | infinity t => cases s <;> cases t <;> rfl
    | finite t n f _ =>
      cases s <;> cases t <;> simp [UnpackedFloat.compare, compare_then_swap e f m n]
    | _ => cases s <;> rfl

theorem compare_neg (u v : UnpackedFloat) : u.neg.compare v.neg = v.compare u := by
  cases u with
  | notANumber => cases v <;> rfl
  | infinity s =>
    cases v with
    | infinity t => cases s <;> cases t <;> rfl
    | zero _ => cases s <;> rfl
    | finite t _ _ _ => cases s <;> cases t <;> rfl
    | notANumber => cases s <;> rfl
  | zero s =>
    cases v with
    | infinity t => cases t <;> rfl
    | finite t _ _ _ => cases t <;> rfl
    | _ => rfl
  | finite s m e _ =>
    cases v with
    | infinity t => cases s <;> cases t <;> rfl
    | finite t n f _ =>
      cases s <;> cases t <;>
        simp [UnpackedFloat.compare, UnpackedFloat.neg, compare_then_swap e f m n]
    | _ => cases s <;> rfl

/-! ## Signs and distances -/

theorem view_zero : view 0 = .zero .positive := by rfl

/-- A number without a sign is a zero or a NaN. -/
theorem view_of_sign_eq_zero {x : Float} (unsigned : sign x = 0) :
    view x = .notANumber ∨ ∃ s, view x = .zero s := by
  have notBelow : ¬x < 0 := by
    intro below
    simp [sign, below] at unsigned
  have notAbove : ¬0 < x := by
    intro above
    simp [sign, notBelow, above] at unsigned
  rw [lt_iff, view_zero] at notBelow notAbove
  cases parts : view x with
  | notANumber => exact Or.inl rfl
  | zero s => exact Or.inr ⟨s, rfl⟩
  | infinity s => cases s <;> simp [parts, UnpackedFloat.compare] at notBelow notAbove
  | finite s _ _ _ => cases s <;> simp [parts, UnpackedFloat.compare] at notBelow notAbove

/-- A double is negative, zero or positive; a NaN counts as zero. -/
theorem sign_cases (x : Float) : sign x = -1 ∨ sign x = 0 ∨ sign x = 1 := by
  unfold sign
  split
  · exact Or.inl rfl
  · split
    · exact Or.inr (Or.inr rfl)
    · exact Or.inr (Or.inl rfl)

theorem view_sub {x y : Float} (canonical : Canonical (sub .binary64 (view x) (view y))) :
    view (x - y) = sub .binary64 (view x) (view y) := view_ofModel_pack canonical

/-- A difference from zero only changes the sign. -/
theorem zero_sub (s : Sign) {u : UnpackedFloat} (canonical : Canonical u) :
    Canonical (sub .binary64 (.zero s) u) ∧ (sub .binary64 (.zero s) u).abs = u.abs := by
  cases u with
  | zero t => cases s <;> cases t <;> exact ⟨trivial, rfl⟩
  | infinity t => exact ⟨trivial, rfl⟩
  | notANumber => exact ⟨trivial, rfl⟩
  | finite t m e positive => exact ⟨canonical, rfl⟩

theorem sub_zero (s : Sign) {u : UnpackedFloat} (canonical : Canonical u) :
    Canonical (sub .binary64 u (.zero s)) ∧ (sub .binary64 u (.zero s)).abs = u.abs := by
  cases u with
  | zero t => cases s <;> cases t <;> exact ⟨trivial, rfl⟩
  | infinity t => exact ⟨trivial, rfl⟩
  | notANumber => exact ⟨trivial, rfl⟩
  | finite t m e positive => exact ⟨canonical, rfl⟩

theorem sub_notANumber (u : UnpackedFloat) : sub .binary64 u .notANumber = .notANumber := by
  cases u <;> rfl

/-- The distance between a number without a sign and another one is the magnitude of the other, or
no number. -/
theorem view_abs_sub_of_sign_eq_zero {x y : Float} (unsigned : sign x = 0) :
    (view (x - y).abs = (view y).abs ∨ view (x - y).abs = .notANumber) ∧
      (view (y - x).abs = (view y).abs ∨ view (y - x).abs = .notANumber) := by
  rw [view_abs, view_abs]
  rcases view_of_sign_eq_zero unsigned with none | ⟨s, zero⟩
  · rw [view_sub (by rw [none]; trivial), view_sub (by rw [none, sub_notANumber]; trivial), none,
      sub_notANumber]
    exact ⟨Or.inr rfl, Or.inr rfl⟩
  · obtain ⟨left, leftAbs⟩ := zero_sub s (canonical_view y)
    obtain ⟨right, rightAbs⟩ := sub_zero s (canonical_view y)
    rw [view_sub (by rwa [zero]), view_sub (by rwa [zero]), zero]
    exact ⟨Or.inl leftAbs, Or.inl rightAbs⟩

theorem neg_neg (u : UnpackedFloat) : u.neg.neg = u := by
  cases u with
  | notANumber => rfl
  | infinity s => cases s <;> rfl
  | zero s => cases s <;> rfl
  | finite s _ _ _ => cases s <;> rfl

theorem abs_eq_self_or_neg (u : UnpackedFloat) : u.abs = u ∨ u.abs = u.neg := by
  cases u with
  | notANumber => exact Or.inl rfl
  | infinity s | zero s | finite s _ _ _ =>
    cases s with
    | negative => exact Or.inr rfl
    | positive => exact Or.inl rfl

theorem compare_ne_lt_of_le {u v : UnpackedFloat}
    (le : u.compare v = some .lt ∨ u.compare v = some .eq) : v.compare u ≠ some .lt := by
  rw [compare_swap]
  rcases le with less | equal
  · rw [less]; decide
  · rw [equal]; decide

/-- A number between `-r` and `r` has no magnitude above `r`. -/
theorem compare_abs_ne_lt {x r : Float} (above : -r ≤ x) (below : x ≤ r) :
    (view r).compare (view x).abs ≠ some .lt := by
  rw [le_iff] at above below
  rw [view_neg, ← neg_neg (view x), compare_neg] at above
  rcases abs_eq_self_or_neg (view x) with same | negated
  · rw [same]
    exact compare_ne_lt_of_le below
  · rw [negated]
    exact compare_ne_lt_of_le above

/-- A number between `-r` and `r` is no further than `r` from a number without a sign. -/
theorem not_lt_abs_sub {x y r : Float} (unsigned : sign x = 0) (above : -r ≤ y) (below : y ≤ r) :
    ¬r < (x - y).abs ∧ ¬r < (y - x).abs := by
  have magnitude := compare_abs_ne_lt above below
  have absent : (view r).compare .notANumber ≠ some .lt := by
    cases view r <;> simp [UnpackedFloat.compare]
  obtain ⟨left, right⟩ := @view_abs_sub_of_sign_eq_zero x y unsigned
  rw [lt_iff, lt_iff]
  constructor
  · rcases left with h | h <;> rwa [h]
  · rcases right with h | h <;> rwa [h]

end Antimeridian.Double
