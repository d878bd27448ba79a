import Antimeridian.Proofs.Double.Opposite

/-!
# Vectors up to the sign of zeros

No test of a vector tells the zeros of different signs apart.  Up to them, the vector product turns
around with its factors, and what is computed from the opposite of a vector is the opposite of what
is computed from the vector.
-/

namespace Antimeridian.Vec3
open Double

/-- The vectors have the same parts, up to the sign of a zero. -/
structure Same (v w : Vec3) : Prop where
  x : number v.x = number w.x
  y : number v.y = number w.y
  z : number v.z = number w.z

/-- The vector in the opposite direction. -/
def opposite (v : Vec3) : Vec3 := ⟨-v.x, -v.y, -v.z⟩

section

variable {v v' w w' : Vec3}

theorem Same.symm (same : Same v w) : Same w v := ⟨same.x.symm, same.y.symm, same.z.symm⟩

theorem Same.trans (first : Same v v') (second : Same v' w) : Same v w :=
  ⟨first.x.trans second.x, first.y.trans second.y, first.z.trans second.z⟩

theorem Same.opposite (same : Same v w) : Same v.opposite w.opposite := by
  constructor <;> simp only [Vec3.opposite, number_neg, same.x, same.y, same.z]

/-- Scalar products do not see the signs of zeros. -/
theorem Same.dot (left : Same v v') (right : Same w w') :
    number (v.dot w) = number (v'.dot w') := by
  simp only [Vec3.dot, number_add, number_mul, left.x, left.y, left.z, right.x, right.y, right.z]

theorem Same.cross (left : Same v v') (right : Same w w') : Same (v.cross w) (v'.cross w') := by
  constructor <;> simp only [Vec3.cross, Double.sub_eq_add_neg, number_add, number_neg, number_mul,
    left.x, left.y, left.z, right.x, right.y, right.z]

theorem Same.sub (left : Same v v') (right : Same w w') : Same (v.sub w) (v'.sub w') := by
  constructor <;> simp only [Vec3.sub, Double.sub_eq_add_neg, number_add, number_neg, left.x,
    left.y, left.z, right.x, right.y, right.z]

/-- Vectors of the same length are divided by the same number. -/
theorem normalize_cases (lengths : number (v.dot v) = number (w.dot w)) :
    (∃ l, v.normalize = ⟨v.x / l, v.y / l, v.z / l⟩ ∧ w.normalize = ⟨w.x / l, w.y / l, w.z / l⟩) ∨
      v.normalize = zero ∧ w.normalize = zero := by
  have roots : number (v.dot v).sqrt = number (w.dot w).sqrt := by
    rw [number_sqrt, number_sqrt, lengths]
  simp only [Vec3.normalize]
  by_cases positive : 0 < (v.dot v).sqrt
  · rw [← eq_of_number_eq roots positive, if_pos positive, if_pos positive]
    exact Or.inl ⟨_, rfl, rfl⟩
  · rw [if_neg positive, if_neg (mt (lt_congr rfl roots).2 positive)]
    exact Or.inr ⟨rfl, rfl⟩

theorem Same.normalize (same : Same v w) : Same v.normalize w.normalize := by
  rcases normalize_cases (same.dot same) with ⟨l, first, second⟩ | ⟨first, second⟩ <;>
    rw [first, second]
  · constructor <;> simp only [number_div, same.x, same.y, same.z]
  · exact ⟨rfl, rfl, rfl⟩

theorem Same.almostEqual (left : Same v v') (right : Same w w') :
    v.almostEqual w = v'.almostEqual w' := by
  have parts : ∀ {x x' y y' : Float}, number x = number x' → number y = number y' →
      Double.almostEqual x y = Double.almostEqual x' y' := by
    intro x x' y y' first second
    have distance : number (x - y) = number (x' - y') := by
      simp only [Double.sub_eq_add_neg, number_add, number_neg, first, second]
    rw [Double.almostEqual, beq_congr first second, abs_congr distance, Double.almostEqual]
  rw [Vec3.almostEqual, parts left.x right.x, parts left.y right.y, parts left.z right.z,
    Vec3.almostEqual]

end

/-! ## Opposite vectors -/

theorem dot_comm (v w : Vec3) : v.dot w = w.dot v := by
  simp only [Vec3.dot, Double.mul_comm]

theorem add_comm (v w : Vec3) : v.add w = w.add v := by
  simp only [Vec3.add, Double.add_comm]

/-- Turning a vector around turns the scalar product around, with rounding. -/
theorem number_opposite_dot (v w : Vec3) :
    number (v.opposite.dot w) = Double.opposite (number (v.dot w)) := by
  simp [Vec3.dot, opposite]

theorem number_dot_opposite (v w : Vec3) :
    number (v.dot w.opposite) = Double.opposite (number (v.dot w)) := by
  simp [Vec3.dot, opposite]

/-- The vector product the other way around is the opposite vector, with rounding. -/
theorem cross_swap (v w : Vec3) : Same (w.cross v) (v.cross w).opposite := by
  constructor <;>
    simp only [Vec3.cross, opposite, number_neg, Double.mul_comm w.x, Double.mul_comm w.y,
      Double.mul_comm w.z, ← number_sub_swap]

theorem cross_opposite (v w : Vec3) : Same (v.cross w.opposite) (v.cross w).opposite := by
  constructor <;> simp [Vec3.cross, opposite, Double.sub_eq_add_neg]

theorem normalize_opposite (v : Vec3) : Same v.opposite.normalize v.normalize.opposite := by
  have lengths : number (v.opposite.dot v.opposite) = number (v.dot v) := by
    rw [number_opposite_dot, number_dot_opposite, opposite_opposite_number]
  rcases normalize_cases lengths with ⟨l, first, second⟩ | ⟨first, second⟩ <;> rw [first, second]
  · constructor <;> simp [opposite]
  · exact ⟨rfl, rfl, rfl⟩

theorem scale_neg_one (v : Vec3) : Same (v.scale (-1)) v.opposite := by
  have turned : ∀ x : Float, number (x * -1) = number (-x) := by
    intro x
    rw [number_mul, number_neg, settle_mul_opposite, ← number_mul, number_mul_one, number_neg]
  exact ⟨turned _, turned _, turned _⟩

end Antimeridian.Vec3
