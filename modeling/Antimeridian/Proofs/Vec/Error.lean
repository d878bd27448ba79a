import Antimeridian.Proofs.Double.Quotient
import Antimeridian.Proofs.Vec

/-!
# Rounding errors of vectors

How far sums, scalar products and normalized vectors are from those of the real vectors that the
doubles stand for.  The length of a vector has a small relative error, so that a vector which is not
extremely short is divided by about its length.
-/

namespace Antimeridian
open Double

/-! ## Real vectors -/

section

variable {a b c : Fin 3 → ℝ}

/-- A scalar product changes little where one of the vectors does. -/
theorem dotProduct_near {bound error : ℝ} (small : ∀ i, |a i| ≤ bound)
    (near : ∀ i, |b i - c i| ≤ error) : |a ⬝ᵥ b - a ⬝ᵥ c| ≤ 3 * (bound * error) := by
  rw [← dotProduct_sub]
  calc |a ⬝ᵥ (b - c)| ≤ ∑ i, |a i * (b - c) i| := Finset.abs_sum_le_sum_abs _ _
    _ ≤ ∑ _ : Fin 3, bound * error := by
      apply Finset.sum_le_sum
      intro i _
      rw [abs_mul]
      exact mul_le_mul (small i) (near i) (abs_nonneg _) ((abs_nonneg _).trans (small i))
    _ = 3 * (bound * error) := by simp

/-- A scalar product changes little where both vectors do. -/
theorem dotProduct_near_both {d : Fin 3 → ℝ} {bound bound' error : ℝ} (small : ∀ i, |a i| ≤ bound)
    (small' : ∀ i, |d i| ≤ bound') (near : ∀ i, |a i - c i| ≤ error)
    (near' : ∀ i, |b i - d i| ≤ error) :
    |a ⬝ᵥ b - c ⬝ᵥ d| ≤ 3 * (bound * error) + 3 * (bound' * error) := by
  have first := dotProduct_near small near'
  have second := dotProduct_near small' near
  rw [dotProduct_comm d a, dotProduct_comm d c] at second
  linarith [abs_sub_le (a ⬝ᵥ b) (a ⬝ᵥ d) (c ⬝ᵥ d)]

/-- No part of a vector is longer than the vector. -/
theorem sq_le_dotProduct_self (a : Fin 3 → ℝ) (i : Fin 3) : a i ^ 2 ≤ a ⬝ᵥ a := by
  rw [sq]
  exact Finset.single_le_sum (f := fun i => a i * a i) (fun i _ => mul_self_nonneg (a i))
    (Finset.mem_univ i)

theorem abs_le_of_near {bound error : ℝ} (small : ∀ i, |a i| ≤ bound)
    (near : ∀ i, |b i - a i| ≤ error) (i : Fin 3) : |b i| ≤ bound + error := by
  have parts := abs_add_le (b i - a i) (a i)
  rw [sub_add_cancel] at parts
  linarith [small i, near i]

end

namespace Vec3

/-- The exact parts of a vector of finite doubles, in units. -/
def exact (v : Vec3) : Fin 3 → ℤ := ![value v.x, value v.y, value v.z]

/-- The real parts of a vector of finite doubles. -/
noncomputable def real (v : Vec3) : Fin 3 → ℝ :=
  ![Double.real v.x, Double.real v.y, Double.real v.z]

theorem real_eq (v : Vec3) (i : Fin 3) : v.real i = v.exact i / units := by
  fin_cases i <;> rfl

theorem real_dot (v w : Vec3) : v.real ⬝ᵥ w.real = Double.real v.x * Double.real w.x +
    Double.real v.y * Double.real w.y + Double.real v.z * Double.real w.z :=
  Matrix.vec3_dotProduct v.real w.real

theorem real_opposite (v : Vec3) : v.opposite.real = -v.real := by
  funext i
  fin_cases i <;> exact real_neg _

/-- All parts of the vector are finite and of a bounded magnitude. -/
structure Bounded (bound : ℝ) (v : Vec3) : Prop where
  x : Double.Bounded bound v.x
  y : Double.Bounded bound v.y
  z : Double.Bounded bound v.z

section

variable {v w : Vec3}

theorem Within.bounded (within : v.Within 1) : v.Bounded 1 :=
  ⟨within.x.bounded, within.y.bounded, within.z.bounded⟩

theorem Bounded.mono {bound bound' : ℝ} (bounded : v.Bounded bound) (le : bound ≤ bound') :
    v.Bounded bound' :=
  ⟨⟨bounded.x.finite, bounded.x.magnitude.trans le⟩,
    ⟨bounded.y.finite, bounded.y.magnitude.trans le⟩,
    ⟨bounded.z.finite, bounded.z.magnitude.trans le⟩⟩

theorem Bounded.opposite {bound : ℝ} (bounded : v.Bounded bound) : v.opposite.Bounded bound := by
  have part : ∀ {x : Float}, Double.Bounded bound x → Double.Bounded bound (-x) := by
    intro x part
    refine ⟨isFinite_neg part.finite, ?_⟩
    have turned : |Double.real (-x)| = |Double.real x| := by simp [real_neg]
    rw [turned]
    exact part.magnitude
  exact ⟨part bounded.x, part bounded.y, part bounded.z⟩

theorem Bounded.abs_real_le {bound : ℝ} (bounded : v.Bounded bound) (i : Fin 3) :
    |v.real i| ≤ bound := by
  fin_cases i
  · exact bounded.x.magnitude
  · exact bounded.y.magnitude
  · exact bounded.z.magnitude

/-! ## Sums and products -/

/-- A sum of small vectors is close to the real one. -/
theorem add_error (first : v.Bounded 1) (second : w.Bounded 1) : (v.add w).Bounded 3 ∧
    ∀ i, |(v.add w).real i - (v.real + w.real) i| ≤ 1 / 2 ^ 47 := by
  have part : ∀ {x y : Float}, Double.Bounded 1 x → Double.Bounded 1 y →
      Close (x + y) (Double.real x + Double.real y) ∧ Double.Bounded 3 (x + y) := by
    intro x y xBounded yBounded
    have close := close_add xBounded yBounded (by norm_num)
    have parts := abs_add_le (Double.real x) (Double.real y)
    have bound := add_le_add xBounded.magnitude yBounded.magnitude
    exact ⟨close, close.bounded (by norm_num at bound ⊢; linarith)⟩
  obtain ⟨x, xBounded⟩ := part first.x second.x
  obtain ⟨y, yBounded⟩ := part first.y second.y
  obtain ⟨z, zBounded⟩ := part first.z second.z
  refine ⟨⟨xBounded, yBounded, zBounded⟩, fun i => ?_⟩
  fin_cases i
  · exact x.2
  · exact y.2
  · exact z.2

/-- A difference of small vectors is close to the real one. -/
theorem sub_error (first : v.Bounded 1) (second : w.Bounded 1) : (v.sub w).Bounded 3 ∧
    ∀ i, |(v.sub w).real i - (v.real - w.real) i| ≤ 1 / 2 ^ 47 := by
  have turned : v.sub w = v.add w.opposite := by
    simp only [sub, add, opposite, Double.sub_eq_add_neg]
  have turned' : v.real - w.real = v.real + w.opposite.real := by
    rw [real_opposite]
    ring
  rw [turned, turned']
  exact add_error first second.opposite

/-- A scalar product of small vectors is close to the real one. -/
theorem dot_error (first : v.Bounded 3) (second : w.Bounded 3) : (v.dot w).isFinite = true ∧
    |Double.real (v.dot w) - v.real ⬝ᵥ w.real| ≤ 5 / 2 ^ 47 := by
  have product : ∀ {x y : Float}, Double.Bounded 3 x → Double.Bounded 3 y →
      Close (x * y) (Double.real x * Double.real y) ∧ Double.Bounded 10 (x * y) := by
    intro x y xBounded yBounded
    have close := close_mul xBounded yBounded (by norm_num)
    have bound : |Double.real x * Double.real y| ≤ 3 * 3 := by
      rw [abs_mul]
      exact mul_le_mul xBounded.magnitude yBounded.magnitude (abs_nonneg _) (by norm_num)
    exact ⟨close, close.bounded (by norm_num at bound ⊢; linarith)⟩
  obtain ⟨x, xBounded⟩ := product first.x second.x
  obtain ⟨y, yBounded⟩ := product first.y second.y
  obtain ⟨z, zBounded⟩ := product first.z second.z
  have sum := close_add xBounded yBounded (by norm_num)
  have sumBounded : Double.Bounded 21 (v.x * w.x + v.y * w.y) := by
    apply sum.bounded
    have parts := abs_add_le (Double.real (v.x * w.x)) (Double.real (v.y * w.y))
    norm_num at parts ⊢
    linarith [xBounded.magnitude, yBounded.magnitude]
  have total := close_add sumBounded zBounded (by norm_num)
  refine ⟨total.1, ?_⟩
  obtain ⟨xLow, xHigh⟩ := abs_le.1 x.2
  obtain ⟨yLow, yHigh⟩ := abs_le.1 y.2
  obtain ⟨zLow, zHigh⟩ := abs_le.1 z.2
  obtain ⟨sumLow, sumHigh⟩ := abs_le.1 sum.2
  obtain ⟨totalLow, totalHigh⟩ := abs_le.1 total.2
  rw [real_dot, dot, abs_le]
  constructor <;> linarith

/-! ## Lengths -/

/-- The square of a length has a small relative error. -/
theorem dot_self_error (bounded : v.Bounded 3) : (v.dot v).isFinite = true ∧
    |Double.real (v.dot v) - v.real ⬝ᵥ v.real| ≤ v.real ⬝ᵥ v.real / 4 + 1 / 2 ^ 97 ∧
      v.real ⬝ᵥ v.real ≤ 27 := by
  obtain ⟨xFinite, xNear, xMost⟩ := bounded.x.mul_self_error
  obtain ⟨yFinite, yNear, yMost⟩ := bounded.y.mul_self_error
  obtain ⟨zFinite, zNear, zMost⟩ := bounded.z.mul_self_error
  have xSq := sq_nonneg (Double.real v.x)
  have ySq := sq_nonneg (Double.real v.y)
  have zSq := sq_nonneg (Double.real v.z)
  rw [real_dot, ← sq, ← sq, ← sq]
  have two := Double.add_error xFinite yFinite xNear yNear (by
    rw [abs_of_nonneg (by linarith)]
    norm_num
    linarith)
  rw [abs_of_nonneg (by linarith : 0 ≤ Double.real v.x ^ 2 + Double.real v.y ^ 2)] at two
  have three := Double.add_error two.1 zFinite two.2 zNear (by
    rw [abs_of_nonneg (by linarith)]
    norm_num
    linarith)
  rw [abs_of_nonneg
    (by linarith : 0 ≤ Double.real v.x ^ 2 + Double.real v.y ^ 2 + Double.real v.z ^ 2)] at three
  refine ⟨three.1, three.2.trans ?_, by linarith⟩
  norm_num
  linarith

/-- The rounded length of a vector that is not extremely short is between half of the real one and
twice of it. -/
theorem length_error (bounded : v.Bounded 3) (long : 1 / 2 ^ 80 ≤ v.real ⬝ᵥ v.real) :
    (v.dot v).sqrt.isFinite = true ∧ 0 < Double.real (v.dot v).sqrt ∧
      √(v.real ⬝ᵥ v.real) ≤ 2 * Double.real (v.dot v).sqrt ∧
      Double.real (v.dot v).sqrt ≤ 2 * √(v.real ⬝ᵥ v.real) := by
  obtain ⟨finite, near, most⟩ := dot_self_error bounded
  obtain ⟨nearLow, nearHigh⟩ := abs_le.1 near
  have exactLow : 1 / 2 ^ 40 ≤ √(v.real ⬝ᵥ v.real) := by
    apply Real.le_sqrt_of_sq_le
    norm_num at long ⊢
    linarith
  have nonneg : 0 ≤ v.real ⬝ᵥ v.real := by
    norm_num at long
    linarith
  have rootLow : 3 / 4 * √(v.real ⬝ᵥ v.real) ≤ √(Double.real (v.dot v)) := by
    apply Real.le_sqrt_of_sq_le
    rw [mul_pow, Real.sq_sqrt nonneg]
    norm_num at long nearLow ⊢
    linarith
  have rootHigh : √(Double.real (v.dot v)) ≤ 5 / 4 * √(v.real ⬝ᵥ v.real) := by
    rw [Real.sqrt_le_left (by positivity), mul_pow, Real.sq_sqrt nonneg]
    norm_num at long nearHigh ⊢
    linarith
  have positive : 0 < Double.real (v.dot v) := by
    norm_num at long nearLow
    linarith
  have exactHigh : √(v.real ⬝ᵥ v.real) ≤ 6 := by
    rw [Real.sqrt_le_left (by norm_num)]
    linarith
  have root := close_sqrt finite positive (by linarith)
  obtain ⟨lengthLow, lengthHigh⟩ := abs_le.1 root.2
  norm_num at exactLow lengthLow lengthHigh
  exact ⟨root.1, by linarith, by linarith, by linarith⟩

/-- A vector that is not extremely short is divided by about its length. -/
theorem normalize_error (bounded : v.Bounded 3) (long : 1 / 2 ^ 80 ≤ v.real ⬝ᵥ v.real) :
    v.normalize.Bounded 3 ∧ ∃ length : ℝ, 0 < length ∧ length ≤ 2 * √(v.real ⬝ᵥ v.real) ∧
      ∀ i, |v.normalize.real i - (length⁻¹ • v.real) i| ≤ 1 / 2 ^ 47 := by
  obtain ⟨finite, positive, low, high⟩ := length_error bounded long
  have part : ∀ {x : Float}, x.isFinite = true → Double.real x ^ 2 ≤ v.real ⬝ᵥ v.real →
      Close (x / (v.dot v).sqrt) (Double.real x / Double.real (v.dot v).sqrt) ∧
        Double.Bounded 3 (x / (v.dot v).sqrt) := by
    intro x xFinite square
    have two : |Double.real x / Double.real (v.dot v).sqrt| ≤ 2 := by
      rw [abs_div, abs_of_pos positive, div_le_iff₀ positive]
      exact (Real.abs_le_sqrt square).trans low
    have close := close_div xFinite finite positive (by linarith)
    exact ⟨close, close.bounded (by norm_num at two ⊢; linarith)⟩
  have above : 0 < (v.dot v).sqrt := by
    rw [← real_zero] at positive
    exact lt_of_real_lt (by decide +kernel) finite positive
  have normalized : v.normalize = ⟨v.x / (v.dot v).sqrt, v.y / (v.dot v).sqrt,
      v.z / (v.dot v).sqrt⟩ := if_pos above
  obtain ⟨x, xBounded⟩ := part bounded.x.finite (sq_le_dotProduct_self v.real 0)
  obtain ⟨y, yBounded⟩ := part bounded.y.finite (sq_le_dotProduct_self v.real 1)
  obtain ⟨z, zBounded⟩ := part bounded.z.finite (sq_le_dotProduct_self v.real 2)
  rw [normalized]
  refine ⟨⟨xBounded, yBounded, zBounded⟩, _, positive, high, fun i => ?_⟩
  rw [Pi.smul_apply, smul_eq_mul, inv_mul_eq_div]
  fin_cases i
  · exact x.2
  · exact y.2
  · exact z.2

end

end Vec3

end Antimeridian
