import Antimeridian.Proofs.Arc.Enclosure

/-!
# Arcs that touch

Whether two arcs of different great circles touch is decided by the sides of each circle on which
the ends of the other arc lie.  Where these are computed exactly, an end on the other circle lies
on the other arc or diametrically opposite a point of it: the sides cannot tell the two points apart
in which the circles meet.  An end that is clearly between those of the other arc is then found
there by `Arc.locate`.
-/

namespace Antimeridian

/-! ## Exact vectors -/

/-- The scalar product of `c` with the vector product of `a` and `b`, without rounding. -/
def volume (a b c : Fin 3 → ℤ) : ℤ :=
  (a 1 * b 2 - a 2 * b 1) * c 0 + (a 2 * b 0 - a 0 * b 2) * c 1 + (a 0 * b 1 - a 1 * b 0) * c 2

/-- The vector `p` points between `a` and `b`: up to its length it is a sum of multiples of them. -/
def Between (a b p : Fin 3 → ℤ) : Prop :=
  ∃ i j k : ℤ, 0 ≤ i ∧ 0 ≤ j ∧ 0 < k ∧ k • p = i • a + j • b

section

variable {a b p q : Fin 3 → ℤ}

theorem volume_rotate (a b c : Fin 3 → ℤ) : volume b c a = volume a b c := by
  unfold volume
  ring

theorem volume_swap (a b c : Fin 3 → ℤ) : volume b a c = -volume a b c := by
  unfold volume
  ring

theorem volume_smul (k : ℤ) (a c d : Fin 3 → ℤ) : volume (k • a) c d = k * volume a c d := by
  simp only [volume, Pi.smul_apply, smul_eq_mul]
  ring

theorem volume_smul_add (i j : ℤ) (a b c d : Fin 3 → ℤ) :
    volume (i • a + j • b) c d = i * volume a c d + j * volume b c d := by
  simp only [volume, Pi.add_apply, Pi.smul_apply, smul_eq_mul]
  ring

/-- Cramer's rule for `p` in terms of `a`, `b` and `q`. -/
theorem volume_cramer (a b p q : Fin 3 → ℤ) :
    volume a b q • p = volume p b q • a + volume a p q • b + volume a b p • q := by
  funext i
  fin_cases i <;> simp [volume] <;> ring

/-- If `p` lies in the plane of `a` and `b` and `q` does not, and `a` and `b` are not strictly on
one side of the plane of `p` and `q`, then `p` or its opposite points between `a` and `b`. -/
theorem between_or_opposite (on : volume a b p = 0) (off : volume a b q ≠ 0)
    (apart : volume p q a * volume p q b ≤ 0) : Between a b p ∨ Between a b (-p) := by
  have combination := volume_cramer a b p q
  rw [on, zero_smul, add_zero] at combination
  -- the sides of `a` and `b` are the coefficients of `b` and, turned around, of `a`
  rw [volume_rotate a p q, volume_rotate b p q, volume_swap p b q, mul_neg, neg_nonpos,
    mul_comm] at apart
  generalize volume a b q = k at off combination
  generalize volume p b q = i at apart combination
  generalize volume a p q = j at apart combination
  have reversed : -(k • p) = (-i) • a + (-j) • b := by rw [combination, neg_add, neg_smul, neg_smul]
  rcases mul_nonneg_iff.1 apart with ⟨iPos, jPos⟩ | ⟨iNeg, jNeg⟩ <;>
    rcases lt_or_gt_of_ne off with kNeg | kPos
  · exact Or.inr ⟨i, j, -k, iPos, jPos, by omega, by rw [neg_smul_neg, combination]⟩
  · exact Or.inl ⟨i, j, k, iPos, jPos, kPos, combination⟩
  · exact Or.inl ⟨-i, -j, -k, by omega, by omega, by omega, by rw [neg_smul, reversed]⟩
  · exact Or.inr ⟨-i, -j, k, by omega, by omega, kPos, by rw [smul_neg, reversed]⟩

/-- What points between `a` and `b`, or away from there, lies in their plane, and no plane through
it has `a` and `b` strictly on one side. -/
theorem apart_of_between (between : Between a b p ∨ Between a b (-p)) (q : Fin 3 → ℤ) :
    volume a b p = 0 ∧ volume p q a * volume p q b ≤ 0 := by
  obtain ⟨i, j, k, iPos, jPos, off, combination⟩ : ∃ i j k : ℤ, 0 ≤ i ∧ 0 ≤ j ∧ k ≠ 0 ∧
      k • p = i • a + j • b := by
    rcases between with ⟨i, j, k, iPos, jPos, kPos, combination⟩ |
      ⟨i, j, k, iPos, jPos, kPos, combination⟩
    · exact ⟨i, j, k, iPos, jPos, kPos.ne', combination⟩
    · exact ⟨i, j, -k, iPos, jPos, by omega, by rw [neg_smul, ← smul_neg, combination]⟩
  have expand : ∀ c d, k * volume p c d = i * volume a c d + j * volume b c d := by
    intro c d
    rw [← volume_smul, combination, volume_smul_add]
  have plane : k * volume a b p = 0 := by
    rw [volume_rotate p a b, expand]
    unfold volume
    ring
  have first : k * volume p q a = j * volume a b q := by
    rw [expand]
    unfold volume
    ring
  have second : k * volume p q b = -(i * volume a b q) := by
    rw [expand]
    unfold volume
    ring
  refine ⟨(mul_eq_zero.1 plane).resolve_left off, ?_⟩
  have square : 0 < k ^ 2 := by positivity
  refine nonpos_of_mul_nonpos_right ?_ square
  calc k ^ 2 * (volume p q a * volume p q b) = k * volume p q a * (k * volume p q b) := by ring
    _ = -(i * j * volume a b q ^ 2) := by rw [first, second]; ring
    _ ≤ 0 := by
      rw [neg_nonpos]
      positivity

end

namespace Arc

/-! ## Sides -/

/-- The ends of an arc. -/
def ends (arc : Arc) : List Vec3 := [arc.first, arc.last]

/-- An arc that is neither on one side of a circle nor has ends on both sides has an end on it. -/
theorem exists_on_circle {arc : Arc} {normal : Vec3} (several : oneSided (arc.sides normal) = false)
    (missed : straddles (arc.sides normal) = false) :
    ∃ p ∈ arc.ends, Double.sign (normal.dot p) = 0 := by
  simp only [sides, ends, List.mem_cons, List.not_mem_nil, or_false, exists_eq_or_imp,
    exists_eq_left] at several missed ⊢
  rcases Double.sign_cases (normal.dot arc.first) with h | h | h <;>
    rcases Double.sign_cases (normal.dot arc.last) with h' | h' | h' <;>
    simp [oneSided, straddles, h, h'] at several missed ⊢

/-- Arcs of different circles touch if neither is on one side of the other's circle and not both
have ends on both sides. -/
theorem meet_eq_touching_iff {v u : Arc} (circles : sameCircle v.normal u.normal = false) :
    v.meet u = .touching ↔ oneSided (v.sides u.normal) = false ∧
      oneSided (u.sides v.normal) = false ∧
      (straddles (v.sides u.normal) && straddles (u.sides v.normal)) = false := by
  simp only [meet, circles, Bool.false_eq_true, if_false]
  cases oneSided (v.sides u.normal) <;> cases oneSided (u.sides v.normal) <;>
    cases straddles (v.sides u.normal) <;> cases straddles (u.sides v.normal) <;> simp
  split <;> simp

/-- Arcs of one circle touch if an end of one coincides with an end of the other. -/
theorem exists_endpoint_of_meetAlong {v u : Arc} (touching : meetAlong v u = .touching) :
    (∃ p ∈ u.ends, v.locate p = .endpoint) ∨ ∃ p ∈ v.ends, u.locate p = .endpoint := by
  unfold meetAlong at touching
  dsimp only at touching
  split at touching
  · rename_i found
    have member := List.mem_of_find?_eq_some found
    simpa [ends, or_assoc, eq_comm] using member
  · cases touching
  · cases touching

/-! ## Touching -/

/-- The point, given by an exact vector, lies on the arc. -/
def Bears (arc : Arc) (p : Fin 3 → ℤ) : Prop := Between arc.first.exact arc.last.exact p

/-- An end of the first arc lies on the second. -/
def EndsOn (v u : Arc) : Prop := ∃ p ∈ v.ends, u.Bears p.exact

/-- The diameter of the sphere through an end of the first arc meets the second: the end lies there,
or diametrically opposite a point of it. -/
def EndsOnDiameter (v u : Arc) : Prop := ∃ p ∈ v.ends, u.Bears p.exact ∨ u.Bears (-p.exact)

/-- All four ends lie strictly on one side of a plane through the centre of the sphere. -/
def ShareHemisphere (v u : Arc) : Prop :=
  ∃ h : Fin 3 → ℤ, ∀ p ∈ v.ends ++ u.ends, 0 < h ⬝ᵥ p.exact

/-- The sides of the great circle of another arc on which the ends lie, without rounding. -/
def exactSides (arc other : Arc) : Int × Int :=
  ((volume other.first.exact other.last.exact arc.first.exact).sign,
    (volume other.first.exact other.last.exact arc.last.exact).sign)

/-- Positive if the ends lie on one side of the great circle of another arc, negative if they lie on
both sides, and zero if one lies on it. -/
def sideProduct (arc other : Arc) : ℤ :=
  volume other.first.exact other.last.exact arc.first.exact *
    volume other.first.exact other.last.exact arc.last.exact

/-- What the signs of two numbers tell about the sign of their product. -/
theorem sides_sign (x y : ℤ) : (oneSided (x.sign, y.sign) = false ↔ x * y ≤ 0) ∧
    (straddles (x.sign, y.sign) = false ↔ 0 ≤ x * y) := by
  rw [← Int.sign_nonpos_iff, ← Int.sign_nonneg_iff, Int.sign_mul]
  rcases Int.sign_trichotomy x with h | h | h <;> rcases Int.sign_trichotomy y with h' | h' | h' <;>
    rw [h, h'] <;> decide

theorem oneSided_exactSides (arc other : Arc) :
    oneSided (arc.exactSides other) = false ↔ arc.sideProduct other ≤ 0 := (sides_sign _ _).1

theorem straddles_exactSides (arc other : Arc) :
    straddles (arc.exactSides other) = false ↔ 0 ≤ arc.sideProduct other := (sides_sign _ _).2

section

variable {v u : Arc}

/-- If an end lies on the great circle of the other arc, and the ends of that arc are not strictly
on one side, then the diameter through it meets the other arc. -/
theorem endsOnDiameter_of_sideProduct (off : v.exactSides u ≠ (0, 0))
    (touched : v.sideProduct u = 0) (apart : u.sideProduct v ≤ 0) : v.EndsOnDiameter u := by
  simp only [exactSides, ne_eq, Prod.mk.injEq, Int.sign_eq_zero_iff_zero, not_and] at off
  unfold sideProduct at apart
  rcases mul_eq_zero.1 touched with first | last
  · exact ⟨v.first, by simp [ends], between_or_opposite first (off first) apart⟩
  · refine ⟨v.last, by simp [ends], between_or_opposite (q := v.first.exact) last ?_ ?_⟩
    · exact fun first => off first last
    · rwa [volume_swap, volume_swap v.first.exact, neg_mul_neg]

/-- An end on the diameter of the other arc lies on its great circle, and its own arc does not pass
by on one side. -/
theorem sideProduct_of_endsOnDiameter (on : v.EndsOnDiameter u) :
    v.sideProduct u = 0 ∧ u.sideProduct v ≤ 0 := by
  obtain ⟨p, member, between⟩ := on
  unfold sideProduct
  simp only [ends, List.mem_cons, List.not_mem_nil, or_false] at member
  rcases member with rfl | rfl
  · obtain ⟨plane, apart⟩ := apart_of_between between v.last.exact
    exact ⟨by rw [plane, zero_mul], apart⟩
  · obtain ⟨plane, apart⟩ := apart_of_between between v.first.exact
    rw [volume_swap, volume_swap v.first.exact, neg_mul_neg] at apart
    exact ⟨by rw [plane, mul_zero], apart⟩

/-- In one hemisphere nothing lies opposite an arc. -/
theorem ShareHemisphere.endsOn_iff (share : ShareHemisphere v u) :
    v.EndsOnDiameter u ↔ v.EndsOn u := by
  obtain ⟨h, above⟩ := share
  constructor
  · rintro ⟨p, member, on | ⟨i, j, k, iPos, jPos, kPos, combination⟩⟩
    · exact ⟨p, member, on⟩
    · have heights := congrArg (h ⬝ᵥ ·) combination
      simp only [dotProduct_smul, dotProduct_neg, dotProduct_add, smul_eq_mul] at heights
      have opposite := mul_pos kPos (above p (List.mem_append_left _ member))
      have first := mul_nonneg iPos (above u.first (by simp [ends])).le
      have last := mul_nonneg jPos (above u.last (by simp [ends])).le
      linarith
  · rintro ⟨p, member, on⟩
    exact ⟨p, member, Or.inl on⟩

theorem ShareHemisphere.symm (share : ShareHemisphere v u) : ShareHemisphere u v := by
  obtain ⟨h, above⟩ := share
  exact ⟨h, fun p member => above p (List.mem_append.2 (List.mem_append.1 member).symm)⟩

/-- The arcs have different great circles, neither lies on that of the other, and rounding does not
change the sides on which the ends lie. -/
structure Resolved (v u : Arc) : Prop where
  circles : sameCircle v.normal u.normal = false
  first : v.sides u.normal = v.exactSides u
  second : u.sides v.normal = u.exactSides v
  firstOff : v.exactSides u ≠ (0, 0)
  secondOff : u.exactSides v ≠ (0, 0)

/-- Where the sides are exact, arcs touch if an end of one lies on the other or opposite it. -/
theorem Resolved.meet_eq_touching_iff (resolved : Resolved v u) :
    v.meet u = .touching ↔ v.EndsOnDiameter u ∨ u.EndsOnDiameter v := by
  rw [Arc.meet_eq_touching_iff resolved.circles, resolved.first, resolved.second,
    Bool.and_eq_false_iff, oneSided_exactSides, oneSided_exactSides, straddles_exactSides,
    straddles_exactSides]
  constructor
  · rintro ⟨first, second, touched | touched⟩
    · left
      exact endsOnDiameter_of_sideProduct resolved.firstOff (le_antisymm first touched) second
    · right
      exact endsOnDiameter_of_sideProduct resolved.secondOff (le_antisymm second touched) first
  · rintro (on | on)
    · obtain ⟨touched, apart⟩ := sideProduct_of_endsOnDiameter on
      exact ⟨touched.le, apart, Or.inl touched.ge⟩
    · obtain ⟨touched, apart⟩ := sideProduct_of_endsOnDiameter on
      exact ⟨apart, touched.le, Or.inr touched.ge⟩

/-- Arcs are found to touch only where an end coincides with an end, or lies on the other circle as
far as rounding can tell. -/
theorem exists_end_of_touching (touching : v.meet u = .touching) :
    (∃ p ∈ u.ends, v.locate p = .endpoint ∨ Double.sign (v.normal.dot p) = 0) ∨
      ∃ p ∈ v.ends, u.locate p = .endpoint ∨ Double.sign (u.normal.dot p) = 0 := by
  cases circles : sameCircle v.normal u.normal with
  | true =>
    rw [meet, if_pos circles] at touching
    rcases exists_endpoint_of_meetAlong touching with ⟨p, member, coincides⟩ |
      ⟨p, member, coincides⟩
    · exact Or.inl ⟨p, member, Or.inl coincides⟩
    · exact Or.inr ⟨p, member, Or.inl coincides⟩
  | false =>
    obtain ⟨first, second, missed⟩ := (Arc.meet_eq_touching_iff circles).1 touching
    rcases Bool.and_eq_false_iff.1 missed with firstMissed | secondMissed
    · obtain ⟨p, member, zero⟩ := exists_on_circle first firstMissed
      exact Or.inr ⟨p, member, Or.inr zero⟩
    · obtain ⟨p, member, zero⟩ := exists_on_circle second secondMissed
      exact Or.inl ⟨p, member, Or.inr zero⟩

end

/-- The point coincides with an end of the arc or is clearly between them. -/
def Catches (arc : Arc) (p : Vec3) : Prop :=
  p.almostEqual arc.first = true ∨ p.almostEqual arc.last = true ∨ arc.Surrounds p

theorem Catches.locate_ne {arc : Arc} {p : Vec3} (catches : arc.Catches p) :
    arc.locate p ≠ .outside := by
  unfold locate
  rcases catches with first | last | surrounds
  · simp [first]
  · simp [last]
  · rw [surrounds.encloses]
    split <;> simp

/-- If every end on the other circle is caught by the other arc, one of the ends of arcs that touch
is found on the other. -/
theorem exists_located_of_touching {v u : Arc} (touching : v.meet u = .touching)
    (second : ∀ p ∈ u.ends, Double.sign (v.normal.dot p) = 0 → v.Catches p)
    (first : ∀ p ∈ v.ends, Double.sign (u.normal.dot p) = 0 → u.Catches p) :
    (∃ p ∈ u.ends, v.locate p ≠ .outside) ∨ ∃ p ∈ v.ends, u.locate p ≠ .outside := by
  rcases exists_end_of_touching touching with ⟨p, member, coincides | zero⟩ |
    ⟨p, member, coincides | zero⟩
  · exact Or.inl ⟨p, member, by simp [coincides]⟩
  · exact Or.inl ⟨p, member, (second p member zero).locate_ne⟩
  · exact Or.inr ⟨p, member, by simp [coincides]⟩
  · exact Or.inr ⟨p, member, (first p member zero).locate_ne⟩

/-- If arcs are found to touch, an end of one coincides with an end of the other or lies on its
great circle.  Where the sides of the circles are computed exactly, arcs are found to touch just if
an end of one lies on the other or diametrically opposite a point of it, and in one hemisphere just
if an end of one lies on the other.  If all ends that lie on the other circle, as far as rounding
can tell, are caught by the other arc, then `locate` finds one of the ends of touching arcs there. -/
theorem meet_touching (v u : Arc) :
    (v.meet u = .touching →
      (∃ p ∈ u.ends, v.locate p = .endpoint ∨ Double.sign (v.normal.dot p) = 0) ∨
        ∃ p ∈ v.ends, u.locate p = .endpoint ∨ Double.sign (u.normal.dot p) = 0) ∧
    (Resolved v u → (v.meet u = .touching ↔ v.EndsOnDiameter u ∨ u.EndsOnDiameter v)) ∧
    (Resolved v u → ShareHemisphere v u → (v.meet u = .touching ↔ v.EndsOn u ∨ u.EndsOn v)) ∧
    (v.meet u = .touching →
      (∀ p ∈ u.ends, Double.sign (v.normal.dot p) = 0 → v.Catches p) →
      (∀ p ∈ v.ends, Double.sign (u.normal.dot p) = 0 → u.Catches p) →
      (∃ p ∈ u.ends, v.locate p ≠ .outside) ∨ ∃ p ∈ v.ends, u.locate p ≠ .outside) := by
  refine ⟨exists_end_of_touching, Resolved.meet_eq_touching_iff, fun resolved share => ?_,
    exists_located_of_touching⟩
  rw [resolved.meet_eq_touching_iff, share.endsOn_iff, share.symm.endsOn_iff]

/-- The ends have length one and are neither almost equal nor almost opposite. -/
structure Proper (arc : Arc) : Prop where
  first : (arc.first.dot arc.first == 1) = true
  last : (arc.last.dot arc.last == 1) = true
  distinct : arc.first.almostEqual arc.last = false
  opposed : arc.first.almostEqual (arc.last.scale (-1)) = false

/-- A quarter of a meridian, up to the north pole. -/
def quarter : Arc := ⟨⟨1, 0, 0⟩, ⟨0, 0, 1⟩⟩

/-- An arc of the equator on the other side of the sphere, opposite the first end of `quarter`. -/
def farSide : Arc := ⟨⟨-0.6, 0.8, 0⟩, ⟨-0.6, -0.8, 0⟩⟩

/-- The arc opposite `farSide`, through the first end of `quarter`. -/
def nearSide : Arc := ⟨⟨0.6, 0.8, 0⟩, ⟨0.6, -0.8, 0⟩⟩

/-- A quarter of a meridian touches the arc through its end, which is found on that arc, and the arc
opposite to it. -/
theorem meet_touching_quarter :
    (quarter.EndsOnDiameter farSide ∨ farSide.EndsOnDiameter quarter) ∧
      (quarter.EndsOn nearSide ∨ nearSide.EndsOn quarter) ∧
      ((∃ p ∈ nearSide.ends, quarter.locate p ≠ .outside) ∨
        ∃ p ∈ quarter.ends, nearSide.locate p ≠ .outside) := by
  have far : Resolved quarter farSide :=
    ⟨by decide +kernel, by decide +kernel, by decide +kernel, by decide +kernel, by decide +kernel⟩
  have near : Resolved quarter nearSide :=
    ⟨by decide +kernel, by decide +kernel, by decide +kernel, by decide +kernel, by decide +kernel⟩
  have share : ShareHemisphere quarter nearSide := ⟨![1, 0, 1], by decide +kernel⟩
  have farTouching : quarter.meet farSide = .touching := by decide +kernel
  have nearTouching : quarter.meet nearSide = .touching := by decide +kernel
  have long : shortness < (1 - nearSide.reaches.1).abs := by decide +kernel
  have clear : nearSide.NearsMiddle quarter.first := by decide +kernel
  have surrounds : nearSide.Surrounds quarter.first :=
    ⟨⟨by decide +kernel, by decide +kernel, by decide +kernel⟩,
      ⟨by decide +kernel, by decide +kernel, by decide +kernel⟩,
      ⟨by decide +kernel, by decide +kernel, by decide +kernel⟩, by rwa [if_pos long]⟩
  have nearOff : ∀ p ∈ nearSide.ends, Double.sign (quarter.normal.dot p) ≠ 0 := by decide +kernel
  have lastOff : Double.sign (nearSide.normal.dot quarter.last) ≠ 0 := by decide +kernel
  refine ⟨((meet_touching quarter farSide).2.1 far).1 farTouching,
    ((meet_touching quarter nearSide).2.2.1 near share).1 nearTouching,
    (meet_touching quarter nearSide).2.2.2 nearTouching
      (fun p member zero => absurd zero (nearOff p member)) ?_⟩
  simp only [ends, List.forall_mem_cons]
  exact ⟨fun _ => Or.inr (Or.inr surrounds), fun zero => absurd zero lastOff, by simp⟩

/-- Arcs on opposite sides of the sphere are found to touch, and no end lies on the other arc. -/
theorem farSide_touching : Proper quarter ∧ Proper farSide ∧ quarter.meet farSide = .touching ∧
    (∀ p ∈ farSide.ends, quarter.locate p = .outside) ∧
    ∀ p ∈ quarter.ends, farSide.locate p = .outside := by
  refine ⟨⟨?_, ?_, ?_, ?_⟩, ⟨?_, ?_, ?_, ?_⟩, ?_, ?_, ?_⟩ <;> decide +kernel

end Arc

end Antimeridian
