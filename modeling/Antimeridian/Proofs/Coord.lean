import Antimeridian.Crossing
import Antimeridian.Proofs.Double.Comparison

/-!
# Coordinates up to numeric equality

`Coord.same` is symmetric and transitive.  Two edges with ends in one hemisphere or on the prime
meridian do not cross the antimeridian.
-/

namespace Antimeridian
namespace Coord

theorem same_iff {a b : Coord} : a.same b = true ↔ (a.lat == b.lat) = true ∧ (a.lng == b.lng) = true :=
  Bool.and_eq_true_iff

theorem same_symm {a b : Coord} (equal : a.same b = true) : b.same a = true := by
  rw [same_iff] at equal ⊢
  exact ⟨BEq.symm equal.1, BEq.symm equal.2⟩

/-- Equal coordinates may be chained, also through zeros of different sign. -/
theorem same_trans {a b c : Coord} (first : a.same b = true) (second : b.same c = true) :
    a.same c = true := by
  rw [same_iff] at first second ⊢
  exact ⟨BEq.trans first.1 second.1, BEq.trans first.2 second.2⟩

theorem hemisphere_cases (c : Coord) :
    c.hemisphere = -1 ∨ c.hemisphere = 0 ∨ c.hemisphere = 1 := Double.sign_cases c.lng

/-- The longitude is at most half a turn from the prime meridian. -/
def OnMap (c : Coord) : Prop := -Angle.pi ≤ c.lng ∧ c.lng ≤ Angle.pi

instance (c : Coord) : Decidable c.OnMap := inferInstanceAs (Decidable (_ ∧ _))

/-- A finite coordinate whose longitude is above minus half a turn and at most half a turn. -/
def Proper (c : Coord) : Prop :=
  c.lat.isFinite = true ∧ c.lng.isFinite = true ∧ -Angle.pi < c.lng ∧ c.lng ≤ Angle.pi

instance (c : Coord) : Decidable c.Proper := inferInstanceAs (Decidable (_ ∧ _ ∧ _ ∧ _))

/-- A coordinate of the hemisphere `side` or of the prime meridian. -/
def LiesIn (side : Int) (c : Coord) : Prop := c.hemisphere = 0 ∨ c.hemisphere = side

end Coord

/-- The ends of an edge across the antimeridian lie in opposite hemispheres. -/
theorem hemispheres_of_crosses {a b : Coord} (across : crosses a b = true) (aMap : a.OnMap)
    (bMap : b.OnMap) : a.hemisphere ≠ 0 ∧ b.hemisphere ≠ 0 ∧ a.hemisphere ≠ b.hemisphere := by
  unfold crosses at across
  rw [Bool.and_eq_true, decide_eq_true_iff, decide_eq_true_iff] at across
  obtain ⟨differ, far⟩ := across
  refine ⟨?_, ?_, differ⟩
  · intro zero
    exact (Double.not_lt_abs_sub zero bMap.1 bMap.2).1 far
  · intro zero
    exact (Double.not_lt_abs_sub zero aMap.1 aMap.2).2 far

/-- An edge within a hemisphere does not cross the antimeridian. -/
theorem crosses_eq_false_of_liesIn {side : Int} {a b : Coord} (aIn : a.LiesIn side)
    (bIn : b.LiesIn side) (aMap : a.OnMap) (bMap : b.OnMap) : crosses a b = false := by
  rw [← Bool.not_eq_true]
  intro across
  obtain ⟨aOff, bOff, differ⟩ := hemispheres_of_crosses across aMap bMap
  exact differ ((aIn.resolve_left aOff).trans (bIn.resolve_left bOff).symm)

namespace Ring

/-- Every vertex of a ring begins one edge. -/
theorem edges_map_fst (ring : Ring) : ring.edges.map Prod.fst = ring := by
  cases ring with
  | nil => rfl
  | cons first rest => exact List.map_fst_zip (by simp)

/-- The edges of a ring join vertices of the ring. -/
theorem mem_of_mem_edges {ring : Ring} {e : Coord × Coord} (member : e ∈ ring.edges) :
    e.1 ∈ ring ∧ e.2 ∈ ring := by
  cases ring with
  | nil => cases member
  | cons a rest =>
    have pair := List.of_mem_zip (show (e.1, e.2) ∈ _ from member)
    refine ⟨pair.1, ?_⟩
    rcases List.mem_append.1 pair.2 with later | last
    · exact List.mem_cons_of_mem _ later
    · rw [List.mem_singleton.1 last]
      exact List.mem_cons_self

/-- A ring crosses the antimeridian if the number of edges that do is not zero. -/
theorem crosses_iff {ring : Ring} : ring.crosses = true ↔ 0 < ring.crossings := by
  rw [crosses, crossings, List.countP_pos_iff, List.any_eq_true]

/-- A ring within a hemisphere does not cross the antimeridian. -/
theorem crosses_eq_false_of_liesIn {side : Int} {ring : Ring}
    (within : ∀ c ∈ ring, c.LiesIn side ∧ c.OnMap) : ring.crosses = false := by
  unfold crosses
  rw [List.any_eq_false]
  intro e member
  obtain ⟨first, second⟩ := mem_of_mem_edges member
  simp [Antimeridian.crosses_eq_false_of_liesIn (within _ first).1 (within _ second).1
    (within _ first).2 (within _ second).2]

end Ring

end Antimeridian
