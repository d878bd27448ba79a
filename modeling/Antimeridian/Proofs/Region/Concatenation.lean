import Antimeridian.Proofs.Cell

/-!
# Regions side by side

A region is split polygon by polygon from the front, and the first fault ends it.  So the split of two
regions one after the other is that of the first followed by that of the second, and a polygon that
does not cross keeps its place between the parts of its neighbours.  The test whether anything crosses
spares an encoding some work and has no say in the result.
-/

namespace Antimeridian.Region
open Split

/-- A region behind another is split after it. -/
theorem split_append (first second : Region) : (split (first ++ second)).result =
    (split first).result >>= fun parts =>
      (split second).result >>= fun others => .ok (parts ++ others) := by
  induction first with
  | nil =>
    change (split second).result = (split second).result >>= fun others => .ok others
    exact (bind_pure _).symm
  | cons p rest ih =>
    rw [List.cons_append, split_cons, split_cons, ih]
    cases p.pieces with
    | error fault => rfl
    | ok parts =>
      cases (split rest).result with
      | error fault => rfl
      | ok others =>
        cases (split second).result with
        | error fault => rfl
        | ok last => exact congrArg Except.ok (List.append_assoc parts others last).symm

theorem split_cons_of_not_crosses {p : Polygon} (whole : p.crosses = false) (rest : Region) :
    (split (p :: rest)).result = (split rest).result >>= fun others => .ok (p :: others) := by
  have piece : p.pieces = .ok [p] := by simp [Polygon.pieces, whole]
  rw [split_cons, piece]
  rfl

/-- A region is encoded as the encoding of its split, unless the settings are refused.  The split of a
region followed by another is the split of the one followed by that of the other, with the fault of
the first if it has one, and else with the fault of the second.  A polygon that does not cross stays
as it is and where it is, and so does a whole region of such polygons, whatever their holes are. -/
theorem encode_split_append :
    (∀ (region : Region) (settings : Settings), (region.encode settings).result =
      if settings.valid then
        match region.split.result with
        | .ok parts => (Ewkb.encodeRegion parts.toDegrees settings.srid).result
        | .error fault => .error fault
      else .error (.polarLimit settings.polarLimitDegrees)) ∧
    (∀ first second : Region, (split (first ++ second)).result =
      match (split first).result, (split second).result with
      | .ok parts, .ok others => .ok (parts ++ others)
      | .error fault, _ => .error fault
      | .ok _, .error fault => .error fault) ∧
    (∀ (before after : Region) (p : Polygon), p.crosses = false →
      (split (before ++ p :: after)).result =
        (split before).result >>= fun parts =>
          (split after).result >>= fun others => .ok (parts ++ p :: others)) ∧
    ∀ region : Region, (∀ p ∈ region, p.exterior.crosses = false) →
      region.split.result = .ok region := by
  refine ⟨?_, ?_, ?_, ?_⟩
  · intro region settings
    rw [encode_result, Settings.validate]
    split
    · cases region.split.result with
      | error fault => rfl
      | ok parts => exact (congrArg Traced.result (Ewkb.encodeRegion_eq ..)).symm
    · rfl
  · intro first second
    rw [split_append]
    cases (split first).result with
    | error fault => rfl
    | ok parts => cases (split second).result <;> rfl
  · intro before after p whole
    rw [split_append, split_cons_of_not_crosses whole, bind_congr fun parts => bind_assoc _ _ _]
    rfl
  · intro region whole
    apply split_of_not_crosses
    rw [crosses, List.any_eq_false]
    intro p member
    rw [Polygon.crosses, whole p member]
    exact Bool.false_ne_true

/-- A square that does not cross, with a hole that does. -/
def island : Polygon :=
  ⟨[⟨0, 1⟩, ⟨0, 2⟩, ⟨1, 2⟩, ⟨1, 1⟩], [[⟨0.5, 3⟩, ⟨0.5, -3⟩, ⟨0.75, -3⟩]]⟩

theorem encode_split_append_island : island.crosses = false ∧
    (split [island]).result = .ok [island] ∧
    ∃ out, (split [ribbon]).result = .ok out ∧
      (split ([ribbon] ++ island :: [ribbon])).result = .ok (out ++ island :: out) := by
  obtain ⟨-, -, kept, unchanged⟩ := encode_split_append
  have whole : island.crosses = false := by decide +kernel
  have succeeds : (split [ribbon]).result.isOk = true := by decide +kernel
  obtain ⟨out, ok⟩ := exists_of_isOk succeeds
  refine ⟨whole, unchanged [island] (by simpa [Polygon.crosses] using whole), out, ok, ?_⟩
  rw [kept [ribbon] [ribbon] island whole, ok]
  rfl

end Antimeridian.Region
