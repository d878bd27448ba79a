import Antimeridian.Proofs.Split.Outcome

/-!
# No hole is lost

The holes of the parts of a split are the holes of the polygon that do not cross, each in exactly one
part.  The parts themselves come from the rings that are cut alone, and the part of a hole is the
first that takes it, so neither depends on the other holes.
-/

namespace Antimeridian.Split

/-- The polygon without the holes that do not cross. -/
def withoutWhole (p : Polygon) : Polygon := ⟨p.exterior, p.holes.filter Ring.crosses⟩

/-- The polygon at the place `j` has the hole. -/
def Holds (polygons : List Polygon) (j : Nat) (hole : Ring) : Prop :=
  ∃ q, polygons[j]? = some q ∧ hole ∈ q.holes

/-- Leaving out the holes that are not cut leaves the rings that are. -/
theorem cutRings_withoutWhole (p : Polygon) : cutRings (withoutWhole p) = cutRings p := by
  simp [cutRings, withoutWhole]

theorem pendingHoles_withoutWhole (p : Polygon) : pendingHoles (withoutWhole p) = [] := by
  apply List.eq_nil_iff_forall_not_mem.2
  intro h member
  have whole := List.mem_map_of_mem (f := Pending.hole) member
  simp [pendingHoles_hole, withoutWhole] at whole

section

variable {p : Polygon} {parts : List Part} {polygons : List Polygon} {ts : List Tour}

theorem taker_lt {hole : Ring} {j : Nat} (taken : taker parts hole = some j) :
    j < parts.length := (List.findIdx?_eq_some_iff_getElem.1 taken).1

/-- A part holds the holes that it is the first to take. -/
theorem holds_filledParts_iff {j : Nat} {hole : Ring} : Holds (filledParts p parts) j hole ↔
    hole ∈ p.holes ∧ hole.crosses = false ∧ taker parts hole = some j := by
  unfold Holds
  rw [filledParts_getElem?]
  constructor
  · rintro ⟨q, place, member⟩
    obtain ⟨part, -, rfl⟩ := Option.map_eq_some_iff.1 place
    simpa using member
  · rintro ⟨member, whole, taken⟩
    refine ⟨_, by rw [List.getElem?_eq_getElem (taker_lt taken), Option.map_some], ?_⟩
    simp [member, whole, taken]

/-- Handing out loses no hole and gives none away twice. -/
theorem distribute_perm (parts : List Part) (pending : List Pending) :
    ((distribute parts pending).1.flatMap Filled.holes ++ (distribute parts pending).2).Perm
      pending := by
  induction parts generalizing pending with
  | nil => exact List.Perm.refl pending
  | cons part rest ih =>
    simp only [distribute, Part.choose, List.partition_eq_filter_filter, List.flatMap_cons,
      List.append_assoc]
    exact ((ih _).append_left _).trans (List.filter_append_perm _ pending)

theorem taker_ne_none (placed : ∀ i, ¬Loose p parts i) {h : Pending} (member : h ∈ pendingHoles p) :
    taker parts h.hole ≠ none := by
  intro untaken
  exact placed h.ring (loose_iff.2 ⟨h, member, rfl, untaken⟩)

/-- If every hole has a part, the parts hold all holes that do not cross. -/
theorem filledParts_holes_perm (placed : ∀ i, ¬Loose p parts i) :
    ((filledParts p parts).flatMap Polygon.holes).Perm
      (p.holes.filter fun hole => !hole.crosses) := by
  have none : (distribute parts (pendingHoles p)).2 = [] := by
    rw [distribute_eq, List.filter_eq_nil_iff]
    intro h member
    simpa using taker_ne_none placed member
  have kept := distribute_perm parts (pendingHoles p)
  rw [none, List.append_nil] at kept
  have holes := kept.map Pending.hole
  rw [pendingHoles_hole, List.map_flatMap] at holes
  rw [← map_polygon_distribute, List.flatMap_map]
  exact holes

/-- Every hole that is not cut is taken if none is left loose. -/
theorem exists_taker (placed : ∀ i, ¬Loose p parts i) {hole : Ring} (member : hole ∈ p.holes)
    (whole : hole.crosses = false) : ∃ j, taker parts hole = some j := by
  have pending : hole ∈ (pendingHoles p).map Pending.hole := by
    rw [pendingHoles_hole]
    simp [member, whole]
  obtain ⟨h, inPending, rfl⟩ := List.mem_map.1 pending
  exact Option.ne_none_iff_exists'.1 (taker_ne_none placed inPending)

/-- Without the whole holes the split has the same parts, all without holes. -/
theorem split_withoutWhole (long : 2 ≤ p.exterior.length)
    (even : Even (arenaOf p).crossings.length)
    (toured : tours (arenaOf p) (meridianOf p) = .ok ts) :
    (withoutWhole p).split.result = .ok (ts.map fun t => ⟨t.part.exterior, []⟩) := by
  have arena : arenaOf (withoutWhole p) = arenaOf p := by
    rw [arenaOf, cutRings_withoutWhole, arenaOf]
  have meridian : meridianOf (withoutWhole p) = meridianOf p := by
    rw [meridianOf, arena, meridianOf]
  have placed : ∀ i, ¬Loose (withoutWhole p) (ts.map Tour.part) i := by
    intro i loose
    obtain ⟨h, member, -⟩ := loose_iff.1 loose
    rw [pendingHoles_withoutWhole] at member
    cases member
  have empty : filledParts (withoutWhole p) (ts.map Tour.part) =
      ts.map fun t => ⟨t.part.exterior, []⟩ := by
    apply List.ext_getElem?
    intro j
    rw [filledParts_getElem?, List.getElem?_map, List.getElem?_map, Option.map_map]
    refine congrArg (ts[j]?.map ·) (funext fun t => congrArg (Polygon.mk _) ?_)
    rw [List.filter_eq_nil_iff]
    intro hole member
    simp [(List.mem_filter.1 member).2]
  rw [← empty]
  rw [← arena] at even toured
  rw [← meridian] at toured
  exact split_result_iff.2 (.done long even toured placed)

end

/-- The exteriors of a split are those of the polygon without its whole holes, and each part has, in
order, the whole holes that it is the first to accept: those that it does not see outside.  So every
whole hole is in exactly one part, no hole that crosses is in any, and the part of a hole stays the
same when other whole holes come or go. -/
theorem split_holes {p : Polygon} {polygons : List Polygon} (ok : p.split.result = .ok polygons) :
    ∃ ts, tours (arenaOf p) (meridianOf p) = .ok ts ∧
      (∀ t ∈ ts, ∃ node, (arenaOf p)[t.start]? = some node ∧ t.side = node.side) ∧
      (withoutWhole p).split.result = .ok (ts.map fun t => ⟨t.part.exterior, []⟩) ∧
      polygons.map Polygon.exterior = ts.map (fun t => t.part.exterior) ∧
      (∀ j q, polygons[j]? = some q → q.holes = p.holes.filter fun hole =>
        !hole.crosses && (ts.map Tour.part).findIdx? (fun part => part.sees hole ≠ .outside) = some j) ∧
      (∀ hole ∈ p.holes, hole.crosses = false → ∃! j, Holds polygons j hole) ∧
      (polygons.flatMap Polygon.holes).Perm (p.holes.filter fun hole => !hole.crosses) ∧
      (∀ q ∈ polygons, ∀ hole ∈ q.holes, hole.crosses = false) ∧
      (∀ q others, cutRings q = cutRings p → q.split.result = .ok others →
        ∀ hole ∈ p.holes, hole ∈ q.holes → hole.crosses = false →
          ∀ j, Holds polygons j hole ↔ Holds others j hole) := by
  obtain ⟨long, even, ts, toured, placed, rfl⟩ := exists_tours_of_split ok
  refine ⟨ts, toured, ?_, split_withoutWhole long even toured, ?_, ?_, ?_,
    filledParts_holes_perm placed, ?_, ?_⟩
  · intro t member
    obtain ⟨node, here, side, -⟩ := (touring_of_tours toured).follows t member
    exact ⟨node, here, side⟩
  · rw [filledParts_exterior, List.map_map]
    rfl
  · intro j q place
    rw [filledParts_getElem?] at place
    obtain ⟨part, -, rfl⟩ := Option.map_eq_some_iff.1 place
    rfl
  · intro hole member whole
    obtain ⟨j, taken⟩ := exists_taker placed member whole
    refine ⟨j, holds_filledParts_iff.2 ⟨member, whole, taken⟩, ?_⟩
    intro k held
    exact Option.some.inj ((holds_filledParts_iff.1 held).2.2.symm.trans taken)
  · intro q member hole inside
    obtain ⟨j, place⟩ := List.getElem?_of_mem member
    exact (holds_filledParts_iff.1 ⟨q, place, inside⟩).2.1
  · intro q others cut ok' hole member member' whole j
    obtain ⟨-, -, ts', toured', -, rfl⟩ := exists_tours_of_split ok'
    have arena : arenaOf q = arenaOf p := by rw [arenaOf, cut, arenaOf]
    rw [meridianOf, arena] at toured'
    obtain rfl := Except.ok.inj (toured.symm.trans toured')
    rw [holds_filledParts_iff, holds_filledParts_iff]
    simp [member, member', whole]

/-- A triangle across the antimeridian, with a whole hole in the west and a hole across. -/
def pierced : Polygon :=
  ⟨[⟨-1, 3⟩, ⟨0, -3⟩, ⟨1, 3⟩],
    [[⟨0, -3.125⟩, ⟨0.125, -3.125⟩, ⟨-0.125, -3.125⟩], [⟨-0.3, 3⟩, ⟨-0.2, -3.125⟩, ⟨-0.2, 3⟩]]⟩

/-- The holes of a pierced polygon are all among the holes of its parts. -/
theorem split_holes_pierced : ∃ polygons, pierced.split.result = .ok polygons ∧
    (polygons.flatMap Polygon.holes).Perm (pierced.holes.filter fun hole => !hole.crosses) := by
  have succeeds : pierced.split.result.isOk = true := by decide +kernel
  obtain ⟨polygons, ok⟩ := exists_of_isOk succeeds
  obtain ⟨ts, -, -, -, -, -, -, perm, -⟩ := split_holes ok
  exact ⟨polygons, ok, perm⟩

end Antimeridian.Split
