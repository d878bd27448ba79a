import Antimeridian.Split
import Mathlib

/-!
# Each hole goes to the first part that takes it

The holes are handed out part by part while the list of pending holes shrinks.  The result is the
same as asking for every hole on its own which part is the first to take it: the parts that come
later and the other holes have no say.
-/

namespace Antimeridian.Split

section

variable [Trig]

/-- Where a part sees a hole: where the first vertex off its boundary lies, or on the boundary if
there is none. -/
def Part.sees (part : Part) (hole : Ring) : Position :=
  ((hole.map (part.exterior.locate part.side part.box)).find? (· ≠ .boundary)).getD .boundary

/-- The first part that does not see a hole outside. -/
def taker (parts : List Part) (hole : Ring) : Option Nat :=
  parts.findIdx? fun part => part.sees hole ≠ .outside

/-- Where a part places a hole depends on the part alone, since its box does. -/
theorem Part.place_eq_sees (part : Part) (hole : Ring) : part.place part.box hole = part.sees hole := by
  unfold Part.place Part.sees
  induction hole with
  | nil => rfl
  | cons c rest ih =>
    simp only [List.findSome?_cons, List.map_cons, List.find?_cons] at ih ⊢
    cases part.exterior.locate part.side part.box c with
    | boundary => simpa using ih
    | outside => rfl
    | inside => rfl

theorem Part.accepts_eq (part : Part) (hole : Ring) :
    part.accepts part.box hole = decide (part.sees hole ≠ .outside) := by
  rw [Part.accepts, Part.place_eq_sees]

theorem taker_cons (part : Part) (rest : List Part) (hole : Ring) :
    taker (part :: rest) hole =
      if part.accepts part.box hole then some 0 else (taker rest hole).map (· + 1) := by
  rw [taker, List.findIdx?_cons, Part.accepts_eq]
  rfl

theorem taker_zero (part : Part) (rest : List Part) (hole : Ring) :
    decide (taker (part :: rest) hole = some 0) = part.accepts part.box hole := by
  rw [taker_cons]
  cases part.accepts part.box hole <;> simp

theorem taker_succ (part : Part) (rest : List Part) (hole : Ring) (j : Nat) :
    decide (taker (part :: rest) hole = some (j + 1)) =
      (decide (taker rest hole = some j) && !part.accepts part.box hole) := by
  rw [taker_cons]
  cases part.accepts part.box hole <;> simp

theorem taker_none (part : Part) (rest : List Part) (hole : Ring) :
    decide (taker (part :: rest) hole = none) =
      (decide (taker rest hole = none) && !part.accepts part.box hole) := by
  rw [taker_cons]
  cases part.accepts part.box hole <;> simp

/-- A part with the holes given to it. -/
structure Filled where
  part : Part
  holes : List Pending

namespace Filled

/-- The polygon of a part and its holes. -/
def polygon (f : Filled) : Polygon := ⟨f.part.exterior, f.holes.map Pending.hole⟩

/-- The events that report the holes of a part. -/
def events (f : Filled) : List Event :=
  f.holes.map fun p => .holeAssigned p.ring f.part.side

end Filled

/-- The pending holes that a part accepts and those that it leaves. -/
def Part.choose (part : Part) (pending : List Pending) : List Pending × List Pending :=
  pending.partition fun h => part.accepts part.box h.hole

/-- Gives every part in turn the pending holes that it accepts, and returns those left over. -/
def distribute : List Part → List Pending → List Filled × List Pending
  | [], pending => ([], pending)
  | part :: rest, pending =>
    let others := distribute rest (part.choose pending).2
    (⟨part, (part.choose pending).1⟩ :: others.1, others.2)

/-- Asked for one hole after the other, a part takes those that it accepts and reports them. -/
theorem Part.assign_eq (part : Part) (box : Box) (pending : List Pending) :
    part.assign box pending =
      ⟨(pending.filter fun h => part.accepts box h.hole).map fun h =>
          .holeAssigned h.ring part.side,
        .ok (pending.partition fun h => part.accepts box h.hole)⟩ := by
  rw [List.partition_eq_filter_filter]
  induction pending with
  | nil => rfl
  | cons h rest ih =>
    rw [Part.assign]
    cases accepts : part.accepts box h.hole with
    | true => simp [accepts, ih, bind, Traced.bind, Traced.note, pure, Traced.ok]
    | false => simp [accepts, ih, bind, Traced.bind, pure, Traced.ok]

/-- A part becomes a polygon with the holes that it accepts, and each of them is reported. -/
theorem Part.fill_eq (part : Part) (pending : List Pending) :
    part.fill pending =
      ⟨Filled.events ⟨part, (part.choose pending).1⟩,
        .ok (Filled.polygon ⟨part, (part.choose pending).1⟩, (part.choose pending).2)⟩ := by
  rw [Part.fill, Part.assign_eq]
  simp [bind, Traced.bind, pure, Traced.ok, Part.choose, Filled.events, Filled.polygon,
    List.partition_eq_filter_filter]

/-- The holes given out one part after the other are those that each part is the first to take. -/
theorem distribute_eq (parts : List Part) (pending : List Pending) :
    distribute parts pending =
      (parts.mapIdx fun j part => ⟨part, pending.filter fun h => taker parts h.hole = some j⟩,
        pending.filter fun h => taker parts h.hole = none) := by
  induction parts generalizing pending with
  | nil => simp [distribute, taker]
  | cons part rest ih =>
    simp only [distribute, Part.choose, List.partition_eq_filter_filter, ih, List.mapIdx_cons,
      List.filter_filter, taker_zero, taker_succ, taker_none, Function.comp_apply]

end

/-! ## Pending holes -/

/-- The holes that are kept whole, in order. -/
theorem pendingHoles_hole (p : Polygon) :
    (pendingHoles p).map Pending.hole = p.holes.filter fun hole => !hole.crosses := by
  unfold pendingHoles
  rw [List.map_filterMap]
  generalize 1 = offset
  induction p.holes generalizing offset with
  | nil => rfl
  | cons hole rest ih =>
    rw [List.zipIdx_cons, List.filterMap_cons, List.filter_cons]
    cases crosses : hole.crosses with
    | true => simpa [crosses] using ih (offset + 1)
    | false => simpa [crosses] using ih (offset + 1)

/-- A pending hole is a hole of the polygon that does not cross, under its ring number. -/
theorem mem_pendingHoles {p : Polygon} {h : Pending} :
    h ∈ pendingHoles p ↔ 0 < h.ring ∧ p.rings[h.ring]? = some h.hole ∧ h.hole.crosses = false := by
  unfold pendingHoles
  rw [List.mem_filterMap]
  constructor
  · rintro ⟨⟨hole, ring⟩, member, kept⟩
    obtain ⟨positive, place⟩ := List.mk_mem_zipIdx_iff_le_and_getElem?_sub.1 member
    cases crosses : hole.crosses with
    | true => simp [crosses] at kept
    | false =>
      simp only [crosses, Bool.false_eq_true, if_false, Option.some.injEq] at kept
      subst kept
      refine ⟨positive, ?_, crosses⟩
      rw [Polygon.rings, List.getElem?_cons, if_neg (Nat.ne_of_gt positive)]
      exact place
  · rintro ⟨positive, place, crosses⟩
    rw [Polygon.rings, List.getElem?_cons, if_neg (Nat.ne_of_gt positive)] at place
    refine ⟨(h.hole, h.ring), List.mk_mem_zipIdx_iff_le_and_getElem?_sub.2 ⟨positive, place⟩, ?_⟩
    simp [crosses]

/-- Pending holes stand in the order of their ring numbers. -/
theorem pendingHoles_pairwise (p : Polygon) :
    (pendingHoles p).Pairwise fun h g => h.ring < g.ring := by
  have ordered : (p.holes.zipIdx 1).Pairwise fun a b => a.2 < b.2 := by
    have indices := List.pairwise_lt_range' (s := 1) (n := p.holes.length)
    rw [← List.zipIdx_map_snd 1 p.holes, List.pairwise_map] at indices
    exact indices
  apply ordered.filterMap
  intro a b less h kept g kept'
  have ring : ∀ {x : Ring × Nat} {h : Pending},
      (if x.1.crosses then none else some ⟨x.2, x.1⟩) = some h → h.ring = x.2 := by
    intro x h kept
    split at kept
    · cases kept
    · cases kept; rfl
  rw [ring kept, ring kept']
  exact less

end Antimeridian.Split
