import Antimeridian.Proofs.Split.Assignment

/-!
# What a split reports

The log of a split is the list of the holes handed out, in the order in which they are handed out,
and one closing event that tells how the split ended.  A fault before the parts are known leaves no
hole to report, and a hole without a part does not take back the reports of the others.
-/

namespace Antimeridian.Split

/-- The parts of an arena, in the order of their first vertices. -/
def parts (arena : Arena) (meridian : Meridian) : Except Fault (List Part) := do
  return (← tours arena meridian).map Tour.part

/-- The parts that a polygon is cut into, none if the exterior is too short or the crossings do not
pair up. -/
def partsOf (p : Polygon) : List Part :=
  if 2 ≤ p.exterior.length ∧ Even (arenaOf p).crossings.length then
    match parts (arenaOf p) (meridianOf p) with
    | .ok found => found
    | .error _ => []
  else []

/-- The reports of the holes that have a part: part by part, for each part the holes that it is the
first to take, in the order of the polygon. -/
def assignments (p : Polygon) (parts : List Part) : List Event :=
  (parts.mapIdx fun j part =>
    ((pendingHoles p).filter fun h => taker parts h.hole = some j).map fun h =>
      .holeAssigned h.ring part.side).flatten

/-- The event that closes the log of a split. -/
def closing (p : Polygon) : Except Fault (List Polygon) → Event
  | .ok polygons =>
    .polygonSplit p.rings.length p.vertexCount (arenaOf p).crossings.length polygons.length
  | .error fault => .splitFailed fault

/-- The event reports that a hole of the polygon was handed out. -/
def Reports (p : Polygon) (event : Event) (hole : Ring) : Prop :=
  ∃ i side, event = .holeAssigned i side ∧ 0 < i ∧ p.rings[i]? = some hole

section

variable {p : Polygon} {ts : List Tour}

/-! ## Handing out the holes -/

/-- The reports of all parts are those of the holes in the order of their parts. -/
theorem flatMap_events_distribute (p : Polygon) (parts : List Part) :
    (distribute parts (pendingHoles p)).1.flatMap Filled.events = assignments p parts := by
  rw [distribute_eq, List.flatMap_def, assignments]
  refine congrArg List.flatten (List.ext_getElem? fun j => ?_)
  rw [List.getElem?_map, List.getElem?_mapIdx, List.getElem?_mapIdx, Option.map_map]
  rfl

/-- Each hole that is given out is reported, and then a hole that is left over. -/
theorem handOut_log (p : Polygon) (parts : List Part) : (handOut p parts).log = assignments p parts ++
    match (handOut p parts).result with
    | .ok _ => []
    | .error fault => [.splitFailed fault] := by
  rw [← flatMap_events_distribute, handOut]
  obtain ⟨filled, left⟩ := distribute parts (pendingHoles p)
  cases left with
  | nil => exact (List.append_nil _).symm
  | cons hole rest => rfl

/-! ## The log as a whole -/

/-- The parts that are reported on are those the tours go around. -/
theorem partsOf_of_tours (long : 2 ≤ p.exterior.length)
    (even : Even (arenaOf p).crossings.length)
    (toured : tours (arenaOf p) (meridianOf p) = .ok ts) : partsOf p = ts.map Tour.part := by
  rw [partsOf, if_pos ⟨long, even⟩, parts, toured]
  rfl

/-- The log of a split is that of handing out the holes, with the outcome at its end. -/
theorem split_log_of_tours (long : 2 ≤ p.exterior.length)
    (even : Even (arenaOf p).crossings.length)
    (toured : tours (arenaOf p) (meridianOf p) = .ok ts) :
    p.split.log = (handOut p (ts.map Tour.part)).log ++
      match p.split.result with
      | .ok polygons => [closing p (.ok polygons)]
      | .error _ => [] := by
  rw [split_result_of_tours long even toured, split_of_tours long even toured]
  simp only [bind, Traced.bind]
  cases (handOut p (ts.map Tour.part)).result with
  | ok polygons => rfl
  | error fault => exact (List.append_nil _).symm

/-- The log of every split: the holes handed out, then how the split ended. -/
theorem split_log_eq (p : Polygon) :
    p.split.log = assignments p (partsOf p) ++ [closing p p.split.result] := by
  by_cases cut : 2 ≤ p.exterior.length ∧ Even (arenaOf p).crossings.length
  · obtain ⟨long, even⟩ := cut
    obtain ⟨ts, toured⟩ := (sound_arenaOf even).exists_tours
    rw [split_log_of_tours long even toured, handOut_log, partsOf_of_tours long even toured,
      ← split_result_of_tours long even toured, List.append_assoc]
    cases p.split.result <;> rfl
  · rw [partsOf, if_neg cut]
    by_cases short : p.exterior.length < 2
    · rw [Polygon.split, if_pos short]
      rfl
    · have odd : (arenaOf p).crossings.length % 2 = 1 := by
        rw [← Nat.odd_iff, ← Nat.not_even_iff_odd]
        exact fun even => cut ⟨Nat.not_lt.1 short, even⟩
      unfold arenaOf at odd
      simp only [Polygon.split, if_neg short, if_pos odd]
      rfl

theorem filledParts_partsOf {polygons : List Polygon} (ok : p.split.result = .ok polygons) :
    polygons = filledParts p (partsOf p) ∧ ∀ i, ¬Loose p (partsOf p) i := by
  obtain ⟨long, even, ts, toured, placed, rfl⟩ := exists_tours_of_split ok
  rw [partsOf_of_tours long even toured]
  exact ⟨rfl, placed⟩

/-! ## The reports of holes -/

theorem level_of_mem_assignments {parts : List Part} {e : Event}
    (member : e ∈ assignments p parts) : e.level = .trace := by
  rw [← flatMap_events_distribute] at member
  obtain ⟨f, -, reported⟩ := List.mem_flatMap.1 member
  obtain ⟨h, -, rfl⟩ := List.mem_map.1 reported
  rfl

/-- The reports name the holes of the parts one by one. -/
theorem forall₂_events {filled : List Filled}
    (pending : ∀ f ∈ filled, ∀ h ∈ f.holes, h ∈ pendingHoles p) :
    List.Forall₂ (Reports p) (filled.flatMap Filled.events)
      ((filled.map Filled.polygon).flatMap Polygon.holes) := by
  induction filled with
  | nil => exact .nil
  | cons f rest ih =>
    rw [List.flatMap_cons, List.map_cons, List.flatMap_cons]
    refine List.rel_append ?_ (ih fun g member => pending g (List.mem_cons_of_mem f member))
    rw [Filled.events, Filled.polygon, List.forall₂_map_left_iff, List.forall₂_map_right_iff,
      List.forall₂_same]
    intro h member
    obtain ⟨positive, place, -⟩ := mem_pendingHoles.1 (pending f List.mem_cons_self h member)
    exact ⟨h.ring, f.part.side, rfl, positive, place⟩

/-- The reports name the holes of the parts, in the order in which the parts hold them. -/
theorem assignments_forall₂ (p : Polygon) (parts : List Part) :
    List.Forall₂ (Reports p) (assignments p parts)
      ((filledParts p parts).flatMap Polygon.holes) := by
  rw [← flatMap_events_distribute, ← map_polygon_distribute]
  apply forall₂_events
  intro f member h taken
  apply (distribute_perm parts (pendingHoles p)).subset
  exact List.mem_append_left _ (List.mem_flatMap.2 ⟨f, member, taken⟩)

end

/-- How many events of the level are in the log. -/
def countAt (level : Level) (log : List Event) : Nat := log.countP fun e => e.level = level

/-- How many reports of each level a split makes. -/
theorem countAt_split_log (p : Polygon) (level : Level) : countAt level p.split.log =
    (if level = .trace then (assignments p (partsOf p)).length else 0) +
      if (closing p p.split.result).level = level then 1 else 0 := by
  rw [split_log_eq, countAt, List.countP_append, List.countP_singleton]
  congr 1
  · split
    · rename_i traced
      rw [List.countP_eq_length]
      intro e member
      simp [level_of_mem_assignments member, traced]
    · rename_i other
      rw [List.countP_eq_zero]
      intro e member
      simpa [level_of_mem_assignments member] using Ne.symm other
  · simp

/-- The log of a split is one trace for each hole handed out, part by part and in the order of the
polygon within a part, and one event more.  With a result that event is for debugging and gives the
sizes of this split, and the traces name the holes of the parts in order: all holes that do not
cross.  With a fault it is a warning that carries the text of the fault, the only one of the log. -/
theorem split_log (p : Polygon) :
    (∀ polygons, p.split.result = .ok polygons →
      p.split.log = assignments p (partsOf p) ++
        [.polygonSplit p.rings.length p.vertexCount (arenaOf p).crossings.length polygons.length] ∧
      polygons = filledParts p (partsOf p) ∧
      List.Forall₂ (Reports p) (assignments p (partsOf p)) (polygons.flatMap Polygon.holes) ∧
      countAt .trace p.split.log = (p.holes.filter fun hole => !hole.crosses).length ∧
      countAt .debug p.split.log = 1 ∧ countAt .warn p.split.log = 0) ∧
    (∀ fault, p.split.result = .error fault →
      p.split.log = assignments p (partsOf p) ++ [.splitFailed fault] ∧
      (Event.splitFailed fault).message = "antimeridian split failed: " ++ fault.message ∧
      countAt .debug p.split.log = 0 ∧ countAt .warn p.split.log = 1) ∧
    (∀ e ∈ assignments p (partsOf p), e.level = .trace) := by
  refine ⟨fun polygons ok => ?_, fun fault failed => ?_, fun e => level_of_mem_assignments⟩
  · obtain ⟨filled, placed⟩ := filledParts_partsOf ok
    have reported := assignments_forall₂ p (partsOf p)
    have traces : (assignments p (partsOf p)).length =
        (p.holes.filter fun hole => !hole.crosses).length := by
      rw [reported.length_eq, (filledParts_holes_perm placed).length_eq]
    refine ⟨by rw [split_log_eq, ok]; rfl, filled, filled ▸ reported, ?_, ?_, ?_⟩
    · rw [countAt_split_log, ok, traces]
      rfl
    · rw [countAt_split_log, ok]
      rfl
    · rw [countAt_split_log, ok]
      rfl
  · refine ⟨by rw [split_log_eq, failed]; rfl, rfl, ?_, ?_⟩
    · rw [countAt_split_log, failed]
      rfl
    · rw [countAt_split_log, failed]
      rfl

theorem exists_fault_of_not_isOk {r : Except Fault (List Polygon)} (failed : r.isOk = false) :
    ∃ fault, r = .error fault := by
  cases r with
  | error fault => exact ⟨fault, rfl⟩
  | ok polygons => cases failed

/-- A triangle with a hole without vertices, which every part takes. -/
def hollow : Polygon := ⟨[⟨0.5, 0.5⟩, ⟨0.5, 1⟩, ⟨1, 0.5⟩], [[]]⟩

/-- The same triangle with one more hole, in the other hemisphere. -/
def overreaching : Polygon := ⟨hollow.exterior, hollow.holes ++ [[⟨-0.5, -0.5⟩]]⟩

/-- A hole that is given out is traced once, and a hole left over is warned about once. -/
theorem split_log_hollow_overreaching :
    (∃ polygons, hollow.split.result = .ok polygons ∧ countAt .trace hollow.split.log = 1 ∧
      countAt .warn hollow.split.log = 0) ∧
    ∃ fault, overreaching.split.result = .error fault ∧
      countAt .trace overreaching.split.log = 1 ∧ countAt .warn overreaching.split.log = 1 := by
  have succeeds : hollow.split.result.isOk = true := by decide +kernel
  have whole : (hollow.holes.filter fun hole => !hole.crosses).length = 1 := by decide +kernel
  obtain ⟨polygons, ok⟩ := exists_of_isOk succeeds
  obtain ⟨-, -, -, traces, -, warnings⟩ := (split_log hollow).1 polygons ok
  refine ⟨⟨polygons, ok, traces.trans whole, warnings⟩, ?_⟩
  have fails : overreaching.split.result.isOk = false := by decide +kernel
  have traces : countAt .trace overreaching.split.log = 1 := by decide +kernel
  obtain ⟨fault, failed⟩ := exists_fault_of_not_isOk fails
  obtain ⟨-, -, -, warnings⟩ := (split_log overreaching).2.1 fault failed
  exact ⟨fault, failed, traces, warnings⟩

end Antimeridian.Split
