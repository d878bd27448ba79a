import Antimeridian.Proofs.Split.Holes
import Antimeridian.Proofs.Split.Walk

/-!
# What becomes of a split

A split fails in three ways: the exterior is too short, the crossings do not pair up, or a hole lies
in no part.  The walks themselves cannot fail, since an even number of crossings makes the arena
sound, so in every other case there is a result.
-/

namespace Antimeridian.Split

theorem map_hole_filter (p : Polygon) (test : Ring → Bool) :
    ((pendingHoles p).filter fun h => test h.hole).map Pending.hole =
      p.holes.filter fun hole => !hole.crosses && test hole := by
  have moved := List.filter_map (f := Pending.hole) (l := pendingHoles p) (p := test)
  rw [pendingHoles_hole, List.filter_filter] at moved
  rw [← List.filter_congr fun hole _ => Bool.and_comm (test hole) _]
  exact moved.symm

section

variable [Trig]

/-- The arena of the rings of a polygon that are cut. -/
def arenaOf (p : Polygon) : Arena := Arena.ofRings (cutRings p)

/-- The crossings of the rings of a polygon that are cut, along the meridian circle. -/
def meridianOf (p : Polygon) : Meridian := .ofCrossings (arenaOf p).crossings

theorem sound_arenaOf {p : Polygon} (even : Even (arenaOf p).crossings.length) :
    Sound (arenaOf p) (meridianOf p) := ofRings_sound even

/-! ## Handing out the holes -/

/-- The parts as polygons, each with the holes that it is the first to take. -/
def filledParts (p : Polygon) (parts : List Part) : List Polygon :=
  parts.mapIdx fun j part =>
    ⟨part.exterior, p.holes.filter fun hole => !hole.crosses && taker parts hole = some j⟩

/-- A part holds the holes that it is the first to accept. -/
theorem filledParts_getElem? {p : Polygon} {parts : List Part} {j : Nat} :
    (filledParts p parts)[j]? = parts[j]?.map fun part =>
      ⟨part.exterior, p.holes.filter fun hole => !hole.crosses && taker parts hole = some j⟩ :=
  List.getElem?_mapIdx

theorem filledParts_exterior (p : Polygon) (parts : List Part) :
    (filledParts p parts).map Polygon.exterior = parts.map Part.exterior := by
  apply List.ext_getElem?
  intro j
  rw [List.getElem?_map, filledParts_getElem?, List.getElem?_map, Option.map_map]
  rfl

theorem map_polygon_distribute (p : Polygon) (parts : List Part) :
    (distribute parts (pendingHoles p)).1.map Filled.polygon = filledParts p parts := by
  rw [distribute_eq]
  refine List.ext_getElem? fun j => ?_
  rw [List.getElem?_map, List.getElem?_mapIdx, filledParts_getElem?, Option.map_map]
  refine congrArg (parts[j]?.map ·) (funext fun part => ?_)
  exact congrArg (Polygon.mk part.exterior)
    (map_hole_filter p fun hole => decide (taker parts hole = some j))

/-- Hands out the holes that are kept whole to parts that are all known; every hole needs a part. -/
def handOut (p : Polygon) (parts : List Part) : Traced (List Polygon) :=
  let handed := distribute parts (pendingHoles p)
  match handed.2 with
  | [] => ⟨handed.1.flatMap Filled.events, .ok (handed.1.map Filled.polygon)⟩
  | hole :: _ =>
    let fault := Fault.unassignedHole hole.ring
    ⟨handed.1.flatMap Filled.events ++ [.splitFailed fault], .error fault⟩

/-- Handing out fails at the first hole that no part takes. -/
theorem handOut_result (p : Polygon) (parts : List Part) : (handOut p parts).result =
    match (pendingHoles p).find? fun h => taker parts h.hole = none with
    | none => .ok (filledParts p parts)
    | some h => .error (.unassignedHole h.ring) := by
  have untaken : (distribute parts (pendingHoles p)).2 =
      (pendingHoles p).filter fun h => taker parts h.hole = none := by rw [distribute_eq]
  rw [← map_polygon_distribute, ← List.head?_filter, ← untaken, handOut]
  obtain ⟨filled, left⟩ := distribute parts (pendingHoles p)
  cases left <;> rfl

/-! ## Holes without a part -/

/-- The hole has a vertex off the exterior of the part, and the first such vertex is outside. -/
def Part.Refuses (part : Part) (hole : Ring) : Prop :=
  (hole.map (part.exterior.locate part.side part.box)).find? (· ≠ .boundary) = some .outside

theorem Part.refuses_iff {part : Part} {hole : Ring} :
    part.Refuses hole ↔ part.sees hole = .outside := by
  unfold Part.Refuses Part.sees
  cases (hole.map (part.exterior.locate part.side part.box)).find? (· ≠ .boundary) <;> simp

/-- No part takes a hole if all refuse it. -/
theorem taker_eq_none_iff {parts : List Part} {hole : Ring} :
    taker parts hole = none ↔ ∀ part ∈ parts, part.Refuses hole := by
  rw [taker, List.findIdx?_eq_none_iff]
  simp [Part.refuses_iff]

/-- The ring with the number `i` is a hole that does not cross and that every part refuses. -/
def Loose (p : Polygon) (parts : List Part) (i : Nat) : Prop :=
  0 < i ∧ ∃ hole, p.rings[i]? = some hole ∧ hole.crosses = false ∧ ∀ part ∈ parts, part.Refuses hole

/-- The ring with the number `i` is the first hole that has no part. -/
def FirstLoose (p : Polygon) (parts : List Part) (i : Nat) : Prop :=
  Loose p parts i ∧ ∀ j < i, ¬Loose p parts j

section

variable {p : Polygon} {parts : List Part}

theorem loose_iff {i : Nat} :
    Loose p parts i ↔ ∃ h ∈ pendingHoles p, h.ring = i ∧ taker parts h.hole = none := by
  constructor
  · rintro ⟨positive, hole, place, crosses, refused⟩
    exact ⟨⟨i, hole⟩, mem_pendingHoles.2 ⟨positive, place, crosses⟩, rfl,
      taker_eq_none_iff.2 refused⟩
  · rintro ⟨h, member, rfl, untaken⟩
    obtain ⟨positive, place, crosses⟩ := mem_pendingHoles.1 member
    exact ⟨positive, h.hole, place, crosses, taker_eq_none_iff.1 untaken⟩

theorem FirstLoose.unique {i j : Nat} (first : FirstLoose p parts i)
    (second : FirstLoose p parts j) : i = j := by
  rcases Nat.lt_trichotomy i j with before | equal | after
  · exact absurd first.1 (second.2 i before)
  · exact equal
  · exact absurd second.1 (first.2 j after)

/-- The hole that a split complains about is the first one without a part. -/
theorem firstLoose_of_find? {h : Pending}
    (found : (pendingHoles p).find? (fun h => taker parts h.hole = none) = some h) :
    FirstLoose p parts h.ring := by
  obtain ⟨untaken, before, after, order, earlier⟩ := List.find?_eq_some_iff_append.1 found
  have sorted := pendingHoles_pairwise p
  rw [order] at sorted
  have later := (List.pairwise_cons.1 (List.pairwise_append.1 sorted).2.1).1
  refine ⟨loose_iff.2 ⟨h, List.mem_of_find?_eq_some found, rfl, by simpa using untaken⟩, ?_⟩
  intro j less loose
  obtain ⟨g, member, rfl, untaken'⟩ := loose_iff.1 loose
  rw [order, List.mem_append, List.mem_cons] at member
  rcases member with first | rfl | last
  · simpa [untaken'] using earlier g first
  · exact Nat.lt_irrefl _ less
  · exact Nat.lt_asymm less (later g last)

/-- The first loose hole is the one that is named in the fault. -/
theorem handOut_result_of_firstLoose {i : Nat} (first : FirstLoose p parts i) :
    (handOut p parts).result = .error (.unassignedHole i) := by
  rw [handOut_result]
  cases found : (pendingHoles p).find? fun h => taker parts h.hole = none with
  | none =>
    obtain ⟨h, member, -, untaken⟩ := loose_iff.1 first.1
    have taken := List.find?_eq_none.1 found h member
    simp [untaken] at taken
  | some h => rw [first.unique (firstLoose_of_find? found)]

/-- Without a loose hole all are handed out. -/
theorem handOut_result_of_not_loose (placed : ∀ i, ¬Loose p parts i) :
    (handOut p parts).result = .ok (filledParts p parts) := by
  rw [handOut_result]
  cases found : (pendingHoles p).find? fun h => taker parts h.hole = none with
  | none => rfl
  | some h => exact absurd (firstLoose_of_find? found).1 (placed h.ring)

open Classical in
/-- Either a hole is the first one without a part, or all holes have parts. -/
theorem firstLoose_or_not_loose (p : Polygon) (parts : List Part) :
    (∃ i, FirstLoose p parts i) ∨ ∀ i, ¬Loose p parts i := by
  by_cases some : ∃ i, Loose p parts i
  · exact Or.inl ⟨Nat.find some, Nat.find_spec some, fun j less => Nat.find_min some less⟩
  · exact Or.inr (not_exists.1 some)

end

/-! ## The split as a whole -/

/-- What a split comes to, without its log. -/
inductive Outcome (p : Polygon) : Except Fault (List Polygon) → Prop
  | short : p.exterior.length < 2 → Outcome p (.error (.degenerateRing p.exterior.length))
  | odd : 2 ≤ p.exterior.length → Odd (arenaOf p).crossings.length →
    Outcome p (.error (.oddCrossings (arenaOf p).crossings.length))
  | loose {ts : List Tour} {i : Nat} : 2 ≤ p.exterior.length →
    Even (arenaOf p).crossings.length → tours (arenaOf p) (meridianOf p) = .ok ts →
    FirstLoose p (ts.map Tour.part) i → Outcome p (.error (.unassignedHole i))
  | done {ts : List Tour} : 2 ≤ p.exterior.length →
    Even (arenaOf p).crossings.length → tours (arenaOf p) (meridianOf p) = .ok ts →
    (∀ i, ¬Loose p (ts.map Tour.part) i) → Outcome p (.ok (filledParts p (ts.map Tour.part)))

/-- Although every part is given its holes before the next walk begins, the rounds of a split come to
the same as all tours together and the holes handed out afterwards. -/
theorem polygonsFor_of_toursFor {arena : Arena} {meridian : Meridian} {rounds : Nat}
    {left : List Nat} {ts : List Tour} (toured : toursFor arena meridian rounds left = .ok ts)
    (pending : List Pending) : polygonsFor arena meridian rounds left pending =
      ⟨(distribute (ts.map Tour.part) pending).1.flatMap Filled.events,
        .ok ((distribute (ts.map Tour.part) pending).1.map Filled.polygon,
          (distribute (ts.map Tour.part) pending).2)⟩ := by
  induction rounds generalizing left ts pending with
  | zero =>
    obtain rfl := Except.ok.inj toured
    rfl
  | succ rounds ih =>
    cases left with
    | nil =>
      obtain rfl := Except.ok.inj toured
      rfl
    | cons start left =>
      rw [toursFor] at toured
      obtain ⟨t, tour, later⟩ := bind_eq_ok.1 toured
      obtain ⟨rest, others, result⟩ := bind_eq_ok.1 later
      obtain rfl := Except.ok.inj result
      rw [polygonsFor, tour]
      simp only [reported, Part.fill_eq, ih others, bind, Traced.bind, pure, Traced.ok,
        List.map_cons, distribute, List.flatMap_cons, List.nil_append, List.append_nil]

/-- A split whose tours are known hands out the holes and reports its sizes. -/
theorem split_of_tours {p : Polygon} {ts : List Tour} (long : 2 ≤ p.exterior.length)
    (even : Even (arenaOf p).crossings.length)
    (toured : tours (arenaOf p) (meridianOf p) = .ok ts) :
    p.split = do
      let polygons ← handOut p (ts.map Tour.part)
      .note (.polygonSplit p.rings.length p.vertexCount (arenaOf p).crossings.length
        polygons.length)
      return polygons := by
  have paired : ¬(arenaOf p).crossings.length % 2 = 1 := by
    rw [Nat.even_iff.1 even]
    decide
  have found := polygonsFor_of_toursFor toured (pendingHoles p)
  unfold meridianOf arenaOf at found
  unfold arenaOf at paired
  simp only [Polygon.split, if_neg (Nat.not_lt.2 long), if_neg paired, polygonsOf, found, handOut]
  obtain ⟨filled, loose⟩ := distribute (ts.map Tour.part) (pendingHoles p)
  cases loose <;> rfl

/-- The outcome of a split is that of handing out the holes to the parts. -/
theorem split_result_of_tours {p : Polygon} {ts : List Tour} (long : 2 ≤ p.exterior.length)
    (even : Even (arenaOf p).crossings.length)
    (toured : tours (arenaOf p) (meridianOf p) = .ok ts) :
    p.split.result = (handOut p (ts.map Tour.part)).result := by
  rw [split_of_tours long even toured, Traced.result_bind]
  cases (handOut p (ts.map Tour.part)).result <;> rfl

section

variable {p : Polygon} {r : Except Fault (List Polygon)}

/-- The outcome that is described is the one that is computed. -/
theorem Outcome.result_eq (outcome : Outcome p r) : p.split.result = r := by
  cases outcome with
  | short short =>
    rw [Polygon.split, if_pos short]
    rfl
  | odd long odd =>
    rw [Polygon.split, if_neg (Nat.not_lt.2 long)]
    exact congrArg Traced.result (if_pos (Nat.odd_iff.1 odd))
  | loose long even toured first =>
    rw [split_result_of_tours long even toured, handOut_result_of_firstLoose first]
  | done long even toured placed =>
    rw [split_result_of_tours long even toured, handOut_result_of_not_loose placed]

/-- Every polygon has an outcome. -/
theorem exists_outcome (p : Polygon) : ∃ r, Outcome p r := by
  by_cases short : p.exterior.length < 2
  · exact ⟨_, .short short⟩
  have long : 2 ≤ p.exterior.length := Nat.not_lt.1 short
  rcases Nat.even_or_odd (arenaOf p).crossings.length with even | odd
  · obtain ⟨ts, toured⟩ := (sound_arenaOf even).exists_tours
    rcases firstLoose_or_not_loose p (ts.map Tour.part) with ⟨i, first⟩ | placed
    · exact ⟨_, .loose long even toured first⟩
    · exact ⟨_, .done long even toured placed⟩
  · exact ⟨_, .odd long odd⟩

/-- A split ends in its outcome. -/
theorem split_result_iff : p.split.result = r ↔ Outcome p r := by
  constructor
  · rintro rfl
    obtain ⟨r, outcome⟩ := exists_outcome p
    rwa [outcome.result_eq]
  · exact Outcome.result_eq

/-- A split that succeeds has filled the parts of its tours. -/
theorem exists_tours_of_split {polygons : List Polygon} (ok : p.split.result = .ok polygons) :
    2 ≤ p.exterior.length ∧ Even (arenaOf p).crossings.length ∧
      ∃ ts, tours (arenaOf p) (meridianOf p) = .ok ts ∧ (∀ i, ¬Loose p (ts.map Tour.part) i) ∧
        polygons = filledParts p (ts.map Tour.part) := by
  cases split_result_iff.1 ok with
  | done long even toured placed => exact ⟨long, even, _, toured, placed, rfl⟩

end

end

theorem exists_of_isOk {r : Except Fault (List Polygon)} (ok : r.isOk = true) :
    ∃ polygons, r = .ok polygons := by
  cases r with
  | error fault => cases ok
  | ok polygons => exact ⟨polygons, rfl⟩

/-- The faults of a split are exactly these: an exterior of fewer than two vertices, else an odd
number of crossings, else a first hole that all parts refuse.  In every other case there is a
result.  The walks around the parts never fail if the number of crossings is even: together they
pass every vertex of the cut rings once, and each ends at a used vertex, whether or not the
hemispheres of a ring agree. -/
theorem split_result_eq_iff (p : Polygon) :
    (∀ n, p.split.result = .error (.degenerateRing n) ↔ p.exterior.length = n ∧ n < 2) ∧
    (∀ n, p.split.result = .error (.oddCrossings n) ↔
      2 ≤ p.exterior.length ∧ (arenaOf p).crossings.length = n ∧ Odd n) ∧
    (∀ i, p.split.result = .error (.unassignedHole i) ↔
      2 ≤ p.exterior.length ∧ Even (arenaOf p).crossings.length ∧
        ∃ ts, tours (arenaOf p) (meridianOf p) = .ok ts ∧ FirstLoose p (ts.map Tour.part) i) ∧
    ((∃ polygons, p.split.result = .ok polygons) ↔
      2 ≤ p.exterior.length ∧ Even (arenaOf p).crossings.length ∧
        ∃ ts, tours (arenaOf p) (meridianOf p) = .ok ts ∧ ∀ i, ¬Loose p (ts.map Tour.part) i) ∧
    (∀ i n, p.split.result ≠ .error (.vertexOutOfBounds i n)) ∧
    (Even (arenaOf p).crossings.length → ∃ ts, tours (arenaOf p) (meridianOf p) = .ok ts ∧
      (ts.flatMap fun t => t.walk.visited).Perm (List.range (arenaOf p).length) ∧
      ∀ t ∈ ts, t.walk.stop.index ∉ t.walk.left) := by
  simp only [split_result_iff]
  refine ⟨fun n => ⟨?_, ?_⟩, fun n => ⟨?_, ?_⟩, fun i => ⟨?_, ?_⟩, ⟨?_, ?_⟩, ?_, ?_⟩
  · intro outcome
    cases outcome with
    | short short => exact ⟨rfl, short⟩
  · rintro ⟨rfl, short⟩
    exact .short short
  · intro outcome
    cases outcome with
    | odd long odd => exact ⟨long, rfl, odd⟩
  · rintro ⟨long, rfl, odd⟩
    exact .odd long odd
  · intro outcome
    cases outcome with
    | loose long even toured first => exact ⟨long, even, _, toured, first⟩
  · rintro ⟨long, even, ts, toured, first⟩
    exact .loose long even toured first
  · rintro ⟨polygons, outcome⟩
    cases outcome with
    | done long even toured placed => exact ⟨long, even, _, toured, placed⟩
  · rintro ⟨long, even, ts, toured, placed⟩
    exact ⟨_, .done long even toured placed⟩
  · intro i n failed
    cases split_result_iff.1 failed
  · intro even
    obtain ⟨ts, toured⟩ := (sound_arenaOf even).exists_tours
    have touring := touring_of_tours toured
    refine ⟨ts, toured, touring.visited_perm, ?_⟩
    intro t member
    obtain ⟨node, -, -, left, path, follows⟩ := touring.follows t member
    exact follows.stop

end Antimeridian.Split
