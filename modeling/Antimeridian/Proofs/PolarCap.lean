import Antimeridian.PolarCap
import Antimeridian.Proofs.Outline

/-!
# Rings opened at a pole

Points put into the edges of a ring subdivide them.  So a ring that crosses the antimeridian on a
single edge is opened on that edge and stays as it is elsewhere.  The ring that comes out crosses
the antimeridian on a single edge again, the one between its vertices at the latitude limit.
-/

namespace Antimeridian

/-! ## Subdivided edges -/

/-- Points put into the edges of a line subdivide them. -/
theorem trail_flatMap (f : Coord × Coord → List Coord) (a : Coord) (rest : List Coord)
    (last : Coord) : trail ((trail (a :: rest ++ [last])).flatMap (fun e => e.1 :: f e) ++ [last]) =
      (trail (a :: rest ++ [last])).flatMap fun e => trail (e.1 :: f e ++ [e.2]) := by
  induction rest generalizing a with
  | nil => simp [trail]
  | cons b rest ih =>
    -- what comes after the first edge begins at `b`, and the line can be taken apart there
    have begins : ∃ others, (trail (b :: rest ++ [last])).flatMap (fun e => e.1 :: f e) ++ [last] =
        b :: others := by
      cases rest <;> simp [trail]
    obtain ⟨others, order⟩ := begins
    have line : trail (a :: (b :: rest) ++ [last]) = (a, b) :: trail (b :: rest ++ [last]) := rfl
    rw [line, List.flatMap_cons, List.flatMap_cons, ← ih b, List.append_assoc, order, trail_append]

namespace Ring

/-- Points put into the edges of a ring subdivide them. -/
theorem edges_flatMap (f : Coord × Coord → List Coord) (ring : Ring) :
    Ring.edges (ring.edges.flatMap fun e => e.1 :: f e) =
      ring.edges.flatMap fun e => trail (e.1 :: f e ++ [e.2]) := by
  cases ring with
  | nil => rfl
  | cons first rest =>
    have begins : ∃ others, (Ring.edges (first :: rest)).flatMap (fun e => e.1 :: f e) =
        first :: others := by
      cases rest <;> simp [edges, cyclicPairs]
    obtain ⟨others, order⟩ := begins
    have line := trail_flatMap f first rest first
    rw [← cyclicPairs_cons, ← edges] at line
    rw [← line, order, edges, cyclicPairs_cons]

/-! ## The only crossing -/

/-- The edge with the index `i` is the only one of the ring that crosses the antimeridian. -/
def CrossesOnlyAt (ring : Ring) (i : Nat) : Prop :=
  i < ring.length ∧ ∀ j e, ring.edges[j]? = some e → (Antimeridian.crosses e.1 e.2 = true ↔ j = i)

/-- The edge from `a` to `b`, which comes after the edges in `before`, is the only one of the ring
that crosses the antimeridian. -/
structure SingleCrossing (ring : Ring) (before : List (Coord × Coord)) (a b : Coord)
    (after : List (Coord × Coord)) : Prop where
  edges : ring.edges = before ++ (a, b) :: after
  across : Antimeridian.crosses a b = true
  clear : ∀ e ∈ before ++ after, Antimeridian.crosses e.1 e.2 = false

/-- A ring with one crossing has one edge across the antimeridian. -/
theorem exists_singleCrossing {ring : Ring} (one : ring.crossings = 1) :
    ∃ before a b after, ring.SingleCrossing before a b after := by
  change ring.edges.countP (fun e => Antimeridian.crosses e.1 e.2) = 1 at one
  obtain ⟨⟨a, b⟩, member, across⟩ := List.countP_pos_iff.1 (Nat.lt_of_lt_of_eq Nat.one_pos one.symm)
  obtain ⟨before, after, edges⟩ := List.append_of_mem member
  rw [edges, List.countP_append, List.countP_cons, if_pos across] at one
  have none : (before ++ after).countP (fun e => Antimeridian.crosses e.1 e.2) = 0 := by
    rw [List.countP_append]
    omega
  refine ⟨before, a, b, after, edges, across, ?_⟩
  intro e inRest
  simpa using List.countP_eq_zero.1 none e inRest

namespace SingleCrossing

variable {ring : Ring} {before after : List (Coord × Coord)} {a b : Coord}

theorem getElem? (single : ring.SingleCrossing before a b after) :
    ring.edges[before.length]? = some (a, b) := by
  simp [single.edges]

theorem mem (single : ring.SingleCrossing before a b after) : a ∈ ring ∧ b ∈ ring :=
  mem_of_mem_edges (List.mem_of_getElem? single.getElem?)

theorem crossesOnlyAt (single : ring.SingleCrossing before a b after) :
    ring.CrossesOnlyAt before.length := by
  constructor
  · rw [← edges_map_fst ring, single.edges]
    simp
  · intro j e place
    rw [single.edges] at place
    rcases Nat.lt_trichotomy j before.length with first | rfl | last
    · rw [List.getElem?_append_left first] at place
      have off := single.clear e (List.mem_append_left _ (List.mem_of_getElem? place))
      simp [off, first.ne]
    · rw [List.getElem?_append_right (Nat.le_refl _), Nat.sub_self] at place
      cases place
      simp [single.across]
    · obtain ⟨k, rfl⟩ := Nat.exists_eq_add_of_lt last
      rw [List.getElem?_append_right (by omega),
        show before.length + k + 1 - before.length = k + 1 by omega] at place
      have off := single.clear e (List.mem_append_right _ (List.mem_of_getElem? place))
      simp [off]
      omega

/-- What is made of the edges one by one, if it is `g` of an edge unless the edge crosses. -/
theorem flatMap_eq {α : Type} (single : ring.SingleCrossing before a b after)
    {f : Coord × Coord → List α} (g : Coord × Coord → α)
    (whole : ∀ e : Coord × Coord, Antimeridian.crosses e.1 e.2 = false → f e = [g e]) :
    ring.edges.flatMap f = before.map g ++ f (a, b) ++ after.map g := by
  have kept : ∀ es ⊆ before ++ after, es.flatMap f = es.map g := by
    intro es included
    rw [List.map_eq_flatMap]
    exact List.flatMap_congr fun e member => whole e (single.clear e (included member))
  rw [single.edges, List.flatMap_append, List.flatMap_cons, kept _ (List.subset_append_left _ _),
    kept _ (List.subset_append_right _ _), List.append_assoc]

end SingleCrossing

/-! ## The sides of the cap -/

/-- The longitude of the antimeridian on the side of `a`. -/
def capLongitude (a : Coord) : Float := if a.lng < 0 then -Angle.pi else Angle.pi

section

variable {a b : Coord}

/-- The first added vertex is on the antimeridian, on the side of the edge's start. -/
theorem capLongitude_cases (off : a.hemisphere ≠ 0) :
    (a.hemisphere = -1 ∧ capLongitude a = -Angle.pi) ∨
      (a.hemisphere = 1 ∧ capLongitude a = Angle.pi) := by
  by_cases west : a.lng < 0
  · left
    simp [Coord.hemisphere, Double.sign, capLongitude, west]
  · right
    have east : a.hemisphere ≠ -1 := by
      rw [Coord.hemisphere, Double.sign, if_neg west]
      split <;> decide
    have sides := a.hemisphere_cases
    refine ⟨by omega, ?_⟩
    rw [capLongitude, if_neg west]

/-- The antimeridian on the side of `a` is in the hemisphere of `a`, and on the other side in that
of `b`. -/
theorem hemisphere_cap (across : Antimeridian.crosses a b = true) (aMap : a.OnMap)
    (bMap : b.OnMap) (lat : Float) :
    (Coord.mk lat (capLongitude a)).hemisphere = a.hemisphere ∧
      (Coord.mk lat (-capLongitude a)).hemisphere = b.hemisphere := by
  have west : Double.sign (-Angle.pi) = -1 ∧ Double.sign (- -Angle.pi) = 1 := by decide +kernel
  have east : Double.sign Angle.pi = 1 := by decide +kernel
  obtain ⟨aOff, bOff, differ⟩ := hemispheres_of_crosses across aMap bMap
  have sides := b.hemisphere_cases
  have mk (lng : Float) : (Coord.mk lat lng).hemisphere = Double.sign lng := rfl
  rw [mk, mk]
  rcases capLongitude_cases aOff with ⟨side, lng⟩ | ⟨side, lng⟩
  · rw [lng, west.1, west.2]
    omega
  · rw [lng, east, west.1]
    omega

theorem onMap_cap (a : Coord) (lat : Float) :
    (Coord.mk lat (capLongitude a)).OnMap ∧ (Coord.mk lat (-capLongitude a)).OnMap := by
  unfold Coord.OnMap capLongitude
  dsimp only
  split <;> decide +kernel

/-- The edge along the limit crosses the antimeridian. -/
theorem crosses_cap (a : Coord) (lat : Float) :
    Antimeridian.crosses ⟨lat, capLongitude a⟩ ⟨lat, -capLongitude a⟩ = true := by
  unfold Antimeridian.crosses Coord.hemisphere capLongitude
  dsimp only
  split <;> decide +kernel

theorem crosses_eq_false_of_hemisphere (aMap : a.OnMap) (bMap : b.OnMap)
    (equal : a.hemisphere = b.hemisphere) : Antimeridian.crosses a b = false :=
  Antimeridian.crosses_eq_false_of_liesIn (Or.inr equal) (Or.inr rfl) aMap bMap

/-- The latitude of the limit on the side of the pole that an edge passes. -/
def capLatitude (limit : Float) (a b : Coord) : Float :=
  Float.ofInt (Double.sign (cutLatitude a b)) * limit

/-- Along the cap, only the step from one side of the antimeridian to the other crosses it. -/
theorem trail_capVertices (limit : Float) (across : Antimeridian.crosses a b = true)
    (aMap : a.OnMap) (bMap : b.OnMap) :
    ∃ up down, trail (a :: capVertices limit a b ++ [b]) =
        up ++ (⟨capLatitude limit a b, capLongitude a⟩, ⟨capLatitude limit a b, -capLongitude a⟩) ::
          down ∧
      up.length = 2 ∧ ∀ e ∈ up ++ down, Antimeridian.crosses e.1 e.2 = false := by
  have sides := hemisphere_cap across aMap bMap
  have maps := onMap_cap a
  refine ⟨[(a, _), (_, _)], [(_, _), (_, b)], rfl, rfl, ?_⟩
  simp only [List.cons_append, List.nil_append, List.forall_mem_cons, List.not_mem_nil,
    IsEmpty.forall_iff, implies_true, and_true]
  refine ⟨?_, ?_, ?_, ?_⟩
  · exact crosses_eq_false_of_hemisphere aMap (maps _).1 (sides _).1.symm
  · exact crosses_eq_false_of_hemisphere (maps _).1 (maps _).1 rfl
  · exact crosses_eq_false_of_hemisphere (maps _).2 (maps _).2 rfl
  · exact crosses_eq_false_of_hemisphere (maps _).2 bMap (sides _).2

end

/-! ## The opened ring -/

/-- What is put into an edge of a ring that is opened. -/
def inserted (limit : Float) (e : Coord × Coord) : List Coord :=
  if Antimeridian.crosses e.1 e.2 then capVertices limit e.1 e.2 else []

/-- A ring that crosses once is opened at the edge that crosses. -/
theorem openAtPole_of_crossings {ring : Ring} (limit : Float) (one : ring.crossings = 1) :
    ring.openAtPole limit = .ok (ring.edges.flatMap fun e => e.1 :: inserted limit e) := by
  rw [openAtPole, if_neg (not_not.2 one)]
  refine congrArg (fun f => Traced.ok (ring.edges.flatMap f)) (funext fun e => ?_)
  by_cases across : Antimeridian.crosses e.1 e.2 = true <;> simp [inserted, across]

section

variable {ring : Ring} {before after : List (Coord × Coord)} {a b : Coord}

/-- The four vertices are put between the part before the crossing and the part after it. -/
theorem SingleCrossing.flatMap_inserted (single : ring.SingleCrossing before a b after)
    (limit : Float) : ring.edges.flatMap (fun e => e.1 :: inserted limit e) =
      ring.take (before.length + 1) ++ capVertices limit a b ++ ring.drop (before.length + 1) := by
  have vertices : ring = (before.map Prod.fst ++ [a]) ++ after.map Prod.fst := by
    rw [← edges_map_fst ring, single.edges]
    simp
  have start : (before.map Prod.fst ++ [a]).length = before.length + 1 := by simp
  rw [single.flatMap_eq Prod.fst fun e off => by simp [inserted, off], vertices,
    List.take_left' start, List.drop_left' start]
  simp [inserted, single.across]

/-- The opened ring crosses the antimeridian at the limit and nowhere else. -/
theorem SingleCrossing.opened (single : ring.SingleCrossing before a b after) (limit : Float)
    (onMap : ∀ c ∈ ring, c.OnMap) : ∃ up down, up.length = 2 ∧
      SingleCrossing (ring.edges.flatMap fun e => e.1 :: inserted limit e) (before ++ up)
        ⟨capLatitude limit a b, capLongitude a⟩ ⟨capLatitude limit a b, -capLongitude a⟩
        (down ++ after) := by
  obtain ⟨up, down, cap, two, level⟩ := trail_capVertices limit single.across
    (onMap a single.mem.1) (onMap b single.mem.2)
  refine ⟨up, down, two, ?_, crosses_cap a _, ?_⟩
  · rw [edges_flatMap, single.flatMap_eq id fun e off => by simp [inserted, off, trail]]
    have put : inserted limit (a, b) = capVertices limit a b := if_pos single.across
    rw [put, cap]
    simp
  · intro e member
    have clear := single.clear
    simp only [List.mem_append] at member clear level
    rcases member with (first | inUp) | (inDown | last)
    · exact clear e (Or.inl first)
    · exact level e (Or.inl inUp)
    · exact level e (Or.inr inDown)
    · exact clear e (Or.inr last)

end

/-- A ring is refused with its number of crossings, unless that number is one. -/
theorem openAtPole_eq_polarCrossings_iff (ring : Ring) (limit : Float) (n : Nat) :
    (ring.openAtPole limit).result = .error (.polarCrossings n) ↔ n = ring.crossings ∧ n ≠ 1 := by
  by_cases one : ring.crossings = 1
  · rw [openAtPole_of_crossings limit one, one]
    simp [Traced.ok]
  · rw [openAtPole, if_pos one]
    simp only [Traced.failWith, Except.error.injEq, Fault.polarCrossings.injEq]
    omega

/-- Opening a ring fails with the number of its crossings unless that is one.  A ring with a single
crossing stays as it is but for the edge that crosses: there it goes along the antimeridian, on the
side that it comes from, to the limit towards the pole of the crossing, and back on the other side.
If its longitudes are within half a turn, the opened ring crosses the antimeridian at the limit
and nowhere else. -/
theorem openAtPole_result (ring : Ring) (limit : Float) :
    (∀ n, (ring.openAtPole limit).result = .error (.polarCrossings n) ↔
      n = ring.crossings ∧ n ≠ 1) ∧
    (ring.crossings = 1 → ∃ i a b, ring.edges[i]? = some (a, b) ∧ ring.CrossesOnlyAt i ∧
      let cut := cutLatitude a b
      let lng := if a.lng < 0 then -Angle.pi else Angle.pi
      let pole := Float.ofInt (Double.sign cut) * limit
      let opened : Ring := ring.take (i + 1) ++
        [⟨cut, lng⟩, ⟨pole, lng⟩, ⟨pole, -lng⟩, ⟨cut, -lng⟩] ++ ring.drop (i + 1)
      (ring.openAtPole limit).result = .ok opened ∧
        ((∀ c ∈ ring, c.OnMap) → opened.CrossesOnlyAt (i + 2) ∧
          opened.edges[i + 2]? = some (⟨pole, lng⟩, ⟨pole, -lng⟩))) := by
  refine ⟨openAtPole_eq_polarCrossings_iff ring limit, ?_⟩
  intro one
  obtain ⟨before, a, b, after, single⟩ := exists_singleCrossing one
  refine ⟨before.length, a, b, single.getElem?, single.crossesOnlyAt, ?_⟩
  intro cut lng pole opened
  have vertices : ring.edges.flatMap (fun e => e.1 :: inserted limit e) = opened :=
    single.flatMap_inserted limit
  refine ⟨by rw [openAtPole_of_crossings limit one, vertices]; rfl, ?_⟩
  intro onMap
  obtain ⟨up, down, two, again⟩ := single.opened limit onMap
  have index : (before ++ up).length = before.length + 2 := by rw [List.length_append, two]
  rw [vertices] at again
  rw [← index]
  exact ⟨again.crossesOnlyAt, again.getElem?⟩

/-- A ring around the north pole that crosses the antimeridian on its last edge. -/
def wreath : Ring := [⟨1, -3⟩, ⟨1, -1⟩, ⟨1, 1⟩, ⟨1, 3⟩]

/-- A ring around the pole is opened with four added vertices. -/
theorem openAtPole_result_wreath : wreath.crossings = 1 ∧ (∀ c ∈ wreath, c.OnMap) ∧
    ∃ cap, (wreath.openAtPole 1.5).result = .ok (wreath ++ cap) ∧ cap.length = 4 ∧
      CrossesOnlyAt (wreath ++ cap) 5 := by
  have one : wreath.crossings = 1 := by decide +kernel
  have onMap : ∀ c ∈ wreath, c.OnMap := by decide +kernel
  refine ⟨one, onMap, ?_⟩
  obtain ⟨i, a, b, -, only, result, level⟩ := (openAtPole_result wreath 1.5).2 one
  have last : Antimeridian.crosses ⟨1, 3⟩ ⟨1, -3⟩ = true := by decide +kernel
  obtain rfl : 3 = i := (only.2 3 (⟨1, 3⟩, ⟨1, -3⟩) rfl).1 last
  have whole : wreath.take (3 + 1) = wreath := rfl
  have none : wreath.drop (3 + 1) = [] := rfl
  rw [whole, none, List.append_nil] at result level
  exact ⟨_, result, rfl, (level onMap).1⟩

end Ring

end Antimeridian
