import Antimeridian.Proofs.Split.Outcome

/-!
# How often a ring meets the meridian circle

Each crossing changes the hemisphere, so a ring has an even number of them exactly if its last edge
leads back into the hemisphere in which it began.  This fails for one kind of ring.  A ring that
begins on the prime meridian is taken to begin in the hemisphere that it enters next, and if its last
hemisphere is the other one, then the crossing from there is missed.  A split is refused for its
crossings exactly if the number of such rings is odd.
-/

namespace Antimeridian.Split

/-- The hemispheres of the vertices off the prime meridian, in order. -/
def offSides (ring : Ring) : List Int := (ring.map Coord.hemisphere).filter (· ≠ 0)

/-- The ring begins on the prime meridian, and its first and its last vertex off the meridian lie in
different hemispheres. -/
def BeginsAstride (ring : Ring) : Prop :=
  ring.head?.map Coord.hemisphere = some 0 ∧ (offSides ring).head? ≠ (offSides ring).getLast?

instance (ring : Ring) : Decidable (BeginsAstride ring) := inferInstanceAs (Decidable (_ ∧ _))

/-! ## The last hemisphere -/

@[simp] theorem offSides_nil : offSides [] = [] := rfl

theorem offSides_append (first second : Ring) :
    offSides (first ++ second) = offSides first ++ offSides second := by
  simp [offSides]

theorem offSides_cons_of_zero {c : Coord} (zero : c.hemisphere = 0) (rest : Ring) :
    offSides (c :: rest) = offSides rest := by
  simp [offSides, zero]

theorem offSides_cons_of_ne {c : Coord} (off : c.hemisphere ≠ 0) (rest : Ring) :
    offSides (c :: rest) = c.hemisphere :: offSides rest := by
  simp [offSides, off]

/-- The leading hemisphere is that of the first vertex off the prime meridian. -/
theorem leadingSide_eq (ring : Ring) : leadingSide ring = (offSides ring).head?.getD 0 := by
  rw [leadingSide, offSides, List.head?_filter]

theorem advance_eq {side : Int} (nonzero : side ≠ 0) (e : Coord × Coord) :
    advance side e = if e.2.hemisphere = 0 then side else e.2.hemisphere := by
  unfold advance
  by_cases zero : e.2.hemisphere = 0
  · simp [leaves, zero]
  · by_cases same : e.2.hemisphere = side
    · simp [leaves, same]
    · simp [leaves, zero, same, nonzero]

/-- The hemisphere after several edges is that of the last vertex off the prime meridian. -/
theorem sideAfter_eq_getLastD {side : Int} (nonzero : side ≠ 0) (es : List (Coord × Coord)) :
    sideAfter side es = (offSides (es.map Prod.snd)).getLastD side := by
  induction es generalizing side with
  | nil => rfl
  | cons e rest ih =>
    have step : sideAfter side (e :: rest) = sideAfter (Split.advance side e) rest := rfl
    rw [step, advance_eq nonzero, List.map_cons]
    by_cases zero : e.2.hemisphere = 0
    · rw [if_pos zero, ih nonzero, offSides_cons_of_zero zero]
    · rw [if_neg zero, ih zero, offSides_cons_of_ne zero, List.getLastD_cons]

theorem edges_map_snd (first : Coord) (rest : Ring) :
    (Ring.edges (first :: rest)).map Prod.snd = rest ++ [first] :=
  List.map_snd_zip (by simp)

/-! ## One ring -/

theorem crossings_of_zero (first size index : Nat) (es : List (Coord × Coord)) :
    Arena.crossings (nodesFrom first size 0 index es) = [] := by
  induction es generalizing index with
  | nil => rfl
  | cons e rest ih =>
    rw [nodesFrom_cons]
    simpa [Arena.crossings, nodeAt, leaves, advance] using ih (index + 1)

theorem offSides_eq_nil {ring : Ring} (zero : leadingSide ring = 0) : offSides ring = [] := by
  cases sides : offSides ring with
  | nil => rfl
  | cons side rest =>
    have member : side ∈ offSides ring := by rw [sides]; exact List.mem_cons_self
    have nonzero : side ≠ 0 := by simpa using (List.mem_filter.1 member).2
    rw [leadingSide_eq, sides] at zero
    exact absurd zero nonzero

theorem ofRings_singleton (ring : Ring) :
    Arena.ofRings [ring] = nodesFrom 0 ring.length (leadingSide ring) 0 ring.edges :=
  List.append_nil _

/-- A ring is balanced if its last edge leads back into the hemisphere in which it began. -/
theorem balanced_iff_sideAfter {ring : Ring} (nonzero : leadingSide ring ≠ 0) :
    Balanced ring ↔ sideAfter (leadingSide ring) ring.edges = leadingSide ring := by
  rw [Balanced, ofRings_singleton, sideAfter_eq (isSide_leadingSide ring) 0 ring.length 0]
  generalize (Arena.crossings _).length = count
  rcases Nat.even_or_odd count with even | odd
  · rw [even.neg_one_pow, one_mul]
    exact iff_of_true even rfl
  · rw [odd.neg_one_pow]
    exact iff_of_false (Nat.not_even_iff_odd.2 odd) (by omega)

/-- A ring meets the meridian circle an even number of times, unless it begins on the prime meridian
between different hemispheres. -/
theorem balanced_iff (ring : Ring) : Balanced ring ↔ ¬BeginsAstride ring := by
  by_cases zero : leadingSide ring = 0
  · have none : offSides ring = [] := offSides_eq_nil zero
    have uncrossed : Balanced ring := by
      rw [Balanced, ofRings_singleton, zero, crossings_of_zero]
      exact ⟨0, rfl⟩
    exact iff_of_true uncrossed fun astride => astride.2 (by rw [none]; rfl)
  · cases ring with
    | nil => exact absurd rfl zero
    | cons first rest =>
      rw [balanced_iff_sideAfter zero, sideAfter_eq_getLastD zero, edges_map_snd, offSides_append,
        leadingSide_eq]
      by_cases off : first.hemisphere = 0
      · -- the last hemisphere comes from before the first vertex
        rw [BeginsAstride, offSides_cons_of_zero off, offSides_cons_of_zero off]
        cases sides : offSides rest with
        | nil => simp [leadingSide_eq, offSides_cons_of_zero off, sides] at zero
        | cons side others => simp [off, List.getLast?_cons, eq_comm]
      · rw [offSides_cons_of_ne off, offSides_cons_of_ne off]
        simp [BeginsAstride, off]

/-! ## All rings -/

/-- The number of crossings does not depend on where the nodes of a ring stand. -/
theorem crossings_length_eq (first size index first' size' index' : Nat) (side : Int)
    (es : List (Coord × Coord)) :
    (Arena.crossings (nodesFrom first size side index es)).length =
      (Arena.crossings (nodesFrom first' size' side index' es)).length := by
  induction es generalizing side index index' with
  | nil => rfl
  | cons e rest ih =>
    have later := ih (index + 1) (index' + 1) (Split.advance side e)
    rw [nodesFrom_cons, nodesFrom_cons]
    cases leave : leaves side e.2 with
    | false => simpa [Arena.crossings, nodeAt, leave] using later
    | true => simpa [Arena.crossings, nodeAt, leave] using later

/-- The number of crossings is odd if an odd number of rings begin astride. -/
theorem odd_layOut_iff (offset : Nat) (rings : List Ring) :
    Odd (Arena.crossings (layOut offset rings)).length ↔
      Odd (rings.countP fun ring => BeginsAstride ring) := by
  induction rings generalizing offset with
  | nil => rfl
  | cons ring rest ih =>
    have alone : (Arena.crossings (ringNodes offset ring)).length =
        (Arena.ofRings [ring]).crossings.length := by
      rw [ofRings_singleton]
      exact crossings_length_eq ..
    have parts : Arena.crossings (layOut offset (ring :: rest)) =
        Arena.crossings (ringNodes offset ring) ++
          Arena.crossings (layOut (offset + ring.length) rest) := List.filterMap_append
    rw [parts, List.length_append, alone, Nat.odd_add', ih]
    change (_ ↔ Balanced ring) ↔ _
    rw [balanced_iff]
    by_cases astride : BeginsAstride ring
    · rw [List.countP_cons_of_pos (by simpa using astride), Nat.odd_add_one]
      simp [astride]
    · rw [List.countP_cons_of_neg (by simpa using astride)]
      simp [astride]

/-- A split is refused for an odd number of crossings exactly if the exterior has at least two
vertices and an odd number of the rings that are cut begin on the prime meridian between different
hemispheres. -/
theorem split_eq_oddCrossings_iff (p : Polygon) :
    (∃ n, p.split.result = .error (.oddCrossings n)) ↔
      2 ≤ p.exterior.length ∧ Odd ((cutRings p).countP fun ring => BeginsAstride ring) := by
  have parity : Odd (arenaOf p).crossings.length ↔
      Odd ((cutRings p).countP fun ring => BeginsAstride ring) := odd_layOut_iff 0 (cutRings p)
  simp only [split_result_iff]
  constructor
  · rintro ⟨n, outcome⟩
    cases outcome with
    | odd long odd => exact ⟨long, parity.1 odd⟩
  · rintro ⟨long, odd⟩
    exact ⟨_, .odd long (parity.2 odd)⟩

/-- A triangle across the antimeridian, listed from its vertex on the prime meridian. -/
def wedge : Polygon := ⟨[⟨0.2, 0⟩, ⟨0.2, 3⟩, ⟨0, -3⟩], []⟩

/-- The wedge cannot be split as it is listed, but listed from its next vertex it can. -/
theorem wedge_split_odd : 2 ≤ wedge.exterior.length ∧
    (∀ ring ∈ wedge.rings, ∀ c ∈ ring, c.Proper) ∧
    wedge.split.result = .error (.oddCrossings 1) ∧
    (Polygon.mk (wedge.exterior.rotate 1) wedge.holes).split.result.isOk = true := by
  have count : (arenaOf wedge).crossings.length = 1 := by decide +kernel
  have odd : Odd (arenaOf wedge).crossings.length := by rw [count]; decide
  refine ⟨by decide, by decide +kernel, ?_, by decide +kernel⟩
  rw [← count]
  exact split_result_iff.2 (.odd (by decide) odd)

end Antimeridian.Split
