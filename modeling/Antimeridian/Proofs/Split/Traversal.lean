import Antimeridian.Proofs.Outline
import Antimeridian.Proofs.Split.Cycle

/-!
# What the tours draw

Every way between two joined headings is gone once, from one of its ends.  Counted from both ends, a
circuit draws at each of its vertices the ways of both headings there, so the tours of an arena draw,
counted twice, the ways of all headings.  Leaving out repeated vertices does not change a drawing.
-/

namespace Antimeridian.Split

/-! ## Repeated vertices -/

theorem outline_withoutRepeatsAfter (last : Coord) (ring : Ring) (final : Coord) :
    outline (trail (last :: withoutRepeatsAfter last ring ++ [final])) =
      outline (trail (last :: ring ++ [final])) := by
  induction ring generalizing last with
  | nil => rfl
  | cons a rest ih =>
    rw [withoutRepeatsAfter]
    simp only [List.cons_append, trail]
    rw [outline_cons]
    split
    · rename_i equal
      have one := Coord.spot_eq_of_same equal
      rw [outline_eq_zero one, zero_add, ← outline_trail_congr one]
      exact ih last
    · rw [List.cons_append, trail, outline_cons, ← List.cons_append, ih a, List.cons_append]

theorem outline_withoutRepeats (ring : Ring) :
    outline (withoutRepeats ring).edges = outline ring.edges := by
  cases ring with
  | nil => rfl
  | cons a rest =>
    rw [withoutRepeats, Ring.edges, Ring.edges, cyclicPairs_cons, cyclicPairs_cons]
    exact outline_withoutRepeatsAfter a rest a

theorem mem_spots_withoutRepeatsAfter (last : Coord) (ring : Ring) (s : Spot) :
    s ∈ (last :: withoutRepeatsAfter last ring).map Coord.spot ↔
      s ∈ (last :: ring).map Coord.spot := by
  induction ring generalizing last with
  | nil => rfl
  | cons a rest ih =>
    rw [withoutRepeatsAfter]
    split
    · rename_i equal
      have one := Coord.spot_eq_of_same equal
      rw [ih last]
      simp [one]
    · have kept := ih a
      simp only [List.map_cons, List.mem_cons] at kept ⊢
      rw [kept]

/-- No spot is lost. -/
theorem mem_spots_withoutRepeats (ring : Ring) (s : Spot) :
    s ∈ (withoutRepeats ring).map Coord.spot ↔ s ∈ ring.map Coord.spot := by
  cases ring with
  | nil => rfl
  | cons a rest => exact mem_spots_withoutRepeatsAfter a rest s

/-! ## The way from a heading -/

/-- The coordinate of the vertex with an index. -/
def Arena.coordAt (arena : Arena) (i : Nat) : Coord := (arena[i]?.map Node.coord).getD .origin

/-- The points from a heading to the next vertex in its hemisphere. -/
def reach (arena : Arena) (meridian : Meridian) (h : Heading) : List Coord :=
  match arena[h.index]? with
  | none => []
  | some node =>
    match step arena meridian node.side h with
    | .error _ => []
    | .ok s => s.passed ++ [arena.coordAt s.target.index]

/-- What the way from a heading draws. -/
noncomputable def drawn (arena : Arena) (meridian : Meridian) (h : Heading) : Drawing :=
  outline (trail (reach arena meridian h))

/-- What the ways from both headings at a vertex draw. -/
noncomputable def drawnAt (arena : Arena) (meridian : Meridian) (i : Nat) : Drawing :=
  drawn arena meridian ⟨i, true⟩ + drawn arena meridian ⟨i, false⟩

section

variable {arena : Arena} {meridian : Meridian} {side : Int} {h k : Heading} {via : List Coord}

theorem Arena.coordAt_eq {i : Nat} {node : Node} (found : arena[i]? = some node) :
    arena.coordAt i = node.coord := by
  rw [Arena.coordAt, found]
  rfl

theorem drawn_add_turned (h : Heading) :
    drawn arena meridian h + drawn arena meridian h.turned = drawnAt arena meridian h.index := by
  obtain ⟨i, forward⟩ := h
  cases forward with
  | true => rfl
  | false => exact add_comm _ _

theorem Joined.reach_eq (linked : Linked arena) (joined : Joined arena meridian side h via k)
    {node : Node} (here : arena[h.index]? = some node) (inSide : node.side = side) :
    reach arena meridian h = arena.coordAt h.index :: via ++ [arena.coordAt k.index] := by
  subst inSide
  unfold reach
  rw [here]
  simp only [joined.step linked here, Arena.coordAt_eq here]
  rfl

/-- A way draws the same from both of its ends. -/
theorem Joined.drawn_eq (linked : Linked arena) (joined : Joined arena meridian side h via k)
    {node other : Node} (here : arena[h.index]? = some node) (inSide : node.side = side)
    (there : arena[k.index]? = some other) (inSide' : other.side = side) :
    drawn arena meridian k = drawn arena meridian h := by
  have back : reach arena meridian k = (reach arena meridian h).reverse := by
    rw [joined.reach_eq linked here inSide, joined.symm.reach_eq linked there inSide']
    simp
  rw [drawn, back, outline_trail_reverse, drawn]

/-- A step leads to a vertex of the same hemisphere. -/
theorem Sidewise.target (consistent : Consistent arena meridian) {x : Heading × Step}
    (sidewise : Sidewise arena meridian side x) :
    ∃ other, arena[x.2.target.index]? = some other ∧ other.side = side := by
  obtain ⟨node, via, here, inSide, -, joined⟩ := sidewise
  obtain ⟨via', k, other, joined', there, otherSide⟩ := consistent.exists_joined here inSide
  obtain ⟨-, rfl⟩ := joined.unique consistent.linked joined'
  exact ⟨other, there, otherSide⟩

theorem Sidewise.reach_eq (linked : Linked arena) {x : Heading × Step}
    (sidewise : Sidewise arena meridian side x) : reach arena meridian x.1 =
      x.2.passed ++ [arena.coordAt x.2.target.index] := by
  obtain ⟨node, via, here, inSide, passed, joined⟩ := sidewise
  rw [joined.reach_eq linked here inSide, passed, Arena.coordAt_eq here]
  rfl

theorem Sidewise.drawn_target (consistent : Consistent arena meridian) {x : Heading × Step}
    (sidewise : Sidewise arena meridian side x) :
    drawn arena meridian x.2.target.turned = drawn arena meridian x.1 := by
  obtain ⟨other, there, otherSide⟩ := sidewise.target consistent
  obtain ⟨node, via, here, inSide, -, joined⟩ := sidewise
  exact joined.drawn_eq consistent.linked here inSide there otherSide

end

/-! ## Circuits -/

section

variable {arena : Arena} {meridian : Meridian} {side : Int} {h stop : Heading}
  {path : List (Heading × Step)}

/-- The points of a path begin with the vertex at which it begins. -/
theorem Path.passed_eq (chain : Path arena meridian side h path stop)
    (sidewise : ∀ x ∈ path, Sidewise arena meridian side x) :
    ∃ rest, path.flatMap (fun x => x.2.passed) ++ [arena.coordAt stop.index] =
      arena.coordAt h.index :: rest := by
  cases chain with
  | nil => exact ⟨[], rfl⟩
  | @cons h stop s path stepped rest =>
    obtain ⟨node, via, here, -, passed, -⟩ := sidewise _ List.mem_cons_self
    change s.passed = _ at passed
    rw [Arena.coordAt_eq here, List.flatMap_cons, passed]
    exact ⟨_, rfl⟩

/-- A path draws the ways of its steps. -/
theorem Path.outline_eq (linked : Linked arena) (chain : Path arena meridian side h path stop)
    (sidewise : ∀ x ∈ path, Sidewise arena meridian side x) :
    outline (trail (path.flatMap (fun x => x.2.passed) ++ [arena.coordAt stop.index])) =
      (path.map fun x => drawn arena meridian x.1).sum := by
  induction chain with
  | nil => simp [trail]
  | @cons h stop s path stepped rest ih =>
    have later : ∀ x ∈ path, Sidewise arena meridian side x := by
      intro x member
      exact sidewise x (List.mem_cons_of_mem _ member)
    have first := (sidewise _ List.mem_cons_self).reach_eq linked
    obtain ⟨others, start⟩ := rest.passed_eq later
    rw [List.map_cons, List.sum_cons, ← ih later, drawn, first, List.flatMap_cons,
      List.append_assoc, start, trail_append, outline_append]

variable {left : List Nat} {t : Tour}

/-- The exterior of a part shows the ways of its circuit. -/
theorem Circuit.outline_exterior (linked : Linked arena)
    (circuit : Circuit arena meridian left t path) :
    outline t.part.exterior.edges = (path.map fun x => drawn arena meridian x.1).sum := by
  have follows := circuit.follows
  have whole := follows.chain.outline_eq linked circuit.sidewise
  obtain ⟨rest, start⟩ := follows.chain.passed_eq circuit.sidewise
  rw [← follows.passed, circuit.stop] at whole start
  rw [← whole, Tour.part, outline_withoutRepeats]
  cases passed : t.walk.passed with
  | nil => simp [Ring.edges, cyclicPairs, trail]
  | cons a others =>
    rw [passed] at start
    rw [Ring.edges, cyclicPairs_cons, (List.cons.inj start).1]

/-- Counted twice, the exterior of a part shows the ways from the vertices that its tour visits. -/
theorem Circuit.twice_outline (consistent : Consistent arena meridian)
    (circuit : Circuit arena meridian left t path) :
    outline t.part.exterior.edges + outline t.part.exterior.edges =
      (t.walk.visited.map (drawnAt arena meridian)).sum := by
  have back : (path.map fun x => drawn arena meridian x.1).sum =
      (path.map fun x => drawn arena meridian x.1.turned).sum := by
    have turned := circuit.targets_perm.map fun h => drawn arena meridian h.turned
    rw [List.map_map, List.map_map] at turned
    refine Eq.trans (congrArg List.sum (List.map_congr_left fun x member => ?_)) turned.sum_eq
    exact ((circuit.sidewise x member).drawn_target consistent).symm
  have both : t.walk.visited.map (drawnAt arena meridian) =
      path.map fun x => drawn arena meridian x.1 + drawn arena meridian x.1.turned := by
    rw [circuit.follows.visited, List.map_map]
    exact List.map_congr_left fun x _ => (drawn_add_turned x.1).symm
  rw [both, List.sum_map_add, ← back, circuit.outline_exterior consistent.linked]

/-- Counted twice, the exteriors of all parts show the ways of all headings. -/
theorem twice_outline_tours (consistent : Consistent arena meridian) {ts : List Tour}
    (toured : tours arena meridian = .ok ts) :
    outline (ts.flatMap fun t => t.part.exterior.edges) +
        outline (ts.flatMap fun t => t.part.exterior.edges) =
      ((List.range arena.length).map (drawnAt arena meridian)).sum := by
  have touring := touring_of_tours toured
  have circuits := touring.circuits consistent (closed_range consistent.linked) List.nodup_range
  rw [outline_flatMap, ← List.sum_map_add, ← (touring.visited_perm.map _).sum_eq, List.map_flatMap,
    List.flatMap_def, List.sum_flatten, List.map_map]
  refine congrArg List.sum (List.map_congr_left fun t member => ?_)
  obtain ⟨left, path, circuit, -⟩ := circuits t member
  exact circuit.twice_outline consistent

end

end Antimeridian.Split
