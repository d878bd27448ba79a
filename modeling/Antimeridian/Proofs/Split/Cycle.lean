import Antimeridian.Proofs.Split.Joined

/-!
# Tours are cycles

In a consistent arena the steps of a walk can be undone, since each of them goes along a pair of
joined headings.  So a walk that passes every vertex once can only end where it began, and in the
direction in which it began: at another vertex it would have two predecessors, and against its own
direction it would have to turn around on the way.  The vertices left unused by a tour are closed
under steps again, and the next tour cannot run into an earlier one.
-/

namespace Antimeridian.Split

section

variable {arena : Arena} {meridian : Meridian} {side : Int} {h stop : Heading}
  {path : List (Heading × Step)}

/-- A step of a walk in the hemisphere `side`, as a way between joined headings. -/
def Sidewise (arena : Arena) (meridian : Meridian) (side : Int) (x : Heading × Step) : Prop :=
  ∃ node via, arena[x.1.index]? = some node ∧ node.side = side ∧ x.2.passed = node.coord :: via ∧
    Joined arena meridian side x.1 via x.2.target.turned

/-- The hemisphere is kept along a path. -/
theorem Path.sidewise (consistent : Consistent arena meridian)
    (chain : Path arena meridian side h path stop) {node : Node}
    (here : arena[h.index]? = some node) (inSide : node.side = side) :
    (∀ x ∈ path, Sidewise arena meridian side x) ∧
      ∃ last, arena[stop.index]? = some last ∧ last.side = side := by
  induction chain generalizing node with
  | nil h => exact ⟨by simp, node, here, inSide⟩
  | @cons h stop s path stepped rest ih =>
    obtain ⟨via, k, other, joined, place, otherSide⟩ := consistent.exists_joined here inSide
    rw [joined.step consistent.linked here] at stepped
    obtain rfl := Except.ok.inj stepped
    obtain ⟨sidewise, last⟩ := ih place otherSide
    refine ⟨?_, last⟩
    intro x member
    rcases List.mem_cons.1 member with rfl | later
    · exact ⟨node, via, here, inSide, rfl, by simpa using joined⟩
    · exact sidewise x later

/-- Each step ends where the next one begins. -/
theorem Path.targets (chain : Path arena meridian side h path stop) :
    h :: path.map (fun x => x.2.target) = path.map (fun x => x.1) ++ [stop] := by
  induction chain with
  | nil h => rfl
  | cons stepped rest ih => rw [List.map_cons, List.map_cons, List.cons_append, ← ih]

/-- Steps to one target begin at one heading. -/
theorem Sidewise.injective (linked : Linked arena) {x y : Heading × Step}
    (first : Sidewise arena meridian side x) (second : Sidewise arena meridian side y)
    (equal : x.2.target = y.2.target) : x.1 = y.1 := by
  obtain ⟨-, via, -, -, -, joined⟩ := first
  obtain ⟨-, via', -, -, -, joined'⟩ := second
  rw [equal] at joined
  exact (joined.symm.unique linked joined'.symm).2

/-- A path that passes no vertex twice has no target twice. -/
theorem nodup_targets (linked : Linked arena)
    (sidewise : ∀ x ∈ path, Sidewise arena meridian side x)
    (distinct : (path.map fun x => x.1.index).Nodup) : (path.map fun x => x.2.target).Nodup := by
  apply List.Nodup.map_on _ (List.Nodup.of_map _ distinct)
  intro x xIn y yIn equal
  apply List.inj_on_of_nodup_map distinct xIn yIn
  rw [(sidewise x xIn).injective linked (sidewise y yIn) equal]

/-- A path that passes no vertex twice returns to where it began, if it returns at all. -/
theorem Path.returns (linked : Linked arena) (chain : Path arena meridian side h path stop)
    (sidewise : ∀ x ∈ path, Sidewise arena meridian side x)
    (distinct : (path.map fun x => x.1.index).Nodup)
    (returned : stop.index ∈ path.map fun x => x.1.index) : stop = h := by
  have targets := chain.targets
  by_contra elsewhere
  have ending : stop ∈ path.map fun x => x.2.target := by
    have : stop ∈ h :: path.map fun x => x.2.target := by rw [targets]; simp
    exact (List.mem_cons.1 this).resolve_left elsewhere
  obtain ⟨x, xIn, place⟩ := List.mem_map.1 returned
  rcases Heading.eq_or_eq_turned place.symm with same | opposite
  · -- two steps would lead to `stop`, the last one and the one before `x`
    have once := List.nodup_iff_count_le_one.1 (nodup_targets linked sidewise distinct) stop
    have before : 0 < (path.map fun x => x.1).count stop := by
      rw [List.count_pos_iff, same]
      exact List.mem_map_of_mem xIn
    have counts := congrArg (List.count stop) targets
    rw [List.count_cons_of_ne (Ne.symm elsewhere), List.count_append, List.count_singleton_self]
      at counts
    omega
  · -- the last step `z` would lead to where `x` comes from, so the step after `x` undoes `z`
    obtain ⟨z, zIn, zTarget⟩ := List.mem_map.1 ending
    obtain ⟨-, via, -, -, -, last⟩ := sidewise z zIn
    rw [zTarget, opposite, Heading.turned_turned] at last
    obtain ⟨-, via', -, -, -, out⟩ := sidewise x xIn
    have undo : x.2.target.turned = z.1 := (out.unique linked last.symm).2
    have xTarget : x.2.target ∈ path.map (fun x => x.1) ++ [stop] := by
      rw [← targets]
      exact List.mem_cons_of_mem _ (List.mem_map_of_mem xIn)
    rcases List.mem_append.1 xTarget with inside | final
    · obtain ⟨y, yIn, yHead⟩ := List.mem_map.1 inside
      have equal : y = z := by
        apply List.inj_on_of_nodup_map distinct yIn zIn
        rw [yHead, ← undo]
        rfl
      rw [← equal, ← yHead] at undo
      exact Heading.turned_ne _ undo
    · rw [List.mem_singleton.1 final, opposite, Heading.turned_turned] at undo
      rw [← undo] at last
      exact last.ne linked rfl

end

/-! ## Closed sets of vertices -/

/-- No way leads out of the indices in `left`. -/
def Closed (arena : Arena) (meridian : Meridian) (left : List Nat) : Prop :=
  ∀ {h k : Heading} {node : Node} {via : List Coord}, h.index ∈ left →
    arena[h.index]? = some node → Joined arena meridian node.side h via k → k.index ∈ left

/-- No step leaves the arena. -/
theorem closed_range {arena : Arena} {meridian : Meridian} (linked : Linked arena) :
    Closed arena meridian (List.range arena.length) := by
  intro h k node via member here joined
  obtain ⟨other, place⟩ := joined.symm.node linked
  exact List.mem_range.2 (List.getElem?_eq_some_iff.1 place).1

/-- A tour that keeps to its hemisphere and comes back to its start. -/
structure Circuit (arena : Arena) (meridian : Meridian) (left : List Nat) (t : Tour)
    (path : List (Heading × Step)) : Prop where
  follows : Follows arena meridian t.side left ⟨t.start, true⟩ t.walk path
  sidewise : ∀ x ∈ path, Sidewise arena meridian t.side x
  stop : t.walk.stop = ⟨t.start, true⟩

section

variable {arena : Arena} {meridian : Meridian} {left : List Nat} {t : Tour}
  {path : List (Heading × Step)}

theorem Follows.mem_left {side : Int} {h : Heading} {w : Walk}
    (follows : Follows arena meridian side left h w path) {x : Heading × Step} (member : x ∈ path) :
    x.1.index ∈ left := by
  apply follows.used.mem_iff.1
  rw [follows.visited]
  exact List.mem_append_left _ (List.mem_map_of_mem member)

/-- A walk stands on every vertex once at most and uses it up. -/
theorem Follows.nodup {side : Int} {h : Heading} {w : Walk}
    (follows : Follows arena meridian side left h w path) (distinct : left.Nodup) :
    (path.map fun x => x.1.index).Nodup ∧
      ∀ x ∈ path, x.1.index ∉ w.left := by
  have split := List.nodup_append.1 (follows.used.nodup_iff.2 distinct)
  rw [follows.visited] at split
  refine ⟨split.1, ?_⟩
  intro x member unused
  exact split.2.2 _ (List.mem_map_of_mem member) _ unused rfl

/-- In a closed set of vertices a tour is a circuit. -/
theorem exists_circuit (consistent : Consistent arena meridian) {start : Nat}
    (ok : tourAt arena meridian (start :: left) start = .ok t)
    (closed : Closed arena meridian (start :: left)) (distinct : (start :: left).Nodup) :
    ∃ path, Circuit arena meridian (start :: left) t path := by
  obtain ⟨rfl, node, here, inSide, path, follows⟩ := exists_follows_tour ok
  obtain ⟨sidewise, -⟩ := follows.chain.sidewise consistent here inSide.symm
  refine ⟨path, follows, sidewise, ?_⟩
  have targetsIn : ∀ x ∈ path, x.2.target.index ∈ t.start :: left := by
    intro x member
    obtain ⟨node', via, place, nodeSide, -, joined⟩ := sidewise x member
    rw [← nodeSide] at joined
    have inLeft := closed (follows.mem_left member) place joined
    exact inLeft
  have stopIn : t.walk.stop.index ∈ t.start :: left := by
    have ending : t.walk.stop ∈ ⟨t.start, true⟩ :: path.map fun x => x.2.target := by
      rw [follows.chain.targets]; simp
    rcases List.mem_cons.1 ending with first | later
    · rw [first]
      exact List.mem_cons_self
    · obtain ⟨x, member, target⟩ := List.mem_map.1 later
      rw [← target]
      exact targetsIn x member
  have used := List.mem_append.1 (follows.used.mem_iff.2 stopIn)
  rw [follows.visited] at used
  exact follows.chain.returns consistent.linked sidewise (follows.nodup distinct).1
    (used.resolve_right follows.stop)

/-- The steps of a circuit end where its steps begin. -/
theorem Circuit.targets_perm (circuit : Circuit arena meridian left t path) :
    (path.map fun x => x.2.target).Perm (path.map fun x => x.1) := by
  have targets := circuit.follows.chain.targets
  rw [circuit.stop] at targets
  have perm : (⟨t.start, true⟩ :: path.map fun x => x.2.target).Perm
      (⟨t.start, true⟩ :: path.map fun x => x.1) := by
    rw [targets]
    exact List.perm_append_singleton _ _
  exact perm.cons_inv

/-- What a circuit leaves unused is closed. -/
theorem Circuit.closed (circuit : Circuit arena meridian left t path)
    (consistent : Consistent arena meridian) (distinct : left.Nodup)
    (closed : Closed arena meridian left) : Closed arena meridian t.walk.left := by
  intro h k node via unused here joined
  have follows := circuit.follows
  have linked := consistent.linked
  have inLeft := closed (follows.used.mem_iff.1 (List.mem_append_right _ unused)) here joined
  rcases List.mem_append.1 (follows.used.mem_iff.2 inLeft) with used | still
  swap
  · exact still
  exfalso
  rw [follows.visited] at used
  obtain ⟨x, xIn, place⟩ := List.mem_map.1 used
  have apart := (follows.nodup distinct).2
  obtain ⟨xNode, viaX, xHere, xSide, -, out⟩ := circuit.sidewise x xIn
  have oneSide : node.side = t.side := by
    obtain ⟨via', k', other, joined', kHere, kSide⟩ := consistent.exists_joined here rfl
    obtain ⟨-, rfl⟩ := joined.unique linked joined'
    rw [← place, xHere] at kHere
    obtain rfl := Option.some.inj kHere
    exact kSide.symm.trans xSide
  rw [oneSide] at joined
  -- the way from `h` would be undone by the step from `x` or repeat the step to `x`
  rcases Heading.eq_or_eq_turned place.symm with rfl | rfl
  · have undo := (joined.symm.unique linked out).2
    obtain ⟨y, yIn, yHead⟩ := List.mem_map.1
      (circuit.targets_perm.mem_iff.1 (List.mem_map_of_mem xIn))
    apply apart y yIn
    rw [yHead, ← Heading.turned_index, ← undo]
    exact unused
  · obtain ⟨y, yIn, yTarget⟩ := List.mem_map.1
      (circuit.targets_perm.mem_iff.2 (List.mem_map_of_mem xIn))
    obtain ⟨-, viaY, -, -, -, into⟩ := circuit.sidewise y yIn
    rw [yTarget] at into
    apply apart y yIn
    rw [(into.symm.unique linked joined.symm).2]
    exact unused

/-- A tour of a closed set of vertices is a circuit in the closed set that the tours before it have
left unused. -/
theorem Touring.exists_circuit (consistent : Consistent arena meridian) {ts : List Tour}
    (touring : Touring arena meridian left ts) (closed : Closed arena meridian left)
    (distinct : left.Nodup) {before after : List Tour} (listed : ts = before ++ t :: after) :
    ∃ unused path, tourAt arena meridian unused t.start = .ok t ∧ t.start ∈ unused ∧
      Circuit arena meridian unused t path ∧ unused.Nodup ∧ Closed arena meridian unused ∧
      (before.flatMap (fun s => s.walk.visited) ++ unused).Perm left := by
  induction touring generalizing before with
  | done => simp at listed
  | @tour start left s rest toured others ih =>
    obtain ⟨path, circuit⟩ := Split.exists_circuit consistent toured closed distinct
    cases before with
    | nil =>
      obtain ⟨rfl, -⟩ := List.cons.inj listed
      obtain ⟨rfl, -⟩ := exists_follows_tour toured
      exact ⟨_, path, toured, List.mem_cons_self, circuit, distinct, closed, .refl _⟩
    | cons first before =>
      -- what the first tour leaves is closed again, so the later ones are circuits in it
      obtain ⟨rfl, later⟩ := List.cons.inj listed
      have used := circuit.follows.used
      have stillDistinct := (List.nodup_append.1 (used.nodup_iff.2 distinct)).2.1
      obtain ⟨unused, path', called, member, circuit', distinct', closed', perm⟩ :=
        ih (circuit.closed consistent distinct closed) stillDistinct later
      refine ⟨unused, path', called, member, circuit', distinct', closed', ?_⟩
      rw [List.flatMap_cons, List.append_assoc]
      exact (perm.append_left _).trans used

/-- All tours of a closed set of vertices are circuits, each in a closed set. -/
theorem Touring.circuits (consistent : Consistent arena meridian) {ts : List Tour}
    (touring : Touring arena meridian left ts) (closed : Closed arena meridian left)
    (distinct : left.Nodup) : ∀ t ∈ ts, ∃ left path, Circuit arena meridian left t path ∧
      left.Nodup ∧ Closed arena meridian left := by
  intro t member
  obtain ⟨before, after, listed⟩ := List.append_of_mem member
  obtain ⟨unused, path, -, -, circuit, distinct', closed', -⟩ :=
    touring.exists_circuit consistent closed distinct listed
  exact ⟨unused, path, circuit, distinct', closed'⟩

end

end Antimeridian.Split
