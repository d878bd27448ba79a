import Antimeridian.Proofs.Split.Parity
import Antimeridian.Proofs.Split.Reach

/-!
# Every tour returns to its start

If every ring meets the meridian circle an even number of times, then all tours are circuits.  Each
of them is followed here from the call that begins it, with the vertices that are unused then: these
are the ones that no earlier tour has visited.  The tour visits only such vertices, each of them once
and all of them in the hemisphere of its start.  The first used vertex that it comes to is its start,
in the order of the ring.
-/

namespace Antimeridian.Split

/-- Rings that each have an even number of crossings have an even number of them together. -/
theorem even_crossings_of_balanced {rings : List Ring}
    (balanced : ∀ ring ∈ rings, Balanced ring) : Even (Arena.ofRings rings).crossings.length := by
  have none : rings.countP (fun ring => BeginsAstride ring) = 0 := by
    rw [List.countP_eq_zero]
    intro ring member
    simpa using (balanced_iff ring).1 (balanced ring member)
  rw [← Nat.not_odd_iff_even, Arena.ofRings, odd_layOut_iff, none]
  decide

/-- A tour, begun while the vertices `unused` are unused, that comes back to its start. -/
structure Returns (arena : Arena) (meridian : Meridian) (unused : List Nat) (t : Tour) : Prop where
  side : ∃ node, arena[t.start]? = some node ∧ node.side = t.side
  /-- Steps in a row lead from the start to the start, in the order of the ring at both ends. -/
  steps : ∃ path, Path arena meridian t.side ⟨t.start, true⟩ path ⟨t.start, true⟩ ∧
    t.walk.visited = path.map fun x => x.1.index
  visited : ∀ i ∈ t.walk.visited, i ∈ unused ∧ ∃ node, arena[i]? = some node ∧ node.side = t.side
  /-- No vertex is used again on the way. -/
  distinct : t.walk.visited.Nodup
  /-- The walk stops where it began, since that vertex is used by then. -/
  stop : t.walk.stop = ⟨t.start, true⟩ ∧ t.start ∈ t.walk.visited

section

variable {arena : Arena} {meridian : Meridian} {unused : List Nat} {t : Tour}
  {path : List (Heading × Step)}

/-- A circuit visits unused vertices of its hemisphere. -/
theorem Circuit.node_of_visited (circuit : Circuit arena meridian unused t path) {i : Nat}
    (visited : i ∈ t.walk.visited) :
    i ∈ unused ∧ ∃ node, arena[i]? = some node ∧ node.side = t.side := by
  rw [circuit.follows.visited] at visited
  obtain ⟨x, inPath, rfl⟩ := List.mem_map.1 visited
  obtain ⟨node, -, here, side, -⟩ := circuit.sidewise x inPath
  exact ⟨circuit.follows.mem_left inPath, node, here, side⟩

theorem Circuit.returns (circuit : Circuit arena meridian unused t path)
    (distinct : unused.Nodup) (member : t.start ∈ unused) : Returns arena meridian unused t where
  side := (circuit.node_of_visited (circuit.follows.mem_visited member)).2
  steps := by
    have chain := circuit.follows.chain
    rw [circuit.stop] at chain
    exact ⟨path, chain, circuit.follows.visited⟩
  visited _ := circuit.node_of_visited
  distinct := by
    rw [circuit.follows.visited]
    exact (circuit.follows.nodup distinct).1
  stop := ⟨circuit.stop, circuit.follows.mem_visited member⟩

end

/-- The vertices that are unused at a call are those that no earlier tour visited. -/
theorem mem_unused_iff {size : Nat} {before : List Tour} {unused : List Nat}
    (perm : (before.flatMap (fun s => s.walk.visited) ++ unused).Perm (List.range size)) (i : Nat) :
    i ∈ unused ↔ i < size ∧ ∀ s ∈ before, i ∉ s.walk.visited := by
  have all : i < size ↔ (∃ s ∈ before, i ∈ s.walk.visited) ∨ i ∈ unused := by
    rw [← List.mem_range, ← perm.mem_iff, List.mem_append, List.mem_flatMap]
  have apart := (List.nodup_append.1 (perm.nodup_iff.2 List.nodup_range)).2.2
  constructor
  · intro member
    refine ⟨all.2 (Or.inr member), fun s inBefore visited => ?_⟩
    exact apart i (List.mem_flatMap.2 ⟨s, inBefore, visited⟩) i member rfl
  · rintro ⟨below, unvisited⟩
    refine (all.1 below).resolve_left ?_
    rintro ⟨s, inBefore, visited⟩
    exact unvisited s inBefore visited

/-- If every ring has an even number of crossings, all tours succeed and return to their starts, each
over vertices that are unused when it is begun. -/
theorem tours_return {rings : List Ring} (balanced : ∀ ring ∈ rings, Balanced ring) :
    ∃ ts, tours (Arena.ofRings rings) (.ofCrossings (Arena.ofRings rings).crossings) = .ok ts ∧
      ∀ before t after, ts = before ++ t :: after → ∃ unused,
        tourAt (Arena.ofRings rings) (.ofCrossings (Arena.ofRings rings).crossings) unused t.start =
          .ok t ∧
        (∀ i, i ∈ unused ↔
          i < (Arena.ofRings rings).length ∧ ∀ s ∈ before, i ∉ s.walk.visited) ∧
        Returns (Arena.ofRings rings) (.ofCrossings (Arena.ofRings rings).crossings) unused t := by
  have consistent := ofRings_consistent balanced (even_crossings_of_balanced balanced)
  obtain ⟨ts, toured⟩ := consistent.toSound.exists_tours
  refine ⟨ts, toured, fun before t after listed => ?_⟩
  obtain ⟨unused, path, called, member, circuit, distinct, -, perm⟩ :=
    (touring_of_tours toured).exists_circuit consistent (closed_range consistent.linked)
      List.nodup_range listed
  exact ⟨unused, called, mem_unused_iff perm, circuit.returns distinct member⟩

/-- The two rings of a frame across the antimeridian. -/
def frame : List Ring :=
  [[⟨1, 3⟩, ⟨1, -3⟩, ⟨-1, -3⟩, ⟨-1, 3⟩],
   [⟨0.5, 3⟩, ⟨0.5, -3⟩, ⟨-0.5, -3⟩, ⟨-0.5, 3⟩]]

-- each tour changes from one ring to the other and back
theorem tours_return_frame : (∀ ring ∈ frame, Balanced ring) ∧
    ∃ ts, tours (Arena.ofRings frame) (.ofCrossings (Arena.ofRings frame).crossings) = .ok ts ∧
      ts.map (fun t => (t.start, t.walk.visited)) = [(0, [0, 4, 7, 3]), (1, [1, 2, 6, 5])] ∧
      ∀ t ∈ ts, t.walk.stop = ⟨t.start, true⟩ := by
  have balanced : ∀ ring ∈ frame, Balanced ring := by decide +kernel
  obtain ⟨ts, toured, returns⟩ := tours_return balanced
  have visited : (tours (Arena.ofRings frame)
      (.ofCrossings (Arena.ofRings frame).crossings)).toOption.map
        (fun ts => ts.map fun t => (t.start, t.walk.visited)) =
      some [(0, [0, 4, 7, 3]), (1, [1, 2, 6, 5])] := by decide +kernel
  rw [toured] at visited
  refine ⟨balanced, ts, toured, Option.some.inj visited, fun t member => ?_⟩
  obtain ⟨before, after, listed⟩ := List.append_of_mem member
  obtain ⟨unused, -, -, returned⟩ := returns before t after listed
  exact returned.stop.1

end Antimeridian.Split
