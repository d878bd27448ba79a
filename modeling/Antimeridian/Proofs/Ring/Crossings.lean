import Antimeridian.Proofs.Double.Opposite
import Antimeridian.Proofs.Ring.Listing

/-!
# Crossings of a closed curve

How often a ring crosses the antimeridian does not depend on how its vertices are listed.  Listed
from another vertex it has the same edges, listed backwards it has the opposite ones, and a vertex
that is listed again adds an edge from that vertex to itself.  Whether an edge crosses is the
same in both directions: the longitudes subtracted the other way round give the opposite difference,
exactly and for any doubles.
-/

namespace Antimeridian

/-- An edge crosses the antimeridian in both directions or in none. -/
theorem crosses_comm (a b : Coord) : crosses a b = crosses b a := by
  have turned : Double.number (b.lng - a.lng) = Double.number (-(a.lng - b.lng)) := by
    rw [Double.number_sub_swap, Double.number_neg]
  have distance : (a.lng - b.lng).abs = (b.lng - a.lng).abs := by
    rw [Double.abs_congr turned, Double.abs_neg]
  simp only [crosses, distance, ne_comm]

/-- An edge of no length does not cross. -/
theorem crosses_self (a : Coord) : crosses a a = false := by
  simp [crosses]

/-- Backwards, a line has its edges the other way round. -/
theorem trail_reverse (l : List Coord) : trail l.reverse = ((trail l).map Prod.swap).reverse := by
  induction l with
  | nil => rfl
  | cons a rest ih =>
    cases rest with
    | nil => rfl
    | cons b rest =>
      rw [List.reverse_cons, List.reverse_cons, List.append_assoc, List.singleton_append,
        trail_append, ← List.reverse_cons, ih]
      simp [trail]

namespace Ring

/-- Backwards, a ring has its edges the other way round. -/
theorem edges_reverse_perm (ring : Ring) :
    (edges ring.reverse).Perm (ring.edges.map Prod.swap) := by
  cases ring with
  | nil => exact .refl _
  | cons first rest =>
    -- the list backwards begins with the last vertex; rotated, it begins with the first one again
    have listed : (first :: rest).reverse = (first :: rest.reverse).rotate 1 := by
      rw [List.reverse_cons, List.rotate_cons_succ, List.rotate_zero]
    have around : first :: rest.reverse ++ [first] = (first :: rest ++ [first]).reverse := by simp
    rw [listed, edges_rotate, edges, cyclicPairs_cons, around, trail_reverse, edges,
      cyclicPairs_cons]
    exact (List.rotate_perm _ 1).trans (List.reverse_perm _)

theorem crossings_rotate (ring : Ring) (k : Nat) : crossings (ring.rotate k) = ring.crossings := by
  rw [crossings, edges_rotate]
  exact (List.rotate_perm _ k).countP_eq _

theorem crossings_reverse (ring : Ring) : crossings ring.reverse = ring.crossings := by
  rw [crossings, (edges_reverse_perm ring).countP_eq, List.countP_map, crossings]
  refine List.countP_congr fun e _ => ?_
  change Antimeridian.crosses e.2 e.1 = true ↔ Antimeridian.crosses e.1 e.2 = true
  rw [crosses_comm]

/-- Loops at vertices do not cross. -/
theorem crossings_of_stutters {ring other : Ring} (stutters : Stutters ring other) :
    crossings other = ring.crossings := by
  obtain ⟨loops, each, perm⟩ := edges_of_stutters stutters
  have none : loops.countP (fun e => Antimeridian.crosses e.1 e.2) = 0 := by
    rw [List.countP_eq_zero]
    intro e member
    obtain ⟨v, -, rfl⟩ := each e member
    simp [crosses_self]
  rw [crossings, perm.countP_eq, List.countP_append, crossings]
  exact (congrArg (· + _) none).trans (Nat.zero_add _)

/-- The number of times that a ring crosses the antimeridian depends on the closed curve alone: it
stays the same for a list that begins at another vertex, for the list backwards, and for a list in
which vertices are repeated in place or the first one is repeated at the end.  The ring crosses if
this number is not zero. -/
theorem crossings_relisted (ring : Ring) :
    (∀ k, crossings (ring.rotate k) = ring.crossings) ∧
    crossings ring.reverse = ring.crossings ∧
    (∀ other, Stutters ring other → crossings other = ring.crossings) ∧
    (∀ first, ring.head? = some first → crossings (ring ++ [first]) = ring.crossings) ∧
    (ring.crosses = true ↔ 0 < ring.crossings) := by
  refine ⟨crossings_rotate ring, crossings_reverse ring, fun _ => crossings_of_stutters, ?_,
    crosses_iff⟩
  intro first head
  cases ring with
  | nil => cases head
  | cons c rest =>
    obtain rfl : c = first := Option.some.inj head
    rw [append_first_eq_rotate, crossings_rotate]
    exact crossings_of_stutters (.again (Stutters.refl (c :: rest)))

/-- A triangle around the north pole. -/
def polarTriangle : Ring := [⟨1, 3⟩, ⟨1, -3⟩, ⟨1, 0⟩]

theorem crossings_relisted_polarTriangle : polarTriangle.crossings = 1 ∧
    crossings [⟨1, 3⟩, ⟨1, 3⟩, ⟨1, -3⟩, ⟨1, 0⟩, ⟨1, 0⟩] = 1 ∧
    crossings [⟨1, 3⟩, ⟨1, -3⟩, ⟨1, 0⟩, ⟨1, 3⟩] = 1 := by
  have once : polarTriangle.crossings = 1 := by decide +kernel
  obtain ⟨-, -, stutters, closed, -⟩ := crossings_relisted polarTriangle
  exact ⟨once, (stutters _ (.again (.once _ (.once _ (.again (.once _ .nil)))))).trans once,
    (closed _ rfl).trans once⟩

end Ring

end Antimeridian
