import Antimeridian.Proofs.Outline

/-!
# Listings of one closed curve

A closed curve may be listed from any of its vertices, and a vertex may be listed several times in
place.  A listing from another vertex has the same edges, beginning with another one.  A vertex that
is listed again adds an edge from that vertex to itself and changes no other edge.
-/

namespace Antimeridian

section

variable {α β : Type}

theorem cyclicPairs_map (f : α → β) (l : List α) :
    cyclicPairs (l.map f) = (cyclicPairs l).map (Prod.map f f) := by
  cases l with
  | nil => rfl
  | cons a rest =>
    simp only [cyclicPairs, List.map_cons]
    rw [← List.map_cons, ← List.map_singleton, ← List.map_append, List.zip_map]

/-- Pairs around a list are the list next to itself turned by one. -/
theorem cyclicPairs_eq_zip (l : List α) : cyclicPairs l = l.zip (l.rotate 1) := by
  cases l with
  | nil => rfl
  | cons a rest => rw [List.rotate_cons_succ, List.rotate_zero, cyclicPairs]

/-- Listed from another vertex, a curve has the same edges from another one on. -/
theorem cyclicPairs_rotate (l : List α) (k : Nat) :
    cyclicPairs (l.rotate k) = (cyclicPairs l).rotate k := by
  have next : (l.rotate k).rotate 1 = (l.rotate 1).rotate k := by
    rw [List.rotate_rotate, List.rotate_rotate, Nat.add_comm]
  rw [cyclicPairs_eq_zip, cyclicPairs_eq_zip, next]
  exact (List.zipWith_rotate_distrib Prod.mk l (l.rotate 1) k (List.length_rotate l 1).symm).symm

/-- The second list is the first with some of its elements repeated in place. -/
inductive Stutters : List α → List α → Prop
  | nil : Stutters [] []
  | once (a : α) {l m : List α} : Stutters l m → Stutters (a :: l) (a :: m)
  | again {a : α} {l m : List α} : Stutters (a :: l) m → Stutters (a :: l) (a :: m)

namespace Stutters

variable {l m : List α} {a : α}

theorem refl (l : List α) : Stutters l l := by
  induction l with
  | nil => exact .nil
  | cons a rest ih => exact .once a ih

theorem eq_nil (stutters : Stutters [] m) : m = [] := by
  cases stutters
  rfl

theorem exists_cons (stutters : Stutters (a :: l) m) : ∃ rest, m = a :: rest := by
  cases stutters with
  | once _ _ => exact ⟨_, rfl⟩
  | again _ => exact ⟨_, rfl⟩

theorem length_le (stutters : Stutters l m) : l.length ≤ m.length := by
  induction stutters with
  | nil => exact le_rfl
  | once a _ ih => exact Nat.succ_le_succ ih
  | again _ ih => exact Nat.le_succ_of_le ih

theorem append (stutters : Stutters l m) (r : List α) : Stutters (l ++ r) (m ++ r) := by
  induction stutters with
  | nil => exact refl r
  | once a _ ih => exact .once a ih
  | again _ ih => exact .again ih

end Stutters

end

/-- A repeated point adds an edge from the point to itself. -/
theorem trail_of_stutters {l m : List Coord} (stutters : Stutters l m) :
    ∃ loops, (∀ e ∈ loops, ∃ a ∈ l, e = (a, a)) ∧ (trail m).Perm (loops ++ trail l) := by
  induction stutters with
  | nil => exact ⟨[], by simp, .refl _⟩
  | @once a l m rest ih =>
    obtain ⟨loops, each, perm⟩ := ih
    refine ⟨loops, fun e member => ?_, ?_⟩
    · obtain ⟨b, inside, equal⟩ := each e member
      exact ⟨b, List.mem_cons_of_mem a inside, equal⟩
    · cases l with
      | nil =>
        rw [rest.eq_nil] at perm ⊢
        exact perm
      | cons b l =>
        obtain ⟨m, rfl⟩ := rest.exists_cons
        exact (perm.cons (a, b)).trans List.perm_middle.symm
  | @again a l m rest ih =>
    obtain ⟨loops, each, perm⟩ := ih
    obtain ⟨m, rfl⟩ := rest.exists_cons
    refine ⟨(a, a) :: loops, fun e member => ?_, perm.cons (a, a)⟩
    rcases List.mem_cons.1 member with rfl | earlier
    · exact ⟨a, List.mem_cons_self, rfl⟩
    · exact each e earlier

namespace Ring

theorem edges_rotate (ring : Ring) (k : Nat) : Ring.edges (ring.rotate k) = ring.edges.rotate k :=
  cyclicPairs_rotate ring k

/-- The edges of a ring and of one that repeats vertices in place differ in loops at vertices. -/
theorem edges_of_stutters {ring other : Ring} (stutters : Stutters ring other) :
    ∃ loops, (∀ e ∈ loops, ∃ v ∈ ring, e = (v, v)) ∧ other.edges.Perm (loops ++ ring.edges) := by
  cases ring with
  | nil =>
    obtain rfl := stutters.eq_nil
    exact ⟨[], by simp, .refl _⟩
  | cons first rest =>
    obtain ⟨others, rfl⟩ := stutters.exists_cons
    rw [edges, edges, cyclicPairs_cons, cyclicPairs_cons]
    obtain ⟨loops, each, perm⟩ := trail_of_stutters (stutters.append [first])
    refine ⟨loops, fun e member => ?_, perm⟩
    obtain ⟨v, inside, equal⟩ := each e member
    refine ⟨v, ?_, equal⟩
    rcases List.mem_append.1 inside with vertex | last
    · exact vertex
    · rw [List.mem_singleton.1 last]
      exact List.mem_cons_self

/-- A ring closed by a copy of its first vertex is the ring with that vertex twice, listed from the
second time on. -/
theorem append_first_eq_rotate (first : Coord) (rest : Ring) :
    first :: rest ++ [first] = (first :: first :: rest).rotate 1 := by
  rw [List.rotate_cons_succ, List.rotate_zero]

end Ring

end Antimeridian
