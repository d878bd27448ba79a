import Antimeridian.Proofs.Split.Cycle

/-!
# What a tour visits

A vertex is adjacent to those that a single way leads to, in either direction.  A tour visits exactly
the vertices that can be reached from its start over adjacent ones: it follows such ways itself, and
no way leads from what it visits to what it leaves.
-/

namespace Antimeridian.Split

/-- A way in the hemisphere of the vertex `i` leads from it to the vertex `j`. -/
def Adjacent (arena : Arena) (meridian : Meridian) (i j : Nat) : Prop :=
  ∃ node h via k, arena[i]? = some node ∧ h.index = i ∧ k.index = j ∧
    Joined arena meridian node.side h via k

section

variable {arena : Arena} {meridian : Meridian} {side : Int} {left : List Nat} {t : Tour}
  {path : List (Heading × Step)} {i j : Nat}

/-- Neighbours of unused vertices are unused. -/
theorem mem_of_adjacent (closed : Closed arena meridian left) (member : i ∈ left)
    (adjacent : Adjacent arena meridian i j) : j ∈ left := by
  obtain ⟨node, h, via, k, here, rfl, rfl, joined⟩ := adjacent
  exact closed member here joined

/-- Adjacency is mutual, since a way stays in its hemisphere. -/
theorem Adjacent.symm (consistent : Consistent arena meridian)
    (adjacent : Adjacent arena meridian i j) : Adjacent arena meridian j i := by
  obtain ⟨node, h, via, k, here, rfl, rfl, joined⟩ := adjacent
  obtain ⟨via', k', other, joined', there, side⟩ := consistent.exists_joined here rfl
  obtain ⟨-, rfl⟩ := joined.unique consistent.linked joined'
  rw [← side] at joined
  exact ⟨other, k, via.reverse, h, there, rfl, rfl, joined.symm⟩

theorem Sidewise.adjacent {x : Heading × Step} (sidewise : Sidewise arena meridian side x) :
    Adjacent arena meridian x.1.index x.2.target.index := by
  obtain ⟨node, via, here, rfl, -, joined⟩ := sidewise
  exact ⟨node, x.1, via, x.2.target.turned, here, rfl, rfl, joined⟩

/-- A path reaches all that it passes from where it begins. -/
theorem Path.reaches {h stop : Heading} (chain : Path arena meridian side h path stop)
    (sidewise : ∀ x ∈ path, Sidewise arena meridian side x) :
    ∀ x ∈ path, Relation.ReflTransGen (Adjacent arena meridian) h.index x.1.index := by
  induction chain with
  | nil h => simp
  | @cons h stop s path stepped rest ih =>
    have first := (sidewise _ List.mem_cons_self).adjacent
    have later := ih fun x member => sidewise x (List.mem_cons_of_mem _ member)
    intro x member
    rcases List.mem_cons.1 member with rfl | inRest
    · exact .refl
    · exact .head first (later x inRest)

/-- What a circuit visits is closed: what it leaves is, and adjacency is mutual. -/
theorem Circuit.mem_visited_of_adjacent (circuit : Circuit arena meridian left t path)
    (consistent : Consistent arena meridian) (distinct : left.Nodup)
    (closed : Closed arena meridian left) (visited : i ∈ t.walk.visited)
    (adjacent : Adjacent arena meridian i j) : j ∈ t.walk.visited := by
  have used := circuit.follows.used
  have inLeft := mem_of_adjacent closed (used.mem_iff.1 (List.mem_append_left _ visited)) adjacent
  rcases List.mem_append.1 (used.mem_iff.2 inLeft) with here | unused
  · exact here
  · have back := mem_of_adjacent (circuit.closed consistent distinct closed) unused
      (adjacent.symm consistent)
    have apart := (List.nodup_append.1 (used.nodup_iff.2 distinct)).2.2
    exact absurd rfl (apart i visited i back)

/-- A walk that stands on an unused vertex visits it. -/
theorem Follows.mem_visited {h : Heading} {w : Walk}
    (follows : Follows arena meridian side left h w path) (member : h.index ∈ left) :
    h.index ∈ w.visited := by
  have moved := follows.ne_nil member
  have chain := follows.chain
  rw [follows.visited]
  cases chain with
  | nil => exact absurd rfl moved
  | cons stepped rest => exact List.mem_cons_self

theorem Touring.start_mem_visited {ts : List Tour} (touring : Touring arena meridian left ts) :
    ∀ t ∈ ts, t.start ∈ t.walk.visited := by
  induction touring with
  | done => simp
  | tour toured rest ih =>
    obtain ⟨rfl, node, -, -, path, follows⟩ := exists_follows_tour toured
    intro t member
    rcases List.mem_cons.1 member with rfl | later
    · exact follows.mem_visited List.mem_cons_self
    · exact ih t later

/-- What a tour visits is closed. -/
theorem mem_visited_of_adjacent (consistent : Consistent arena meridian) {ts : List Tour}
    (toured : tours arena meridian = .ok ts) (member : t ∈ ts) (visited : i ∈ t.walk.visited)
    (adjacent : Adjacent arena meridian i j) : j ∈ t.walk.visited := by
  obtain ⟨left, path, circuit, distinct, closed⟩ := (touring_of_tours toured).circuits consistent
    (closed_range consistent.linked) List.nodup_range t member
  exact circuit.mem_visited_of_adjacent consistent distinct closed visited adjacent

/-- A tour visits what can be reached from its start. -/
theorem mem_visited_iff (consistent : Consistent arena meridian) {ts : List Tour}
    (toured : tours arena meridian = .ok ts) (member : t ∈ ts) :
    i ∈ t.walk.visited ↔ Relation.ReflTransGen (Adjacent arena meridian) t.start i := by
  have touring := touring_of_tours toured
  constructor
  · intro visited
    obtain ⟨left, path, circuit, -⟩ := touring.circuits consistent
      (closed_range consistent.linked) List.nodup_range t member
    rw [circuit.follows.visited] at visited
    obtain ⟨x, inPath, rfl⟩ := List.mem_map.1 visited
    exact circuit.follows.chain.reaches circuit.sidewise x inPath
  · intro reached
    induction reached with
    | refl => exact touring.start_mem_visited t member
    | tail _ adjacent ih => exact mem_visited_of_adjacent consistent toured member ih adjacent

end

end Antimeridian.Split
