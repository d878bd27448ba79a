import Antimeridian.Split
import Antimeridian.Proofs.Split.Walk

/-!
# Steps by index arithmetic

Inside a ring the vertices stand one after the other, so the neighbours of a vertex are found by
counting.  Only its first and its last vertex need a link, to each other.  A step that finds its way
by counting and by these links is the step by neighbours, for every heading, if all rings have two
vertices at least.  In particular counting down never leaves the arena.
-/

namespace Antimeridian.Split

/-! ## Links -/

/-- The links of a ring of `size` vertices that takes the indices from `first` on. -/
def ringLinks (first size : Nat) : List (Option Nat) :=
  ((List.replicate size none).set 0 (some (first + size - 1))).set (size - 1) (some first)

/-- The links of several rings, the indices counted from `first`. -/
def linksFrom : (first : Nat) → List Ring → List (Option Nat)
  | _, [] => []
  | first, ring :: rest => ringLinks first ring.length ++ linksFrom (first + ring.length) rest

/-- The links in the arena of a list of rings. -/
def links (rings : List Ring) : List (Option Nat) := linksFrom 0 rings

/-- How a link fits the neighbours of the vertex `i`: the last vertex of a ring is linked to the
next one, the first to the previous one, and the others are not linked. -/
inductive Fits (i : Nat) (node : Node) : Option Nat → Prop
  | last : node.next < i → node.prev + 1 = i → Fits i node (some node.next)
  | first : node.next = i + 1 → i < node.prev → Fits i node (some node.prev)
  | inner : node.next = i + 1 → node.prev + 1 = i → Fits i node none

theorem ringLinks_length (first size : Nat) : (ringLinks first size).length = size := by
  simp [ringLinks]

/-- The last vertex is linked to the first and the first to the last. -/
theorem ringLinks_getElem? {first size k : Nat} (below : k < size) :
    (ringLinks first size)[k]? = some (if k = size - 1 then some first
      else if k = 0 then some (first + size - 1) else none) := by
  unfold ringLinks
  rw [List.getElem?_set]
  split
  · simp_all
  · rw [List.getElem?_set]
    split <;> simp_all [eq_comm]

section

variable [Trig]

/-- In a ring of two vertices or more the links fit. -/
theorem fits_ringLinks {first : Nat} {ring : Ring} (two : 2 ≤ ring.length) {k : Nat} {node : Node}
    (found : (ringNodes first ring)[k]? = some node) :
    ∃ link, (ringLinks first ring.length)[k]? = some link ∧ Fits (first + k) node link := by
  have below : k < ring.length := by
    rw [← ringNodes_length first ring]
    exact (List.getElem?_eq_some_iff.1 found).1
  rw [ringNodes, nodesFrom_getElem?, Option.map_eq_some_iff] at found
  obtain ⟨e, -, rfl⟩ := found
  refine ⟨_, ringLinks_getElem? below, ?_⟩
  generalize sideAfter (leadingSide ring) (ring.edges.take k) = side
  have next := nodeAt_next first ring.length k side e
  have prev : (nodeAt first ring.length (first + k) side e).prev = _ := nodeAt_prev side e below
  generalize nodeAt first ring.length (first + k) side e = node at *
  unfold following at next
  unfold preceding at prev
  by_cases last : k = ring.length - 1
  · rw [if_pos (by omega), Nat.add_zero] at next
    rw [if_neg (by omega)] at prev
    rw [if_pos last, ← next]
    exact .last (by omega) (by omega)
  · rw [if_neg (by omega)] at next
    rw [if_neg last]
    by_cases zero : k = 0
    · rw [if_pos zero, ← Nat.add_sub_assoc (by omega)] at prev
      rw [if_pos zero, ← prev]
      exact .first (by omega) (by omega)
    · rw [if_neg zero] at prev ⊢
      exact .inner (by omega) (by omega)

/-- Every node has a link that fits its neighbours. -/
theorem fits_linksFrom {rings : List Ring} (two : ∀ ring ∈ rings, 2 ≤ ring.length) {first i : Nat}
    {node : Node} (found : (layOut first rings)[i]? = some node) :
    ∃ link, (linksFrom first rings)[i]? = some link ∧ Fits (first + i) node link := by
  induction rings generalizing first i with
  | nil => cases found
  | cons ring rest ih =>
    have nodes := ringNodes_length first ring
    have marks := ringLinks_length first ring.length
    rw [layOut] at found
    rw [linksFrom]
    by_cases inside : i < ring.length
    · rw [List.getElem?_append_left (by omega)] at found
      rw [List.getElem?_append_left (by omega)]
      exact fits_ringLinks (two ring List.mem_cons_self) found
    · rw [List.getElem?_append_right (by omega), nodes] at found
      rw [List.getElem?_append_right (by omega), marks]
      obtain ⟨link, place, fits⟩ := ih (fun r member => two r (List.mem_cons_of_mem _ member)) found
      refine ⟨link, place, ?_⟩
      rwa [show first + ring.length + (i - ring.length) = first + i by omega] at fits

/-! ## Steps -/

end

/-- The link of a vertex. -/
def linkAt (links : List (Option Nat)) (i : Nat) : Option Nat := links[i]?.join

/-- The neighbour of a vertex by counting, in an arena of `size` vertices, and the vertex that the
edge between them belongs to. -/
def countOn (size index : Nat) (forward : Bool) : Except Fault (Nat × Nat) :=
  if forward then .ok (index + 1, min index (index + 1))
  else match index with
    | 0 => .error (.vertexOutOfBounds index size)
    | before + 1 => .ok (before, min index before)

/-- The other end of the edge ahead of a vertex, and the vertex that this edge belongs to.  The edge
that closes a ring leads forward from the greater of two linked indices. -/
def edgeAhead (size : Nat) (link : Option Nat) (index : Nat) (forward : Bool) :
    Except Fault (Nat × Nat) :=
  match link with
  | some other =>
    if forward == decide (other < index) then .ok (other, max index other)
    else countOn size index forward
  | none => countOn size index forward

/-- The end of the edge that leaves a vertex in the order of its ring. -/
def edgeEnd (link : Option Nat) (index : Nat) : Nat :=
  match link with
  | some other => if other < index then other else index + 1
  | none => index + 1

/-- `resume` by links. -/
def resumeByLinks (arena : Arena) (links : List (Option Nat)) (side : Int) (c : Crossing) :
    Except Fault Heading := do
  let forward := decide (0 < side) == c.eastward
  if forward then
    let _ ← arena.node c.vertex
    return ⟨edgeEnd (linkAt links c.vertex) c.vertex, true⟩
  else return ⟨c.vertex, false⟩

/-- `step` by links. -/
def stepByLinks (arena : Arena) (links : List (Option Nat)) (meridian : Meridian) (side : Int)
    (h : Heading) : Except Fault Step := do
  let node ← arena.node h.index
  let (next, edgeOwner) ← edgeAhead arena.length (linkAt links h.index) h.index h.forward
  let owner ← arena.node edgeOwner
  match owner.crossing with
  | none => return ⟨[node.coord], next, h.forward⟩
  | some c =>
    let d ← meridian.partner c
    return ⟨[node.coord, c.point side, d.point side], ← resumeByLinks arena links side d⟩

theorem countOn_forward (size i : Nat) : countOn size i true = .ok (i + 1, i) := by
  simp [countOn]

/-- Counting down succeeds if there is a vertex before. -/
theorem countOn_backward {i before : Nat} (size : Nat) (counts : before + 1 = i) :
    countOn size i false = .ok (before, before) := by
  subst counts
  simp [countOn]

section

variable {i : Nat} {node : Node} {link : Option Nat}

/-- The arithmetic never fails, and gives the neighbour and the owner of the edge to it. -/
theorem Fits.edgeAhead_eq (fits : Fits i node link) (size : Nat) (forward : Bool) :
    edgeAhead size link i forward =
      .ok (if forward then (node.next, i) else (node.prev, node.prev)) := by
  cases fits with
  | last next prev =>
    cases forward with
    | true => simp [edgeAhead, next, next.le]
    | false => simp [edgeAhead, next, countOn_backward size prev]
  | first next prev =>
    cases forward with
    | true => simp [edgeAhead, prev.le, countOn_forward, next]
    | false => simp [edgeAhead, prev.le]
  | inner next prev =>
    cases forward with
    | true => simp [edgeAhead, countOn_forward, next]
    | false => simp [edgeAhead, countOn_backward size prev]

/-- The end of the edge that leaves a vertex is the next vertex. -/
theorem Fits.edgeEnd_eq (fits : Fits i node link) : edgeEnd link i = node.next := by
  cases fits with
  | last next prev => exact if_pos next
  | first next prev => exact (if_neg prev.not_gt).trans next.symm
  | inner next prev => exact next.symm

end

section

variable [Trig] {rings : List Ring} (two : ∀ ring ∈ rings, 2 ≤ ring.length)
include two

theorem fits_linkAt {i : Nat} {node : Node} (found : (Arena.ofRings rings)[i]? = some node) :
    Fits i node (linkAt (links rings) i) := by
  obtain ⟨link, place, fits⟩ := fits_linksFrom two found
  rw [Nat.zero_add] at fits
  rwa [linkAt, links, place]

theorem resumeByLinks_eq (side : Int) (c : Crossing) :
    resumeByLinks (Arena.ofRings rings) (links rings) side c =
      resume (Arena.ofRings rings) side c := by
  unfold resumeByLinks resume
  cases found : (Arena.ofRings rings)[c.vertex]? with
  | none => simp [Arena.node, found]
  | some node =>
    rw [node_eq_ok.2 found, (fits_linkAt two found).edgeEnd_eq]
    rfl

/-- A step by links is a step by neighbours, wherever the heading is. -/
theorem stepByLinks_eq (meridian : Meridian) (side : Int) (h : Heading) :
    stepByLinks (Arena.ofRings rings) (links rings) meridian side h =
      step (Arena.ofRings rings) meridian side h := by
  unfold stepByLinks step
  cases found : (Arena.ofRings rings)[h.index]? with
  | none =>
    have outside : (Arena.ofRings rings).node h.index =
        .error (.vertexOutOfBounds h.index (Arena.ofRings rings).length) := by
      rw [Arena.node, found]
    rw [outside]
    rfl
  | some node =>
    rw [node_eq_ok.2 found, (fits_linkAt two found).edgeAhead_eq]
    simp only [resumeByLinks_eq two]
    cases h.forward <;> rfl

end

/-- A ring that crosses has an edge between different vertices. -/
theorem two_le_length_of_crosses {ring : Ring} (across : ring.crosses = true) :
    2 ≤ ring.length := by
  match ring with
  | [] => simp [Ring.crosses, Ring.edges, cyclicPairs] at across
  | [a] => simp [Ring.crosses, Ring.edges, cyclicPairs, crosses] at across
  | _ :: _ :: rest => exact Nat.le_add_left 2 rest.length

/-- The walks of a split take their steps by links, since only an exterior of less than two vertices
is too short for that, and it is not split. -/
theorem cutRings_stepByLinks [Trig] {p : Polygon} (long : 2 ≤ p.exterior.length)
    (meridian : Meridian) (side : Int) (h : Heading) :
    stepByLinks (Arena.ofRings (cutRings p)) (links (cutRings p)) meridian side h =
      step (Arena.ofRings (cutRings p)) meridian side h := by
  refine stepByLinks_eq ?_ meridian side h
  intro ring member
  rcases List.mem_cons.1 member with rfl | inHoles
  · exact long
  · exact two_le_length_of_crosses (List.mem_filter.1 inHoles).2

end Antimeridian.Split
