import Antimeridian.Proofs.Split.Walk

/-!
# Headings that face each other

Leaving a vertex by one heading, a walk arrives at another vertex, from which the opposite of its new
heading leads back.  `Joined` pairs the two headings of such a way, together with the points on the
seam between them.  It is symmetric and joins no heading with itself.  In an arena whose hemispheres
are consistent every heading is joined with one at a vertex of the same hemisphere.
-/

namespace Antimeridian.Split

/-- The same place, seen the other way. -/
def Heading.turned (h : Heading) : Heading := ⟨h.index, !h.forward⟩

@[simp] theorem Heading.turned_turned (h : Heading) : h.turned.turned = h := by
  simp [Heading.turned]

@[simp] theorem Heading.turned_index (h : Heading) : h.turned.index = h.index := rfl

theorem Heading.turned_ne (h : Heading) : h.turned ≠ h := by
  intro equal
  have := congrArg Heading.forward equal
  simp [Heading.turned] at this

theorem Heading.turned_inj {h k : Heading} : h.turned = k.turned ↔ h = k := by
  constructor
  · intro equal
    rw [← h.turned_turned, equal, k.turned_turned]
  · exact congrArg Heading.turned

/-- Headings at one place are the same or opposite. -/
theorem Heading.eq_or_eq_turned {h k : Heading} (place : h.index = k.index) :
    h = k ∨ h = k.turned := by
  obtain ⟨i, forward⟩ := h
  obtain ⟨j, forward'⟩ := k
  obtain rfl : i = j := place
  cases forward <;> cases forward' <;> simp [Heading.turned]

/-- The heading that leaves the hemisphere `side` by the edge of a crossing. -/
def wayOut (side : Int) (c : Crossing) (owner : Node) : Heading := (wayIn side c owner).turned

/-- The heading `h` and the heading `k` lead to each other, past the points `via`. -/
inductive Joined (arena : Arena) (meridian : Meridian) (side : Int) :
    (h : Heading) → (via : List Coord) → (k : Heading) → Prop
  | along {i : Nat} {node : Node} : arena[i]? = some node → node.crossing = none →
    Joined arena meridian side ⟨i, true⟩ [] ⟨node.next, false⟩
  | against {i : Nat} {node : Node} : arena[i]? = some node → node.crossing = none →
    Joined arena meridian side ⟨node.next, false⟩ [] ⟨i, true⟩
  | seam {c d : Crossing} {owner other : Node} :
    arena[c.vertex]? = some owner → owner.crossing = some c →
    arena[d.vertex]? = some other → other.crossing = some d →
    meridian.partner? c = some d → meridian.partner? d = some c → d.vertex ≠ c.vertex →
    Joined arena meridian side (wayOut side c owner) [c.point side, d.point side]
      (wayOut side d other)

section

variable {arena : Arena} {meridian : Meridian} {side : Int} {h k : Heading} {via : List Coord}

/-- Every way between headings can be gone back. -/
theorem Joined.symm (joined : Joined arena meridian side h via k) :
    Joined arena meridian side k via.reverse h := by
  cases joined with
  | along here none => exact .against here none
  | against here none => exact .along here none
  | seam place owned place' owned' forth back differ =>
    exact .seam place' owned' place owned back forth differ.symm

/-- The node behind a crossing on the way out. -/
theorem wayOut_ahead (linked : Linked arena) (side : Int) {c : Crossing} {owner : Node}
    (place : arena[c.vertex]? = some owner) : ∃ node,
      arena[(wayOut side c owner).index]? = some node ∧
        ahead arena (wayOut side c owner) node = some owner := by
  unfold wayOut wayIn
  split
  · obtain ⟨after, next, back⟩ := linked.next place
    refine ⟨after, next, ?_⟩
    rw [ahead, back]
    exact place
  · exact ⟨owner, place, rfl⟩

/-- Different edges are left at different headings. -/
theorem wayOut_injective (linked : Linked arena) {c d : Crossing} {owner other : Node}
    (place : arena[c.vertex]? = some owner) (place' : arena[d.vertex]? = some other)
    (equal : wayOut side c owner = wayOut side d other) : owner = other := by
  obtain ⟨node, here, owns⟩ := wayOut_ahead linked side place
  obtain ⟨node', here', owns'⟩ := wayOut_ahead linked side place'
  rw [equal, here'] at here
  obtain rfl := Option.some.inj here
  rw [equal, owns'] at owns
  exact (Option.some.inj owns).symm

/-- No way leads back to where it begins. -/
theorem Joined.ne (linked : Linked arena) (joined : Joined arena meridian side h via k) :
    h ≠ k := by
  intro equal
  cases joined with
  | along here none => cases equal
  | against here none => cases equal
  | seam place owned place' owned' forth back differ =>
    obtain rfl := wayOut_injective linked place place' equal
    rw [owned] at owned'
    obtain rfl := Option.some.inj owned'
    exact differ rfl

theorem Joined.node (linked : Linked arena) (joined : Joined arena meridian side h via k) :
    ∃ node, arena[h.index]? = some node := by
  cases joined with
  | along here none => exact ⟨_, here⟩
  | against here none =>
    obtain ⟨after, next, -⟩ := linked.next here
    exact ⟨after, next⟩
  | seam place owned place' owned' forth back differ =>
    obtain ⟨node, here, -⟩ := wayOut_ahead linked side place
    exact ⟨node, here⟩

/-- A step takes the way that its heading begins. -/
theorem Joined.step (linked : Linked arena) (joined : Joined arena meridian side h via k)
    {node : Node} (here : arena[h.index]? = some node) :
    step arena meridian side h = .ok ⟨node.coord :: via, k.turned⟩ := by
  cases joined with
  | along place none =>
    obtain rfl := Option.some.inj (place.symm.trans here)
    exact step_of_none here rfl none
  | @against i owner place none =>
    obtain ⟨after, next, back⟩ := linked.next place
    obtain rfl := Option.some.inj (next.symm.trans here)
    have owns : ahead arena ⟨owner.next, false⟩ after = some owner := by
      rw [ahead, back]
      exact place
    rw [step_of_none here owns none, ← back]
    rfl
  | @seam c d owner other place owned place' owned' forth back differ =>
    obtain ⟨node', here', owns⟩ := wayOut_ahead linked side place
    obtain rfl := Option.some.inj (here'.symm.trans here)
    rw [step_of_some here owns owned forth place', wayOut, Heading.turned_turned]

/-- The way from a heading is unique. -/
theorem Joined.unique (linked : Linked arena) (joined : Joined arena meridian side h via k)
    {via' : List Coord} {k' : Heading} (joined' : Joined arena meridian side h via' k') :
    via = via' ∧ k = k' := by
  obtain ⟨node, here⟩ := joined.node linked
  have equal := (joined.step linked here).symm.trans (joined'.step linked here)
  injection equal with equal
  injection equal with passed target
  injection passed with _ via
  exact ⟨via, Heading.turned_inj.1 target⟩

end

/-! ## Consistent hemispheres -/

/-- A sound arena in which the hemisphere changes exactly at the crossings. -/
structure Consistent (arena : Arena) (meridian : Meridian) : Prop extends Sound arena meridian where
  tagged : Tagged arena

/-- Balanced rings with an even number of crossings fit together. -/
theorem ofRings_consistent {rings : List Ring} (balanced : ∀ ring ∈ rings, Balanced ring)
    (even : Even (Arena.ofRings rings).crossings.length) :
    Consistent (Arena.ofRings rings) (.ofCrossings (Arena.ofRings rings).crossings) :=
  { ofRings_sound even with tagged := ofRings_tagged balanced }

section

variable {arena : Arena} {meridian : Meridian} {side : Int}

/-- The direction of a crossing against the hemisphere of a walk. -/
theorem wayIn_eq (tagged : Tagged arena) {i : Nat} {owner : Node} {c : Crossing}
    (place : arena[i]? = some owner) (owned : owner.crossing = some c)
    (isSide : side = 1 ∨ side = -1) :
    wayIn side c owner = if owner.side = side then ⟨c.vertex, false⟩ else ⟨owner.next, true⟩ := by
  obtain ⟨ownerSide, eastward⟩ := tagged.side place owned
  unfold wayIn
  rw [eastward]
  rcases isSide with rfl | rfl <;> rcases ownerSide with h | h <;> rw [h] <;> rfl

/-- The way out begins in the hemisphere that it leaves. -/
theorem wayOut_side (consistent : Consistent arena meridian) {owner node : Node} {c : Crossing}
    (place : arena[c.vertex]? = some owner) (owned : owner.crossing = some c)
    (isSide : side = 1 ∨ side = -1) (here : arena[(wayOut side c owner).index]? = some node) :
    node.side = side := by
  obtain ⟨ownerSide, -⟩ := consistent.tagged.side place owned
  rw [wayOut, Heading.turned_index, wayIn_eq consistent.tagged place owned isSide] at here
  split at here
  · rename_i same
    obtain rfl := Option.some.inj (place.symm.trans here)
    exact same
  · rename_i other
    rw [consistent.tagged.turn place here owned]
    omega

/-- The way out at a crossing leads to another way out, in the same hemisphere. -/
theorem Consistent.joined_wayOut (consistent : Consistent arena meridian) {owner : Node}
    {c : Crossing} (place : arena[c.vertex]? = some owner) (owned : owner.crossing = some c)
    (isSide : side = 1 ∨ side = -1) :
    ∃ via k other, Joined arena meridian side (wayOut side c owner) via k ∧
      arena[k.index]? = some other ∧ other.side = side := by
  obtain ⟨d, forth, back, differ, other, place', owned'⟩ := consistent.partner place owned
  obtain ⟨node, here, -⟩ := wayOut_ahead consistent.linked side place'
  exact ⟨_, _, node, .seam place owned place' owned' forth back differ, here,
    wayOut_side consistent place' owned' isSide here⟩

/-- Every heading in a hemisphere is joined with one in the same hemisphere. -/
theorem Consistent.exists_joined (consistent : Consistent arena meridian) {h : Heading}
    {node : Node} (here : arena[h.index]? = some node) (inSide : node.side = side) :
    ∃ via k other, Joined arena meridian side h via k ∧ arena[k.index]? = some other ∧
      other.side = side := by
  have linked := consistent.linked
  have tagged := consistent.tagged
  obtain ⟨i, forward⟩ := h
  change arena[i]? = some node at here
  cases forward with
  | true =>
    cases crossing : node.crossing with
    | none =>
      obtain ⟨after, next, -⟩ := linked.next here
      exact ⟨_, _, after, .along here crossing, next,
        (tagged.keep here next crossing).trans inSide⟩
    | some c =>
      obtain ⟨nodeSide, -⟩ := tagged.side here crossing
      rw [inSide] at nodeSide
      obtain rfl := linked.vertex here crossing
      have out : wayOut side c node = ⟨c.vertex, true⟩ := by
        rw [wayOut, wayIn_eq tagged here crossing nodeSide, if_pos inSide]
        rfl
      rw [← out]
      exact consistent.joined_wayOut here crossing nodeSide
  | false =>
    obtain ⟨before, place, rfl⟩ := linked.prev here
    cases crossing : before.crossing with
    | none =>
      exact ⟨_, _, before, .against place crossing, place,
        (tagged.keep place here crossing).symm.trans inSide⟩
    | some c =>
      obtain ⟨beforeSide, -⟩ := tagged.side place crossing
      have turned := tagged.turn place here crossing
      have sides : side = 1 ∨ side = -1 := by omega
      have out : wayOut side c before = ⟨before.next, false⟩ := by
        rw [wayOut, wayIn_eq tagged place crossing sides, if_neg (by omega)]
        rfl
      rw [← linked.vertex place crossing] at place
      rw [← out]
      exact consistent.joined_wayOut place crossing sides

end

end Antimeridian.Split
