import Antimeridian.Split.Walk
import Antimeridian.Proofs.Split.Pairing

/-!
# Steps, walks and tours

A step never fails in a sound arena, whatever the hemispheres of its nodes: links lead to nodes, and
crossings have partners.  `step_of_none` and `step_of_some` say what a step does.  A finished walk is
a path of steps over different unused vertices up to a used one, and the tours use up all vertices
of the arena.  The bounds on the numbers of steps and rounds are never what ends them.
-/

namespace Antimeridian.Split

theorem bind_eq_ok {α β : Type} {x : Except Fault α} {f : α → Except Fault β} {b : β} :
    x >>= f = .ok b ↔ ∃ a, x = .ok a ∧ f a = .ok b := by
  cases x with
  | error fault => simp [bind, Except.bind]
  | ok a => simp [bind, Except.bind]

theorem node_eq_ok {arena : Arena} {i : Nat} {node : Node} :
    arena.node i = .ok node ↔ arena[i]? = some node := by
  unfold Arena.node
  cases arena[i]? <;> simp

/-! ## Sound arenas -/

/-- What every step relies on. -/
structure Sound (arena : Arena) (meridian : Meridian) : Prop where
  linked : Linked arena
  partner : ∀ {i : Nat} {node : Node} {c : Crossing}, arena[i]? = some node →
    node.crossing = some c → ∃ d, meridian.partner? c = some d ∧ meridian.partner? d = some c ∧
      d.vertex ≠ c.vertex ∧ ∃ other, arena[d.vertex]? = some other ∧ other.crossing = some d

/-- The rings and the sorted crossings of an arena are sound if the crossings pair up. -/
theorem ofRings_sound [Trig] {rings : List Ring} (even : Even (Arena.ofRings rings).crossings.length) :
    Sound (Arena.ofRings rings) (.ofCrossings (Arena.ofRings rings).crossings) where
  linked := ofRings_linked rings
  partner := by
    intro i node c found crossing
    have linked := ofRings_linked rings
    have sorted := Meridian.ofCrossings_perm (Arena.ofRings rings).crossings
    have member := sorted.mem_iff.2 (mem_crossings found crossing)
    obtain ⟨d, inMeridian, forth, back, differ⟩ := (linked.paired even).exists_partner member
    refine ⟨d, forth, back, differ, ?_⟩
    obtain ⟨other, inArena, owned⟩ := List.mem_filterMap.1 (sorted.mem_iff.1 inMeridian)
    obtain ⟨j, place⟩ := List.getElem?_of_mem inArena
    rw [linked.vertex place owned]
    exact ⟨other, place, owned⟩

/-! ## Steps -/

/-- The node that owns the edge ahead of a heading. -/
def ahead (arena : Arena) (h : Heading) (node : Node) : Option Node :=
  if h.forward then some node else arena[node.prev]?

/-- The heading that enters the hemisphere `side` by the edge of a crossing. -/
def wayIn (side : Int) (c : Crossing) (owner : Node) : Heading :=
  if decide (0 < side) == c.eastward then ⟨owner.next, true⟩ else ⟨c.vertex, false⟩

section Steps

variable {arena : Arena} {meridian : Meridian} {side : Int} {h : Heading} {node owner : Node}

theorem node_owner (here : arena[h.index]? = some node) (owns : ahead arena h node = some owner) :
    arena.node (if h.forward then h.index else if h.forward then node.next else node.prev) =
      .ok owner := by
  rw [node_eq_ok]
  unfold ahead at owns
  cases forward : h.forward with
  | true => simpa [forward, here] using owns
  | false => simpa [forward] using owns

theorem resume_eq {c : Crossing} (place : arena[c.vertex]? = some owner) :
    resume arena side c = .ok (wayIn side c owner) := by
  unfold resume wayIn
  rw [node_eq_ok.2 place]
  cases decide (0 < side) == c.eastward <;> rfl

/-- An edge without a crossing is followed to its other end. -/
theorem step_of_none (here : arena[h.index]? = some node) (owns : ahead arena h node = some owner)
    (none : owner.crossing = none) : step arena meridian side h =
      .ok ⟨[node.coord], if h.forward then node.next else node.prev, h.forward⟩ := by
  unfold step
  rw [node_eq_ok.2 here]
  simp only [bind, Except.bind]
  rw [node_owner here owns]
  simp only [none]
  rfl

/-- At a crossing the walk changes to the edge of the partner. -/
theorem step_of_some {c d : Crossing} {other : Node} (here : arena[h.index]? = some node)
    (owns : ahead arena h node = some owner) (crossing : owner.crossing = some c)
    (partner : meridian.partner? c = some d) (place : arena[d.vertex]? = some other) :
    step arena meridian side h =
      .ok ⟨[node.coord, c.point side, d.point side], wayIn side d other⟩ := by
  have found : meridian.partner c = .ok d := by rw [Meridian.partner, partner]
  unfold step
  rw [node_eq_ok.2 here]
  simp only [bind, Except.bind]
  rw [node_owner here owns]
  simp only [crossing, found, resume_eq place]
  rfl

/-- A step from a node of a sound arena leads to a node. -/
theorem Sound.step (sound : Sound arena meridian) (side : Int) (here : arena[h.index]? = some node) :
    ∃ s, step arena meridian side h = .ok s ∧ ∃ after, arena[s.target.index]? = some after := by
  have owned : ∃ (i : Nat) (owner : Node),
      ahead arena h node = some owner ∧ arena[i]? = some owner := by
    unfold ahead
    cases h.forward with
    | true => exact ⟨h.index, node, rfl, here⟩
    | false =>
      obtain ⟨before, place, -⟩ := sound.linked.prev here
      exact ⟨node.prev, before, place, place⟩
  obtain ⟨i, owner, owns, place⟩ := owned
  cases crossing : owner.crossing with
  | none =>
    refine ⟨_, step_of_none here owns crossing, ?_⟩
    cases h.forward with
    | true =>
      obtain ⟨after, place, -⟩ := sound.linked.next here
      exact ⟨after, place⟩
    | false =>
      obtain ⟨before, place, -⟩ := sound.linked.prev here
      exact ⟨before, place⟩
  | some c =>
    obtain ⟨d, partner, -, -, other, place', -⟩ := sound.partner place crossing
    refine ⟨_, step_of_some here owns crossing partner place', ?_⟩
    unfold wayIn
    split
    · obtain ⟨after, place, -⟩ := sound.linked.next place'
      exact ⟨after, place⟩
    · exact ⟨other, place'⟩

end Steps

/-! ## Walks -/

/-- Steps in a row from one heading to another. -/
inductive Path (arena : Arena) (meridian : Meridian) (side : Int) :
    Heading → List (Heading × Step) → Heading → Prop
  | nil (h : Heading) : Path arena meridian side h [] h
  | cons {h stop : Heading} {s : Step} {path : List (Heading × Step)} :
    step arena meridian side h = .ok s → Path arena meridian side s.target path stop →
      Path arena meridian side h ((h, s) :: path) stop

/-- A walk that begins at the heading `h`, while the indices in `left` are unused, takes the steps
of `path`. -/
structure Follows (arena : Arena) (meridian : Meridian) (side : Int) (left : List Nat) (h : Heading)
    (w : Walk) (path : List (Heading × Step)) : Prop where
  chain : Path arena meridian side h path w.stop
  visited : w.visited = path.map fun x => x.1.index
  passed : w.passed = path.flatMap fun x => x.2.passed
  used : (w.visited ++ w.left).Perm left
  stop : w.stop.index ∉ w.left

section Walks

variable {arena : Arena} {meridian : Meridian} {side : Int} {left : List Nat} {h : Heading}

theorem Path.eq_of_nil {stop : Heading} (path : Path arena meridian side h [] stop) :
    stop = h := by
  cases path; rfl

/-- A walk that stands on an unused vertex takes a step. -/
theorem Follows.ne_nil {w : Walk} {path : List (Heading × Step)}
    (follows : Follows arena meridian side left h w path) (member : h.index ∈ left) :
    path ≠ [] := by
  rintro rfl
  have stop := follows.stop
  have used := follows.used
  rw [follows.visited] at used
  rw [follows.chain.eq_of_nil] at stop
  exact stop (used.mem_iff.2 member)

theorem follows_ended {w : Walk} (ok : ended arena left h = .ok w) (outside : h.index ∉ left) :
    Follows arena meridian side left h w [] := by
  unfold ended at ok
  obtain ⟨node, -, result⟩ := bind_eq_ok.1 ok
  obtain rfl := Except.ok.inj result
  exact ⟨.nil h, rfl, rfl, List.Perm.refl left, outside⟩

theorem exists_follows_walkFor {steps : Nat} {w : Walk}
    (ok : walkFor arena meridian side steps left h = .ok w) (enough : left.length ≤ steps) :
    ∃ path, Follows arena meridian side left h w path := by
  induction steps generalizing left h w with
  | zero =>
    have empty : left = [] := List.eq_nil_of_length_eq_zero (by omega)
    exact ⟨[], follows_ended ok (by simp [empty])⟩
  | succ steps ih =>
    rw [walkFor] at ok
    split at ok
    · rename_i member
      obtain ⟨s, stepped, later⟩ := bind_eq_ok.1 ok
      obtain ⟨rest, walked, result⟩ := bind_eq_ok.1 later
      obtain rfl := Except.ok.inj result
      have shorter : (left.erase h.index).length ≤ steps := by
        rw [List.length_erase_of_mem member]
        omega
      obtain ⟨path, follows⟩ := ih walked shorter
      refine ⟨(h, s) :: path, .cons stepped follows.chain, ?_, ?_, ?_, follows.stop⟩
      · rw [List.map_cons, ← follows.visited]
      · rw [List.flatMap_cons, ← follows.passed]
      · exact (follows.used.cons h.index).trans (List.perm_cons_erase member).symm
    · exact ⟨[], follows_ended ok ‹_›⟩

/-- A finished walk is a path to a used vertex. -/
theorem exists_follows {w : Walk} (ok : walk arena meridian side left h = .ok w) :
    ∃ path, Follows arena meridian side left h w path :=
  exists_follows_walkFor ok (Nat.le_refl _)

theorem ended_eq (left : List Nat) {node : Node} (here : arena[h.index]? = some node) :
    ended arena left h = .ok ⟨[], [], left, h⟩ := by
  rw [ended, node_eq_ok.2 here]
  rfl

/-- A walk in a sound arena never fails. -/
theorem Sound.walkFor (sound : Sound arena meridian) {steps : Nat} {node : Node}
    (here : arena[h.index]? = some node) :
    ∃ w, walkFor arena meridian side steps left h = .ok w := by
  induction steps generalizing left h node with
  | zero => exact ⟨_, ended_eq left here⟩
  | succ steps ih =>
    rw [Split.walkFor]
    split
    · obtain ⟨s, stepped, after, place⟩ := sound.step side here
      obtain ⟨rest, walked⟩ := @ih (left.erase h.index) _ _ place
      rw [stepped]
      simp only [bind, Except.bind]
      rw [walked]
      exact ⟨_, rfl⟩
    · exact ⟨_, ended_eq left here⟩

end Walks

/-! ## Tours -/

/-- The tours over the unused vertices, each begun at the first vertex still unused, for a number of
rounds at most. -/
def toursFor (arena : Arena) (meridian : Meridian) :
    (rounds : Nat) → (left : List Nat) → Except Fault (List Tour)
  | 0, _ => .ok []
  | _ + 1, [] => .ok []
  | rounds + 1, start :: left => do
    let tour ← tourAt arena meridian (start :: left) start
    return tour :: (← toursFor arena meridian rounds tour.walk.left)

/-- The tours over all vertices of an arena.  Every tour uses up its start, so there are at most as
many of them as vertices. -/
def tours (arena : Arena) (meridian : Meridian) : Except Fault (List Tour) :=
  toursFor arena meridian arena.length (List.range arena.length)

/-- The tours that use up the indices in `left`, each begun at the first one still unused. -/
inductive Touring (arena : Arena) (meridian : Meridian) : List Nat → List Tour → Prop
  | done : Touring arena meridian [] []
  | tour {start : Nat} {left : List Nat} {t : Tour} {rest : List Tour} :
    tourAt arena meridian (start :: left) start = .ok t →
      Touring arena meridian t.walk.left rest → Touring arena meridian (start :: left) (t :: rest)

section Tours

variable {arena : Arena} {meridian : Meridian} {start : Nat} {left : List Nat} {t : Tour}

/-- A tour begins at its start, in the hemisphere of the start. -/
theorem exists_follows_tour (ok : tourAt arena meridian (start :: left) start = .ok t) :
    t.start = start ∧ ∃ node, arena[start]? = some node ∧ t.side = node.side ∧
      ∃ path, Follows arena meridian t.side (start :: left) ⟨start, true⟩ t.walk path := by
  unfold tourAt at ok
  obtain ⟨node, here, later⟩ := bind_eq_ok.1 ok
  obtain ⟨w, walked, result⟩ := bind_eq_ok.1 later
  obtain rfl := Except.ok.inj result
  exact ⟨rfl, node, node_eq_ok.1 here, rfl, exists_follows walked⟩

/-- A tour uses up its start. -/
theorem tour_left_length (ok : tourAt arena meridian (start :: left) start = .ok t) :
    t.walk.left.length ≤ left.length := by
  obtain ⟨-, node, -, -, path, follows⟩ := exists_follows_tour ok
  have moved := List.length_pos_iff.2 (follows.ne_nil List.mem_cons_self)
  have used := follows.used.length_eq
  rw [follows.visited, List.length_append, List.length_map, List.length_cons] at used
  omega

theorem touring_of_toursFor {rounds : Nat} {ts : List Tour}
    (ok : toursFor arena meridian rounds left = .ok ts) (enough : left.length ≤ rounds) :
    Touring arena meridian left ts := by
  induction rounds generalizing left ts with
  | zero =>
    obtain rfl : left = [] := List.eq_nil_of_length_eq_zero (by omega)
    obtain rfl := Except.ok.inj ok
    exact .done
  | succ rounds ih =>
    cases left with
    | nil =>
      obtain rfl := Except.ok.inj ok
      exact .done
    | cons start left =>
      rw [toursFor] at ok
      obtain ⟨t, toured, later⟩ := bind_eq_ok.1 ok
      obtain ⟨rest, others, result⟩ := bind_eq_ok.1 later
      obtain rfl := Except.ok.inj result
      have shorter := tour_left_length toured
      rw [List.length_cons] at enough
      exact .tour toured (ih others (by omega))

/-- The tours of an arena use up all its vertices. -/
theorem touring_of_tours {ts : List Tour} (ok : tours arena meridian = .ok ts) :
    Touring arena meridian (List.range arena.length) ts :=
  touring_of_toursFor ok (by rw [List.length_range])

theorem Sound.tourAt (sound : Sound arena meridian) (inside : start < arena.length)
    (left : List Nat) : ∃ t, tourAt arena meridian (start :: left) start = .ok t := by
  have here : arena[start]? = some arena[start] := List.getElem?_eq_getElem inside
  obtain ⟨w, walked⟩ := @Sound.walkFor _ _ arena[start].side (start :: left) ⟨start, true⟩ sound
    (start :: left).length _ here
  refine ⟨⟨start, arena[start].side, w⟩, ?_⟩
  rw [Split.tourAt, node_eq_ok.2 here]
  simp only [bind, Except.bind]
  rw [walk, walked]
  rfl

theorem Sound.toursFor (sound : Sound arena meridian) {rounds : Nat}
    (inside : ∀ i ∈ left, i < arena.length) :
    ∃ ts, toursFor arena meridian rounds left = .ok ts := by
  induction rounds generalizing left with
  | zero => exact ⟨[], rfl⟩
  | succ rounds ih =>
    cases left with
    | nil => exact ⟨[], rfl⟩
    | cons start left =>
      obtain ⟨t, toured⟩ := sound.tourAt (inside start List.mem_cons_self) left
      obtain ⟨-, node, -, -, path, follows⟩ := exists_follows_tour toured
      have stillInside : ∀ i ∈ t.walk.left, i < arena.length := by
        intro i member
        exact inside i (follows.used.mem_iff.1 (List.mem_append_right _ member))
      obtain ⟨rest, others⟩ := ih stillInside
      refine ⟨t :: rest, ?_⟩
      rw [Split.toursFor, toured]
      simp only [bind, Except.bind]
      rw [others]
      rfl

/-- Tours of a sound arena never fail. -/
theorem Sound.exists_tours (sound : Sound arena meridian) :
    ∃ ts, tours arena meridian = .ok ts :=
  sound.toursFor fun _ member => List.mem_range.1 member

/-- Every index is visited by exactly one tour, once. -/
theorem Touring.visited_perm {ts : List Tour} (touring : Touring arena meridian left ts) :
    (ts.flatMap fun t => t.walk.visited).Perm left := by
  induction touring with
  | done => exact List.Perm.refl []
  | tour toured rest ih =>
    obtain ⟨-, node, -, -, path, follows⟩ := exists_follows_tour toured
    exact (ih.append_left _).trans follows.used

/-- The tours of an arena visit every node. -/
theorem exists_visitor_of_node {ts : List Tour} (toured : tours arena meridian = .ok ts) {i : Nat}
    {node : Node} (place : arena[i]? = some node) : ∃ t ∈ ts, i ∈ t.walk.visited := by
  have inside := List.mem_range.2 (List.getElem?_eq_some_iff.1 place).1
  exact List.mem_flatMap.1 ((touring_of_tours toured).visited_perm.mem_iff.2 inside)

/-- Every tour is a walk from its start, in the hemisphere of its start. -/
theorem Touring.follows {ts : List Tour} (touring : Touring arena meridian left ts) :
    ∀ t ∈ ts, ∃ node, arena[t.start]? = some node ∧ t.side = node.side ∧
      ∃ left path, Follows arena meridian t.side left ⟨t.start, true⟩ t.walk path := by
  induction touring with
  | done => simp
  | tour toured rest ih =>
    obtain ⟨rfl, node, here, side, path, follows⟩ := exists_follows_tour toured
    intro t member
    rcases List.mem_cons.1 member with rfl | later
    · exact ⟨node, here, side, _, path, follows⟩
    · exact ih t later

end Tours

end Antimeridian.Split
