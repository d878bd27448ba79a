import Antimeridian.Proofs.Split.Extent

/-!
# Ranks along the meridian circle

Sorting the crossings is sorting their indices: by the places of their keys in the total order, and
by the indices themselves where keys are equal.  Ranks are the positions there, and partners are the
crossings of ranks `2k` and `2k + 1`, whatever the latitudes are.  A table of ranks, filled while
going through the sorted indices, gives the same ranks and partners as looking for the vertex of a
crossing, since the crossings of an arena leave different vertices.  For latitudes between the poles
the keys go once around the circle.  They rise along the prime meridian to the south pole, from there
along the antimeridian to the north pole, and on along the prime meridian to the equator.
-/

namespace Antimeridian.Split
open Double

/-! ## Sorting indices -/

/-- The index `i` has a lesser place than `j`, or the same one and is the lesser index. -/
def Before (place : Nat → Int) (i j : Nat) : Prop :=
  place i < place j ∨ place i = place j ∧ i < j

section

variable {place : Nat → Int}

/-- An index is inserted before those that are greater and not at a lesser place. -/
theorem pairwise_before_orderedInsert {i : Nat} {l : List Nat} (greater : ∀ j ∈ l, i < j)
    (sorted : l.Pairwise (Before place)) :
    (l.orderedInsert (fun i j => place i ≤ place j) i).Pairwise (Before place) := by
  induction l with
  | nil => exact List.pairwise_singleton _ _
  | cons j rest ih =>
    obtain ⟨first, others⟩ := List.pairwise_cons.1 sorted
    rw [List.orderedInsert_cons]
    split
    · rename_i le
      -- at an equal place it is the lesser index that comes first, and `i` is the least
      refine List.pairwise_cons.2 ⟨fun k member => ?_, sorted⟩
      have later := greater k member
      rcases List.mem_cons.1 member with rfl | inRest
      · unfold Before
        omega
      · have after := first k inRest
        unfold Before at *
        omega
    · rename_i more
      refine List.pairwise_cons.2 ⟨fun k member => ?_, ih ?_ others⟩
      · rcases (List.mem_orderedInsert _).1 member with rfl | inRest
        · exact Or.inl (by omega)
        · exact first k inRest
      · exact fun k member => greater k (List.mem_cons_of_mem j member)

/-- Increasing indices are sorted by their places, and by themselves at equal places. -/
theorem pairwise_before_insertionSort {l : List Nat} (increasing : l.Pairwise (· < ·)) :
    (l.insertionSort fun i j => place i ≤ place j).Pairwise (Before place) := by
  induction l with
  | nil => exact List.Pairwise.nil
  | cons i rest ih =>
    obtain ⟨less, others⟩ := List.pairwise_cons.1 increasing
    rw [List.insertionSort_cons]
    refine pairwise_before_orderedInsert (fun j member => ?_) (ih others)
    exact less j ((List.mem_insertionSort _).1 member)

end

/-- The place of the crossing with an index in the total order of keys. -/
def placeAt (crossings : List Crossing) (i : Nat) : Int :=
  (crossings[i]?.map fun c => orderKey c.key).getD 0

/-- The indices of the crossings in the order along the meridian circle. -/
def circleOrder (crossings : List Crossing) : List Nat :=
  (List.range crossings.length).insertionSort fun i j => placeAt crossings i ≤ placeAt crossings j

section

variable {crossings : List Crossing}

theorem map_range_getElem? {α : Type} (l : List α) :
    (List.range l.length).map (fun i => l[i]?) = l.map some := by
  refine List.ext_getElem (by simp) fun i below _ => ?_
  rw [List.length_map, List.length_range] at below
  simp [below]

/-- Sorting crossings is sorting their indices. -/
theorem map_some_ofCrossings (crossings : List Crossing) :
    (Meridian.ofCrossings crossings).map some =
      (circleOrder crossings).map fun i => crossings[i]? := by
  -- both lists are the sorted list of the crossings as options
  let place (o : Option Crossing) : Int := (o.map fun c => orderKey c.key).getD 0
  have direct : ((crossings.insertionSort fun c d => totalLe c.key d.key = true).map some) =
      (crossings.map some).insertionSort fun o p => place o ≤ place p :=
    List.map_insertionSort _ _ some crossings fun c _ d _ => decide_eq_true_iff
  have indexed : (circleOrder crossings).map (fun i => crossings[i]?) =
      ((List.range crossings.length).map fun i => crossings[i]?).insertionSort
        fun o p => place o ≤ place p :=
    List.map_insertionSort _ _ _ _ fun i _ j _ => Iff.rfl
  rw [Meridian.ofCrossings_eq_insertionSort, direct, indexed, map_range_getElem?]

theorem placeAt_eq {i : Nat} {c : Crossing} (found : crossings[i]? = some c) :
    placeAt crossings i = orderKey c.key := by
  rw [placeAt, found]
  rfl

/-- How crossings are ranked: `order` holds their indices by rank. -/
structure Ranking (crossings : List Crossing) (meridian : Meridian) (order : List Nat) : Prop where
  perm : order.Perm (List.range crossings.length)
  entries : meridian.map some = order.map fun i => crossings[i]?
  /-- Keys do not decrease, and crossings with equal keys stay in the given order. -/
  sorted : order.Pairwise fun i j => ∀ {c d : Crossing}, crossings[i]? = some c →
    crossings[j]? = some d → totalLe c.key d.key = true ∧ (totalLe d.key c.key = true → i < j)
  /-- The rank of a crossing is where its index stands. -/
  rank : ∀ {i r : Nat} {c : Crossing}, crossings[i]? = some c →
    (order[r]? = some i ↔ meridian.rank c = r)

/-- The sorted indices have keys that do not decrease, and equal keys keep their order. -/
theorem sorted_circleOrder (crossings : List Crossing) :
    (circleOrder crossings).Pairwise fun i j => ∀ {c d : Crossing}, crossings[i]? = some c →
      crossings[j]? = some d →
        totalLe c.key d.key = true ∧ (totalLe d.key c.key = true → i < j) := by
  refine (pairwise_before_insertionSort List.pairwise_lt_range).imp ?_
  intro i j before c d first second
  rw [Before, placeAt_eq first, placeAt_eq second] at before
  simp only [totalLe, decide_eq_true_iff]
  omega

/-- Sorting crossings of different edges ranks them. -/
theorem ranking_ofCrossings (distinct : (crossings.map Crossing.vertex).Nodup)
    (even : Even crossings.length) :
    Ranking crossings (.ofCrossings crossings) (circleOrder crossings) where
  perm := List.perm_insertionSort _ _
  entries := map_some_ofCrossings crossings
  sorted := sorted_circleOrder crossings
  rank := by
    intro i r c found
    have placed : ∀ {s : Nat}, (circleOrder crossings)[s]? = some i →
        (Meridian.ofCrossings crossings).rank c = s := by
      intro s stands
      have entry := congrArg (fun l => l[s]?) (map_some_ofCrossings crossings)
      rw [List.getElem?_map, List.getElem?_map, stands, Option.map_some, found,
        Option.map_eq_some_iff] at entry
      obtain ⟨d, place, equal⟩ := entry
      rw [Option.some.inj equal] at place
      exact Meridian.rank_eq (Meridian.paired_ofCrossings distinct even) place
    refine ⟨placed, ?_⟩
    rintro rfl
    have listed : i ∈ circleOrder crossings :=
      (List.mem_insertionSort _).2 (List.mem_range.2 (List.getElem?_eq_some_iff.1 found).1)
    obtain ⟨s, stands⟩ := List.getElem?_of_mem listed
    rwa [placed stands]

/-! ## Partners -/

/-- How crossings are paired. -/
structure Coupling (crossings : List Crossing) (meridian : Meridian) : Prop where
  /-- Every crossing has a partner other than itself, whose partner it is. -/
  partner : ∀ c ∈ crossings, ∃ d ∈ crossings, meridian.partner c = .ok d ∧
    meridian.partner d = .ok c ∧ d.vertex ≠ c.vertex
  /-- Partners are the crossings of ranks `2k` and `2k + 1`. -/
  ranks : ∀ c ∈ crossings, ∀ d ∈ crossings, meridian.partner c = .ok d ↔
    ∃ k, meridian.rank c = 2 * k ∧ meridian.rank d = 2 * k + 1 ∨
      meridian.rank c = 2 * k + 1 ∧ meridian.rank d = 2 * k

theorem partner_eq_ok {meridian : Meridian} {c d : Crossing} :
    meridian.partner c = .ok d ↔ meridian.partner? c = some d := by
  unfold Meridian.partner
  cases meridian.partner? c <;> simp

theorem partnerRank_eq_iff {r s : Nat} : Meridian.partnerRank r = s ↔
    ∃ k, r = 2 * k ∧ s = 2 * k + 1 ∨ r = 2 * k + 1 ∧ s = 2 * k := by
  unfold Meridian.partnerRank
  constructor
  · intro equal
    refine ⟨r / 2, ?_⟩
    split at equal <;> omega
  · rintro ⟨k, ⟨rfl, rfl⟩ | ⟨rfl, rfl⟩⟩ <;> split <;> omega

/-- One crossing is the partner of another exactly if its rank is next to the other's. -/
theorem partner?_eq_some_iff {meridian : Meridian} (paired : meridian.Paired) {c d : Crossing}
    (member : d ∈ meridian) : meridian.partner? c = some d ↔
      Meridian.partnerRank (meridian.rank c) = meridian.rank d := by
  rw [Meridian.partner?]
  constructor
  · exact fun found => (Meridian.rank_eq paired found).symm
  · intro equal
    obtain ⟨r, stands⟩ := List.getElem?_of_mem member
    rw [equal, Meridian.rank_eq paired stands, stands]

/-- Sorting crossings of different edges couples them. -/
theorem coupling_ofCrossings (distinct : (crossings.map Crossing.vertex).Nodup)
    (even : Even crossings.length) : Coupling crossings (.ofCrossings crossings) where
  partner := by
    intro c member
    have perm := Meridian.ofCrossings_perm crossings
    obtain ⟨d, inMeridian, forth, back, differ⟩ :=
      (Meridian.paired_ofCrossings distinct even).exists_partner (perm.mem_iff.2 member)
    exact ⟨d, perm.mem_iff.1 inMeridian, partner_eq_ok.2 forth, partner_eq_ok.2 back, differ⟩
  ranks := by
    intro c _ d member
    rw [partner_eq_ok, partner?_eq_some_iff (Meridian.paired_ofCrossings distinct even)
      ((Meridian.ofCrossings_perm crossings).mem_iff.2 member), partnerRank_eq_iff]

/-! ## Tables -/

/-- Writes the ranks of indices into a table, counted from `rank`. -/
def fillRanks : (rank : Nat) → (order table : List Nat) → List Nat
  | _, [], table => table
  | rank, i :: order, table => fillRanks (rank + 1) order (table.set i rank)

/-- The ranks of all indices, filled in while going through them in order. -/
def rankTable (order : List Nat) : List Nat := fillRanks 0 order (List.replicate order.length 0)

theorem fillRanks_getElem?_of_not_mem {order : List Nat} {i : Nat} (absent : i ∉ order)
    (rank : Nat) (table : List Nat) : (fillRanks rank order table)[i]? = table[i]? := by
  induction order generalizing rank table with
  | nil => rfl
  | cons j rest ih =>
    rw [List.mem_cons, not_or] at absent
    rw [fillRanks, ih absent.2, List.getElem?_set_ne (Ne.symm absent.1)]

/-- An index that stands once in the order gets its position there. -/
theorem fillRanks_getElem? {order table : List Nat} {i s : Nat} (nodup : order.Nodup)
    (below : i < table.length) (stands : order[s]? = some i) (rank : Nat) :
    (fillRanks rank order table)[i]? = some (rank + s) := by
  induction order generalizing rank table s with
  | nil => cases stands
  | cons j rest ih =>
    obtain ⟨absent, others⟩ := List.nodup_cons.1 nodup
    rw [fillRanks]
    cases s with
    | zero =>
      obtain rfl : j = i := Option.some.inj stands
      rw [fillRanks_getElem?_of_not_mem absent, List.getElem?_set_self below]
      rfl
    | succ s =>
      rw [ih others (by rwa [List.length_set]) stands, Nat.add_assoc, Nat.add_comm 1]

/-- The partner of the crossing with an index, looked up in the tables of ranks and of indices. -/
def partnerAt (crossings : List Crossing) (order : List Nat) (i : Nat) : Option Crossing := do
  let rank ← (rankTable order)[i]?
  crossings[← order[Meridian.partnerRank rank]?]?

section

variable {meridian : Meridian} {order : List Nat} {i : Nat} {c : Crossing}

theorem Ranking.rankTable_getElem? (ranking : Ranking crossings meridian order)
    (found : crossings[i]? = some c) : (rankTable order)[i]? = some (meridian.rank c) := by
  have nodup : order.Nodup := ranking.perm.nodup_iff.2 List.nodup_range
  have stands := (ranking.rank found).2 rfl
  have below : i < (List.replicate order.length 0).length := by
    rw [List.length_replicate, ranking.perm.length_eq, List.length_range]
    exact (List.getElem?_eq_some_iff.1 found).1
  rw [rankTable, fillRanks_getElem? nodup below stands, Nat.zero_add]

/-- The crossing of a rank is the one whose index has that rank. -/
theorem Ranking.getElem?_eq (ranking : Ranking crossings meridian order) (r : Nat) :
    meridian[r]? = order[r]?.bind fun i => crossings[i]? := by
  have entry := congrArg (fun l => l[r]?) ranking.entries
  simp only [List.getElem?_map] at entry
  cases stands : order[r]? with
  | none =>
    rw [stands, Option.map_none, Option.map_eq_none_iff] at entry
    exact entry
  | some i =>
    rw [stands, Option.map_some, Option.map_eq_some_iff] at entry
    obtain ⟨c, place, equal⟩ := entry
    exact place.trans equal

/-- The tables give the partner that is found by vertex. -/
theorem Ranking.partnerAt_eq (ranking : Ranking crossings meridian order)
    (found : crossings[i]? = some c) : partnerAt crossings order i = meridian.partner? c := by
  rw [partnerAt, ranking.rankTable_getElem? found, Meridian.partner?, ranking.getElem?_eq]
  rfl

end

end

/-! ## Keys -/

section

variable {c d : Crossing}

theorem key_of_antimeridian (anti : c.prime = false) : c.key = c.lat := by
  rw [Crossing.key, if_neg (by simp [anti])]

theorem key_of_south (prime : c.prime = true) (south : c.lat < 0) :
    c.key = -Angle.pi - c.lat := by
  rw [Crossing.key, if_pos prime, if_pos south]

theorem key_of_north (prime : c.prime = true) (north : 0 ≤ c.lat) : c.key = Angle.pi - c.lat := by
  have notSouth : ¬c.lat < 0 := by
    intro south
    have below := lt_zero_iff_rank.1 south
    have above := (le_iff_rank.1 north).2.2
    rw [rank_zero] at above
    omega
  rw [Crossing.key, if_pos prime, if_neg notSouth]

/-- On the prime meridian keys fall with the latitude, on either side of the equator. -/
theorem key_le_key_of_prime (first : c.lat.isFinite = true) (second : d.lat.isFinite = true)
    (prime : c.prime = true) (prime' : d.prime = true)
    (sameSide : c.lat < 0 ∧ d.lat < 0 ∨ 0 ≤ c.lat ∧ 0 ≤ d.lat) (le : c.lat ≤ d.lat) :
    d.key ≤ c.key := by
  rcases sameSide with ⟨south, south'⟩ | ⟨north, north'⟩
  · rw [key_of_south prime south, key_of_south prime' south']
    exact sub_antitone (isFinite_neg isFinite_pi) first second le
  · rw [key_of_north prime north, key_of_north prime' north']
    exact sub_antitone isFinite_pi first second le

/-- The southern half of the prime meridian comes before the south pole of the antimeridian. -/
theorem key_le_of_south (within : Within (Angle.pi / 2) c.lat) (prime : c.prime = true)
    (south : c.lat < 0) : c.key ≤ -(Angle.pi / 2) := by
  have pole : -Angle.pi - -(Angle.pi / 2) ≤ -(Angle.pi / 2) := by decide +kernel
  rw [key_of_south prime south]
  exact le_transitive (sub_antitone (isFinite_neg isFinite_pi) (isFinite_neg isFinite_half_pi)
    (within.isFinite isFinite_half_pi) within.1) pole

/-- The northern half of the prime meridian comes after the north pole of the antimeridian. -/
theorem le_key_of_north (within : Within (Angle.pi / 2) c.lat) (prime : c.prime = true)
    (north : 0 ≤ c.lat) : Angle.pi / 2 ≤ c.key := by
  have pole : Angle.pi / 2 ≤ Angle.pi - Angle.pi / 2 := by decide +kernel
  rw [key_of_north prime north]
  exact le_transitive pole (sub_antitone isFinite_pi (within.isFinite isFinite_half_pi)
    isFinite_half_pi within.2)

end

/-- The keys of crossings follow the meridian circle: first the southern half of the prime meridian,
then the antimeridian, then the northern half of the prime meridian. -/
structure FollowsCircle (crossings : List Crossing) : Prop where
  south : ∀ c ∈ crossings, ∀ d ∈ crossings, c.prime = true → c.lat < 0 → d.prime = false →
    c.key ≤ d.key
  north : ∀ c ∈ crossings, ∀ d ∈ crossings, c.prime = false → d.prime = true → 0 ≤ d.lat →
    c.key ≤ d.key
  rising : ∀ c ∈ crossings, ∀ d ∈ crossings, c.prime = false → d.prime = false → c.lat < d.lat →
    c.key < d.key
  falling : ∀ c ∈ crossings, ∀ d ∈ crossings, c.prime = true → d.prime = true →
    (c.lat < 0 ∧ d.lat < 0 ∨ 0 ≤ c.lat ∧ 0 ≤ d.lat) → c.lat ≤ d.lat → d.key ≤ c.key

/-- Latitudes between the poles make the keys follow the circle, in spite of rounding. -/
theorem followsCircle_of_within {crossings : List Crossing}
    (within : ∀ c ∈ crossings, Within (Angle.pi / 2) c.lat) : FollowsCircle crossings where
  south := by
    intro c cIn d dIn prime south anti
    rw [key_of_antimeridian anti]
    exact le_transitive (key_le_of_south (within c cIn) prime south) (within d dIn).1
  north := by
    intro c cIn d dIn anti prime north
    rw [key_of_antimeridian anti]
    exact le_transitive (within c cIn).2 (le_key_of_north (within d dIn) prime north)
  rising := by
    intro c _ d _ anti anti' less
    rwa [key_of_antimeridian anti, key_of_antimeridian anti']
  falling := by
    intro c cIn d dIn prime prime' sameSide le
    exact key_le_key_of_prime ((within c cIn).isFinite isFinite_half_pi)
      ((within d dIn).isFinite isFinite_half_pi) prime prime' sameSide le

/-- Crossings of different edges, an even number of them, are ranked by their keys and then by their
order, and paired by their ranks.  If all their latitudes lie between the poles, the keys follow the
meridian circle. -/
theorem ranked_and_paired {crossings : List Crossing}
    (distinct : (crossings.map Crossing.vertex).Nodup) (even : Even crossings.length) :
    (∃ order, Ranking crossings (.ofCrossings crossings) order) ∧
    Coupling crossings (.ofCrossings crossings) ∧
    ((∀ c ∈ crossings, Within (Angle.pi / 2) c.lat) → FollowsCircle crossings) :=
  ⟨⟨_, ranking_ofCrossings distinct even⟩, coupling_ofCrossings distinct even,
    followsCircle_of_within⟩

/-- Crossings on both meridians, two of them at the same place. -/
def fourCrossings : List Crossing :=
  [⟨true, true, 1, 0⟩, ⟨false, false, 0.5, 2⟩, ⟨true, true, -1, 3⟩, ⟨false, false, 0.5, 5⟩]

/-- Four crossings on both meridians get the ranks of their places. -/
theorem ranked_and_paired_fourCrossings :
    (fourCrossings.map Crossing.vertex).Nodup ∧ Even fourCrossings.length ∧
    (∀ c ∈ fourCrossings, Within (Angle.pi / 2) c.lat) ∧
    (∃ order, Ranking fourCrossings (.ofCrossings fourCrossings) order) ∧
    Coupling fourCrossings (.ofCrossings fourCrossings) ∧ FollowsCircle fourCrossings ∧
    fourCrossings.map (Meridian.ofCrossings fourCrossings).rank = [3, 1, 0, 2] := by
  have distinct : (fourCrossings.map Crossing.vertex).Nodup := by decide
  have even : Even fourCrossings.length := by decide
  have within : ∀ c ∈ fourCrossings, Within (Angle.pi / 2) c.lat := by decide +kernel
  obtain ⟨ranking, coupling, follows⟩ := ranked_and_paired distinct even
  exact ⟨distinct, even, within, ranking, coupling, follows within, by decide +kernel⟩

/-- The crossings of rings are on different edges, so an even number of them is ranked and paired
whatever the rings are.  The tables of ranks and indices give the ranks and partners of all of them,
and the keys follow the meridian circle if all vertices are finite. -/
theorem ofRings_ranked [Trig] [Trig.Lawful] {rings : List Ring} {crossings : List Crossing}
    (laidOut : (Arena.ofRings rings).crossings = crossings) (even : Even crossings.length) :
    (∃ order, Ranking crossings (.ofCrossings crossings) order ∧
      ∀ {i : Nat} {c : Crossing}, crossings[i]? = some c →
        (rankTable order)[i]? = some ((Meridian.ofCrossings crossings).rank c) ∧
        partnerAt crossings order i = (Meridian.ofCrossings crossings).partner? c) ∧
    Coupling crossings (.ofCrossings crossings) ∧
    ((∀ ring ∈ rings, ∀ c ∈ ring, c.IsFinite) → FollowsCircle crossings) := by
  subst laidOut
  have distinct := (ofRings_linked rings).distinct_crossings
  have ranking := ranking_ofCrossings distinct even
  refine ⟨⟨_, ranking, ?_⟩, coupling_ofCrossings distinct even, ?_⟩
  · exact fun found => ⟨ranking.rankTable_getElem? found, ranking.partnerAt_eq found⟩
  · exact fun finite => followsCircle_of_within fun c => within_lat_of_mem_crossings finite

end Antimeridian.Split
