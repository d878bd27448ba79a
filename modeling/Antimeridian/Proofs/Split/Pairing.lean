import Antimeridian.Split.Meridian
import Antimeridian.Proofs.Split.Layout

/-!
# Partners on the meridian circle

The crossings of an arena leave different vertices, so each has one rank on the meridian circle, and
if their number is even each has one partner.  Being partners is mutual, and no crossing is its own
partner.
-/

namespace Antimeridian.Split
namespace Meridian

theorem insert_eq_orderedInsert (c : Crossing) (meridian : Meridian) :
    insert c meridian =
      meridian.orderedInsert (fun c d => Double.totalLe c.key d.key = true) c := by
  induction meridian with
  | nil => rfl
  | cons d rest ih => rw [insert, List.orderedInsert_cons, ih]

/-- Crossings are sorted by insertion, so that equal keys keep their order. -/
theorem ofCrossings_eq_insertionSort (crossings : List Crossing) : ofCrossings crossings =
    crossings.insertionSort fun c d => Double.totalLe c.key d.key = true := by
  induction crossings with
  | nil => rfl
  | cons c rest ih =>
    rw [List.insertionSort_cons, ← ih, ← insert_eq_orderedInsert]
    rfl

/-- Sorting keeps the crossings. -/
theorem ofCrossings_perm (crossings : List Crossing) :
    (ofCrossings crossings).Perm crossings := by
  rw [ofCrossings_eq_insertionSort]
  exact List.perm_insertionSort _ crossings

/-! ## Ranks -/

theorem partnerRank_involutive (rank : Nat) : partnerRank (partnerRank rank) = rank := by
  unfold partnerRank; split <;> split <;> omega

theorem partnerRank_ne (rank : Nat) : partnerRank rank ≠ rank := by
  unfold partnerRank; split <;> omega

/-- Among an even number every rank has a partner. -/
theorem partnerRank_lt {rank size : Nat} (even : Even size) (below : rank < size) :
    partnerRank rank < size := by
  obtain ⟨half, rfl⟩ := even
  unfold partnerRank; split <;> omega

/-- An even number of crossings of different edges. -/
structure Paired (meridian : Meridian) : Prop where
  even : Even meridian.length
  distinct : (meridian.map Crossing.vertex).Nodup

/-- Sorting crossings of different edges, an even number of them, pairs them. -/
theorem paired_ofCrossings {crossings : List Crossing}
    (distinct : (crossings.map Crossing.vertex).Nodup) (even : Even crossings.length) :
    (ofCrossings crossings).Paired where
  even := by rwa [(ofCrossings_perm crossings).length_eq]
  distinct := ((ofCrossings_perm crossings).map _).nodup_iff.2 distinct

variable {meridian : Meridian}

theorem Paired.vertex_inj (paired : meridian.Paired) {i j : Nat} {c d : Crossing}
    (first : meridian[i]? = some c) (second : meridian[j]? = some d)
    (equal : c.vertex = d.vertex) : i = j := by
  have below : i < (meridian.map Crossing.vertex).length := by
    rw [List.length_map]
    exact (List.getElem?_eq_some_iff.1 first).1
  apply (List.getElem?_inj below paired.distinct).1
  rw [List.getElem?_map, List.getElem?_map, first, second, Option.map_some, Option.map_some, equal]

/-- The rank of a crossing is where it stands. -/
theorem rank_eq (paired : meridian.Paired) {rank : Nat} {c : Crossing}
    (found : meridian[rank]? = some c) : meridian.rank c = rank := by
  obtain ⟨below, rfl⟩ := List.getElem?_eq_some_iff.1 found
  rw [Meridian.rank, List.findIdx_eq below]
  refine ⟨beq_self_eq_true _, ?_⟩
  intro j earlier
  rw [beq_eq_false_iff_ne]
  intro equal
  have indices := paired.vertex_inj (List.getElem?_eq_getElem (by omega)) found equal
  omega

/-- The partner of a crossing stands at the partner rank. -/
theorem partner?_eq (paired : meridian.Paired) {rank : Nat} {c : Crossing}
    (found : meridian[rank]? = some c) : meridian.partner? c = meridian[partnerRank rank]? := by
  rw [partner?, rank_eq paired found]

/-- Every crossing has a partner other than itself, whose partner it is. -/
theorem Paired.exists_partner (paired : meridian.Paired) {c : Crossing} (member : c ∈ meridian) :
    ∃ d ∈ meridian, meridian.partner? c = some d ∧ meridian.partner? d = some c ∧
      d.vertex ≠ c.vertex := by
  obtain ⟨rank, below, rfl⟩ := List.getElem_of_mem member
  have other := partnerRank_lt paired.even below
  refine ⟨meridian[partnerRank rank], List.getElem_mem other, ?_, ?_, ?_⟩
  · rw [partner?_eq paired (List.getElem?_eq_getElem below), List.getElem?_eq_getElem other]
  · rw [partner?_eq paired (List.getElem?_eq_getElem other), partnerRank_involutive,
      List.getElem?_eq_getElem below]
  · intro equal
    exact partnerRank_ne rank (paired.vertex_inj (List.getElem?_eq_getElem other)
      (List.getElem?_eq_getElem below) equal)

end Meridian

/-! ## The crossings of an arena -/

/-- The crossings stand in the order of the vertices they leave. -/
theorem crossings_sublist {arena : Arena} {offset : Nat}
    (vertex : ∀ {i : Nat} {node : Node} {c : Crossing}, arena[i]? = some node →
      node.crossing = some c → c.vertex = offset + i) :
    (arena.crossings.map Crossing.vertex).Sublist (List.range' offset arena.length) := by
  unfold Arena.crossings
  induction arena generalizing offset with
  | nil => exact List.Sublist.refl []
  | cons node rest ih =>
    have later : ∀ {i : Nat} {node : Node} {c : Crossing}, rest[i]? = some node →
        node.crossing = some c → c.vertex = offset + 1 + i := by
      intro i other c found crossing
      rw [@vertex (i + 1) other c found crossing]
      omega
    rw [List.length_cons, List.range'_succ, List.filterMap_cons]
    cases crossing : node.crossing with
    | none => exact (ih later).cons offset
    | some c =>
      have here : c.vertex = offset := @vertex 0 node c rfl crossing
      rw [← here] at later ⊢
      exact (ih later).cons_cons c.vertex

/-- The crossings of a linked arena are on different edges. -/
theorem Linked.distinct_crossings {arena : Arena} (linked : Linked arena) :
    (arena.crossings.map Crossing.vertex).Nodup := by
  have sublist := @crossings_sublist arena 0 (by
    intro i node c found crossing
    rw [linked.vertex found crossing, Nat.zero_add])
  exact sublist.nodup List.nodup_range'

/-- The crossings of a linked arena can be paired if their number is even. -/
theorem Linked.paired {arena : Arena} (linked : Linked arena)
    (even : Even arena.crossings.length) : (Meridian.ofCrossings arena.crossings).Paired :=
  Meridian.paired_ofCrossings linked.distinct_crossings even

theorem mem_crossings {arena : Arena} {i : Nat} {node : Node} {c : Crossing}
    (found : arena[i]? = some node) (crossing : node.crossing = some c) : c ∈ arena.crossings :=
  List.mem_filterMap.2 ⟨node, List.mem_of_getElem? found, crossing⟩

end Antimeridian.Split
