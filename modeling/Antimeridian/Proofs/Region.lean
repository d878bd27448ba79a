import Antimeridian.Proofs.Split.Parity
import Antimeridian.Proofs.Split.Parts

/-!
# Splitting a region

The polygons of a region are split one by one.  A region in which nothing crosses the antimeridian
stays as it is.  So splitting twice is splitting once, as long as the parts of the first split do not
cross; they may if a ring that is cut begins on the prime meridian between different hemispheres.
-/

namespace Antimeridian

/-- What takes the place of a polygon when its region is split. -/
def Polygon.pieces [Trig] (p : Polygon) : Except Fault (List Polygon) :=
  if p.crosses then p.split.result else .ok [p]

namespace Region
open Split

section

variable [Trig]

/-- The polygons of a region are split in order, and the first fault ends it. -/
theorem split_cons (p : Polygon) (rest : Region) :
    (split (p :: rest)).result =
      p.pieces >>= fun parts => (split rest).result >>= fun others => .ok (parts ++ others) := by
  have onward : ∀ parts, (do return parts ++ (← split rest) : Traced Region).result =
      (split rest).result >>= fun others => .ok (parts ++ others) := by
    intro parts
    exact Traced.result_bind _ _
  rw [split, Polygon.pieces]
  split
  · rw [Traced.result_bind]
    exact bind_congr onward
  · rw [Traced.result_bind]
    exact bind_congr onward

/-- A region is split if all its polygons are. -/
theorem split_cons_eq_ok {p : Polygon} {rest out : Region} :
    (split (p :: rest)).result = .ok out ↔ ∃ parts others, p.pieces = .ok parts ∧
      (split rest).result = .ok others ∧ out = parts ++ others := by
  rw [split_cons]
  constructor
  · intro ok
    obtain ⟨parts, first, later⟩ := bind_eq_ok.1 ok
    obtain ⟨others, second, result⟩ := bind_eq_ok.1 later
    exact ⟨parts, others, first, second, (Except.ok.inj result).symm⟩
  · rintro ⟨parts, others, first, second, rfl⟩
    rw [first, second]
    rfl

/-- Every polygon of a split region stands in the place of one polygon. -/
theorem mem_pieces_of_split {region out : Region} (ok : region.split.result = .ok out)
    {q : Polygon} (member : q ∈ out) : ∃ p ∈ region, ∃ parts, p.pieces = .ok parts ∧ q ∈ parts := by
  induction region generalizing out with
  | nil =>
    obtain rfl := Except.ok.inj ok
    cases member
  | cons p rest ih =>
    obtain ⟨parts, others, first, second, rfl⟩ := split_cons_eq_ok.1 ok
    rcases List.mem_append.1 member with here | later
    · exact ⟨p, List.mem_cons_self, parts, first, here⟩
    · obtain ⟨p', inRest, found⟩ := ih second later
      exact ⟨p', List.mem_cons_of_mem p inRest, found⟩

/-- A region in which no polygon crosses stays as it is. -/
theorem split_of_not_crosses {region : Region} (whole : region.crosses = false) :
    region.split.result = .ok region := by
  induction region with
  | nil => rfl
  | cons p rest ih =>
    rw [crosses, List.any_cons, Bool.or_eq_false_iff] at whole
    have piece : p.pieces = .ok [p] := by simp [Polygon.pieces, whole.1]
    exact split_cons_eq_ok.2 ⟨[p], rest, piece, ih whole.2, rfl⟩

end

theorem cutRings_subset (p : Polygon) : cutRings p ⊆ p.rings :=
  List.cons_subset_cons _ (List.filter_subset_self _)

/-- Whatever takes the place of a polygon does not cross, if the rings that are cut are balanced. -/
theorem not_crosses_of_pieces {p : Polygon} {parts : List Polygon}
    (onMap : ∀ ring ∈ p.rings, ∀ c ∈ ring, c.OnMap)
    (balanced : p.crosses = true → ∀ ring ∈ cutRings p, Balanced ring)
    (pieces : p.pieces = .ok parts) : ∀ q ∈ parts, q.crosses = false := by
  unfold Polygon.pieces at pieces
  by_cases across : p.crosses = true
  · rw [if_pos across] at pieces
    exact not_crosses_of_split (fun ring inCut => onMap ring (cutRings_subset p inCut))
      (balanced across) pieces
  · rw [if_neg across] at pieces
    obtain rfl := Except.ok.inj pieces
    simpa using across

/-- A region that was split has no polygon left to split, and splitting it again changes nothing, if
none of the rings that are cut begins on the prime meridian between different hemispheres. -/
theorem split_split {region out : Region}
    (onMap : ∀ p ∈ region, ∀ ring ∈ p.rings, ∀ c ∈ ring, c.OnMap)
    (started : ∀ p ∈ region, p.crosses = true → ∀ ring ∈ cutRings p, ¬BeginsAstride ring)
    (ok : region.split.result = .ok out) :
    out.crosses = false ∧ out.split.result = .ok out := by
  have whole : out.crosses = false := by
    rw [crosses, List.any_eq_false]
    intro q member
    obtain ⟨p, inRegion, parts, pieces, inParts⟩ := mem_pieces_of_split ok member
    have balanced : p.crosses = true → ∀ ring ∈ cutRings p, Balanced ring := by
      intro across ring inCut
      exact (balanced_iff ring).2 (started p inRegion across ring inCut)
    rw [not_crosses_of_pieces (onMap p inRegion) balanced pieces q inParts]
    exact Bool.false_ne_true
  exact ⟨whole, split_of_not_crosses whole⟩

/-- The parts of a ribbon are not split again. -/
theorem split_split_ribbon : ∃ out, (split [ribbon]).result = .ok out ∧
    out.crosses = false ∧ out.split.result = .ok out := by
  have onMap : ∀ p ∈ [ribbon], ∀ ring ∈ p.rings, ∀ c ∈ ring, c.OnMap := by decide +kernel
  have started : ∀ p ∈ [ribbon], p.crosses = true → ∀ ring ∈ cutRings p, ¬BeginsAstride ring := by
    decide +kernel
  have succeeds : (split [ribbon]).result.isOk = true := by decide +kernel
  obtain ⟨out, ok⟩ := exists_of_isOk succeeds
  exact ⟨out, ok, split_split onMap started ok⟩

/-- A ring around the north pole with a hole around the pole, both listed from the prime meridian. -/
def collar : Polygon := ⟨[⟨0.5, 0⟩, ⟨0.5, 3⟩, ⟨0.5, -3⟩], [[⟨1, 0⟩, ⟨1, 3⟩, ⟨1, -3⟩]]⟩

/-- Two rings that begin on the prime meridian between different hemispheres pass the check on the
number of crossings together.  Then a part can go on over the antimeridian, and would be split
again. -/
theorem split_collar_crosses : (∀ ring ∈ collar.rings, ∀ c ∈ ring, c.Proper) ∧
    ∃ out, (split [collar]).result = .ok out ∧ out.crosses = true ∧ out.split.result ≠ .ok out := by
  have evaluated : ((split [collar]).result.map fun out =>
      (out.crosses, out.length, out.split.result.toOption.map List.length)).toOption =
        some (true, 2, some 3) := by decide +kernel
  refine ⟨by decide +kernel, ?_⟩
  cases ok : (split [collar]).result with
  | error fault =>
    rw [ok] at evaluated
    cases evaluated
  | ok out =>
    rw [ok] at evaluated
    obtain ⟨across, two, three⟩ : out.crosses = true ∧ out.length = 2 ∧
        out.split.result.toOption.map List.length = some 3 := by
      simpa [Except.map, Except.toOption] using evaluated
    refine ⟨out, rfl, across, ?_⟩
    intro again
    rw [again] at three
    simp [Except.toOption, two] at three

end Region

end Antimeridian
