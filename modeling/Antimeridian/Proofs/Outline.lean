import Antimeridian.Proofs.Coord

/-!
# Outlines

The outline of a list of edges is what one sees of it: which undirected edges there are and how often,
where ends that are numerically equal are one spot and edges of no length are left out.  The outline
of a line through points does not change when it is gone through backwards or when a repeated point
is left out.
-/

namespace Antimeridian

namespace Coord

/-- Identical, or numerically equal; a coordinate with a NaN is only alike itself. -/
def Alike (a b : Coord) : Prop := a = b ∨ a.same b = true

theorem alike_equivalence : Equivalence Alike where
  refl _ := Or.inl rfl
  symm := by
    rintro a b (rfl | equal)
    · exact Or.inl rfl
    · exact Or.inr (same_symm equal)
  trans := by
    rintro a b c (rfl | equal) second
    · exact second
    · rcases second with rfl | equal'
      · exact Or.inr equal
      · exact Or.inr (same_trans equal equal')

end Coord

/-- A place, whatever the sign of its zeros. -/
def Spot : Type := Quotient (Setoid.mk Coord.Alike Coord.alike_equivalence)

/-- The spot of a coordinate. -/
def Coord.spot (c : Coord) : Spot := Quotient.mk _ c

theorem Coord.spot_eq_of_same {a b : Coord} (equal : a.same b = true) : a.spot = b.spot :=
  Quotient.sound (s := Setoid.mk Coord.Alike Coord.alike_equivalence) (Or.inr equal)

theorem Coord.alike_of_spot_eq {a b : Coord} (equal : a.spot = b.spot) : a.Alike b :=
  Quotient.exact (s := Setoid.mk Coord.Alike Coord.alike_equivalence) equal

/-- Undirected edges between spots, as often as they occur. -/
abbrev Drawing := Multiset (Sym2 Spot)

open Classical in
/-- The edges as a drawing, those from a spot to itself left out. -/
noncomputable def outline (es : List (Coord × Coord)) : Drawing :=
  Multiset.filter (fun e => ¬e.IsDiag)
    (Multiset.ofList (es.map fun e => s(e.1.spot, e.2.spot)))

@[simp] theorem outline_nil : outline [] = 0 := by simp [outline]

theorem outline_append (es fs : List (Coord × Coord)) :
    outline (es ++ fs) = outline es + outline fs := by
  simp [outline, ← Multiset.coe_add, Multiset.filter_add]

theorem outline_cons (e : Coord × Coord) (es : List (Coord × Coord)) :
    outline (e :: es) = outline [e] + outline es := outline_append [e] es

/-- Edges may be drawn group by group. -/
theorem outline_flatMap {α : Type} (l : List α) (f : α → List (Coord × Coord)) :
    outline (l.flatMap f) = (l.map fun a => outline (f a)).sum := by
  induction l with
  | nil => simp
  | cons a rest ih => rw [List.flatMap_cons, outline_append, ih, List.map_cons, List.sum_cons]

/-- Edges have no direction. -/
theorem outline_swap (a b : Coord) : outline [(a, b)] = outline [(b, a)] := by
  simp [outline, Sym2.eq_swap]

/-- An edge of no length is not drawn. -/
theorem outline_eq_zero {a b : Coord} (equal : a.spot = b.spot) : outline [(a, b)] = 0 := by
  simp [outline, equal]

theorem outline_congr {a b c : Coord} (equal : a.spot = b.spot) :
    outline [(a, c)] = outline [(b, c)] := by
  simp [outline, equal]

/-! ## Lines -/

/-- The edges of a line through points. -/
def trail : List Coord → List (Coord × Coord)
  | a :: b :: rest => (a, b) :: trail (b :: rest)
  | _ => []

/-- A trail may be cut at any vertex. -/
theorem trail_append (l : List Coord) (a : Coord) (r : List Coord) :
    trail (l ++ a :: r) = trail (l ++ [a]) ++ trail (a :: r) := by
  induction l with
  | nil => simp [trail]
  | cons b rest ih =>
    cases rest with
    | nil => simp [trail]
    | cons c rest =>
      simp only [List.cons_append, trail] at ih ⊢
      rw [ih]

/-- The edges of a ring are the trail that comes back to its first vertex. -/
theorem cyclicPairs_cons (a : Coord) (rest : List Coord) :
    cyclicPairs (a :: rest) = trail (a :: rest ++ [a]) := by
  unfold cyclicPairs
  generalize a = last
  suffices ∀ first, (first :: rest).zip (rest ++ [last]) = trail (first :: rest ++ [last]) from
    this last
  induction rest with
  | nil => intro first; simp [trail]
  | cons b rest ih =>
    intro first
    simp only [List.cons_append, List.zip_cons_cons, trail] at ih ⊢
    rw [ih]

/-- A trail shows the same in both directions. -/
theorem outline_trail_reverse (l : List Coord) : outline (trail l.reverse) = outline (trail l) := by
  induction l with
  | nil => rfl
  | cons a rest ih =>
    cases rest with
    | nil => rfl
    | cons b rest =>
      rw [List.reverse_cons, List.reverse_cons, List.append_assoc, List.singleton_append,
        trail_append, outline_append, ← List.reverse_cons, ih]
      simp only [trail]
      rw [outline_cons (a, b), outline_swap, add_comm]

theorem outline_trail_congr {a b : Coord} (equal : a.spot = b.spot) (rest : List Coord) :
    outline (trail (a :: rest)) = outline (trail (b :: rest)) := by
  cases rest with
  | nil => rfl
  | cons c rest =>
    simp only [trail]
    rw [outline_cons, outline_congr equal, ← outline_cons]

end Antimeridian
