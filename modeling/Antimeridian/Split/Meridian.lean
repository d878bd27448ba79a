import Antimeridian.Split.Arena

/-!
# Crossings along the meridian circle

Going once around the meridian circle, the inside of the cut rings begins at one crossing and ends
at the next.  So the crossings are sorted along the circle, and those of ranks `2k` and `2k + 1` are
partners: the seam between them belongs to the cut on both sides.
-/

namespace Antimeridian.Split

/-- The crossings in the order in which they lie on the meridian circle. -/
abbrev Meridian := List Crossing

namespace Meridian

/-- Puts a crossing before the first one that does not come before it. -/
def insert (c : Crossing) : Meridian → Meridian
  | [] => [c]
  | d :: rest => if Double.totalLe c.key d.key then c :: d :: rest else d :: insert c rest

/-- Sorts crossings along the meridian circle; where keys are equal the given order stays. -/
def ofCrossings (crossings : List Crossing) : Meridian := crossings.foldr insert []

/-- The rank of a crossing, found by the vertex that its edge leaves. -/
def rank (meridian : Meridian) (c : Crossing) : Nat :=
  meridian.findIdx fun d => d.vertex == c.vertex

/-- The rank next to an even one from above and to an odd one from below. -/
def partnerRank (rank : Nat) : Nat := if rank % 2 = 0 then rank + 1 else rank - 1

/-- The other end of the seam that begins or ends at a crossing. -/
def partner? (meridian : Meridian) (c : Crossing) : Option Crossing :=
  meridian[partnerRank (meridian.rank c)]?

end Meridian

end Antimeridian.Split
