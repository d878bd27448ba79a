import Antimeridian.Proofs.Json.Printer

/-!
# Numbers in values

A whole number is read back from what is written for it.  A double is read back if the format in use
does so: the laws of a format only ask for numbers that JSON allows, and each double is asked for on
its own.  The standard format reads by scaling, and with it most doubles come back and some do not.
-/

namespace Antimeridian.Json

/-- What values rely on in a format for doubles. -/
class DoubleFormat.Lawful [DoubleFormat] : Prop where
  wellFormed : ∀ {x : Float}, x.isFinite = true → (DoubleFormat.write x).WellFormed

/-- The numbers with the fewest digits are well formed. -/
instance Numeral.lawful : DoubleFormat.Lawful where
  wellFormed _ := Numeral.wellFormed_ofDouble _

/-- The number written for the double is read as that double. -/
def ReadsBack [DoubleFormat] (x : Float) : Prop :=
  DoubleFormat.read? (DoubleFormat.write x) = some x

-- the double nearest to `24.550459182186426` is written so, and read as the double below it
example : (Numeral.ofDouble (Float.ofBits 0x40388ceae499460b)).toDouble? =
    some (Float.ofBits 0x40388ceae499460a) := by decide +kernel

namespace Value

/-- A whole number comes back wherever it is small enough. -/
theorem toNatBelow?_ofNat {n bound : Nat} (below : n < bound) :
    (ofNat n).toNatBelow? bound = some n := by
  have value : (Numeral.ofNat n).toNat? = some n := congrArg some (digitsValue_digitChars n)
  rw [ofNat, toNatBelow?, value]
  exact if_pos below

/-- A finite double is read from its number, and null is not read as a double. -/
theorem toDouble?_ofDouble [DoubleFormat] (x : Float) : (ofDouble x).toDouble? =
    if x.isFinite then DoubleFormat.read? (DoubleFormat.write x) else none := by
  unfold ofDouble
  split <;> rfl

theorem wellFormed_ofDouble [DoubleFormat] [DoubleFormat.Lawful] (x : Float) :
    (ofDouble x).WellFormed := by
  unfold ofDouble
  split
  · rename_i finite
    exact DoubleFormat.Lawful.wellFormed finite
  · trivial

end Value

end Antimeridian.Json
