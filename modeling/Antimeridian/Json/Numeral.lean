import Antimeridian.Decimal.Scale
import Antimeridian.Decimal.Text

/-!
# Numbers in JSON

A number in a JSON text is kept as it is written, since its form decides what it can be read as: a
whole number has neither a fraction nor an exponent, and any number can be read as a double.  A
double is read by scaling as many of the digits as 64 bits hold, so it may be a neighbour of the
double nearest to the number.

A double is written with the fewest digits to which it is the nearest double.  It is written out
when its first digit stands for a power of ten from `-5` to `15`, with a digit on both sides of the
point, and with an exponent otherwise.

Values and records do not rely on these rules.  They are written for any `DoubleFormat`, and this is
the one that is meant when nothing else is said.
-/

namespace Antimeridian.Json

/-- A power of ten, with the sign and the digits of its exponent. -/
structure Exponent where
  negative : Bool
  digits : List Char
  deriving DecidableEq, Repr

/-- A number as it is written. -/
structure Numeral where
  negative : Bool
  whole : List Char
  fraction : Option (List Char)
  exponent : Option Exponent
  deriving DecidableEq, Repr

/-- The number with one more decimal digit. -/
def appendDigit (n : Nat) (c : Char) : Nat := 10 * n + (c.toNat - '0'.toNat)

/-- The number that a list of decimal digits stands for. -/
def digitsValue (digits : List Char) : Nat := digits.foldl appendDigit 0

/-- Takes the digits of a whole part after `n` as long as 64 bits hold them; the others count as
powers of ten. -/
def gatherWhole : (n : Nat) → List Char → Decimal
  | n, [] => ⟨n, 0⟩
  | n, c :: rest =>
    if appendDigit n c < UInt64.size then gatherWhole (appendDigit n c) rest
    else ⟨n, rest.length + 1⟩

/-- Takes the digits of a fraction as long as 64 bits hold them; the others are left out. -/
def gatherFraction : Decimal → List Char → Decimal
  | d, [] => d
  | d, c :: rest =>
    if appendDigit d.digits c < UInt64.size then
      gatherFraction ⟨appendDigit d.digits c, d.exponent - 1⟩ rest
    else d

/-- The value of an exponent. -/
def Exponent.value (e : Exponent) : Int :=
  if e.negative then -(digitsValue e.digits : Int) else digitsValue e.digits

namespace Numeral

/-- A whole number that is not negative. -/
def ofNat (n : Nat) : Numeral := ⟨false, Decimal.digitChars n, none, none⟩

/-- The value of a whole number without a sign; anything else has none, not even a zero with a
sign. -/
def toNat? (n : Numeral) : Option Nat :=
  if n.negative || n.fraction.isSome || n.exponent.isSome then none
  else some (digitsValue n.whole)

/-- The value of the exponent, zero when there is none. -/
def power (n : Numeral) : Int :=
  match n.exponent with
  | some e => e.value
  | none => 0

/-- The digits and the power of ten of a number without its sign, as far as 64 bits hold the digits:
in the whole part and again in the fraction, digits are taken up to the first one that does not
fit. -/
def decimal (n : Numeral) : Decimal :=
  let d := gatherFraction (gatherWhole 0 n.whole) (n.fraction.getD [])
  ⟨d.digits, d.exponent + n.power⟩

/-- The double that a number is scaled to; one past all doubles has none. -/
def toDouble? (n : Numeral) : Option Float :=
  n.decimal.toDouble?.map fun x => if n.negative then -x else x

/-- The number written for a finite double. -/
def ofDouble (x : Float) : Numeral :=
  let negative := Double.signBit x
  let d := Decimal.shortest .even x
  let digits := Decimal.digitChars d.digits
  let leading := d.leading digits.length
  if -5 ≤ leading && leading ≤ 15 then
    let (whole, fraction) := Decimal.positional digits leading
    ⟨negative, whole, some (if fraction.isEmpty then ['0'] else fraction), none⟩
  else
    let fraction := digits.drop 1
    ⟨negative, digits.take 1, if fraction.isEmpty then none else some fraction,
      some ⟨leading < 0, Decimal.digitChars leading.natAbs⟩⟩

/-- The text of a number; an exponent always has a sign. -/
def text (n : Numeral) : List Char :=
  let sign := if n.negative then ['-'] else []
  let fraction := match n.fraction with
    | some digits => '.' :: digits
    | none => []
  let exponent := match n.exponent with
    | some e => 'e' :: (if e.negative then '-' else '+') :: e.digits
    | none => []
  sign ++ n.whole ++ fraction ++ exponent

end Numeral

/-- A way to write doubles as numbers and to read them. -/
class DoubleFormat where
  /-- The number written for a finite double. -/
  write : Float → Numeral
  /-- The double that a number is read as; not every number has to be one. -/
  read? : Numeral → Option Float

/-- Doubles are written with the fewest digits and read by scaling. -/
instance Numeral.doubleFormat : DoubleFormat := ⟨ofDouble, toDouble?⟩

end Antimeridian.Json
