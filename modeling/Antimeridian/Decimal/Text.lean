import Antimeridian.Decimal.Shortest

/-!
# Decimals as text

A decimal is laid out by its digits and the place of its first digit.  `Decimal.positional` writes
it out around the decimal point, and `Decimal.plainText` is the text of a double that never takes an
exponent.
-/

namespace Antimeridian.Decimal

/-- The decimal digits of a number, the most significant first. -/
def digitChars (n : Nat) : List Char := Nat.toDigits 10 n

/-- The power of ten of the first of `count` digits. -/
def leading (d : Decimal) (count : Nat) : Int := d.exponent + count - 1

/-- The digits before and after the decimal point, when the first digit stands for `10 ^ leading`.
There is always a digit before the point and there may be none after it. -/
def positional (digits : List Char) (leading : Int) : List Char × List Char :=
  match leading with
  | .ofNat e =>
    (digits.take (e + 1) ++ List.replicate (e + 1 - digits.length) '0', digits.drop (e + 1))
  | .negSucc e => (['0'], List.replicate e '0' ++ digits)

/-- The text of a double with the fewest digits, written out without an exponent and with a decimal
point only before further digits. -/
def plainText (x : Float) : String :=
  if x.isNaN then "NaN"
  else
    let sign := if Double.signBit x then "-" else ""
    if x.isInf then sign ++ "inf"
    else
      let d := shortest .up x
      let digits := digitChars d.digits
      let (whole, fraction) := positional digits (d.leading digits.length)
      let tail := if fraction.isEmpty then [] else '.' :: fraction
      sign ++ String.ofList (whole ++ tail)

end Antimeridian.Decimal
