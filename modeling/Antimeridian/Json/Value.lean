import Antimeridian.Json.Numeral

/-!
# JSON values

A value keeps the members of an object in order and repeated names apart, because a reader may care
about both.  A string literal may spell half of a surrogate pair, and then it is well formed but
stands for no text.
-/

namespace Antimeridian.Json

/-- A JSON value. -/
inductive Value where
  | null
  | bool (b : Bool)
  | number (n : Numeral)
  /-- A string; `none` when an escape leaves a surrogate without its other half. -/
  | string (s : Option (List Char))
  | array (values : List Value)
  /-- The members in order, with names under the same rule as strings. -/
  | object (members : List (Option (List Char) × Value))

namespace Value

/-- The object with the given members. -/
def ofFields (fields : List (String × Value)) : Value :=
  .object (fields.map fun (name, v) => (some name.toList, v))

/-- A whole number. -/
def ofNat (n : Nat) : Value := .number (.ofNat n)

/-- A double; one that is not finite is written as null. -/
def ofDouble [DoubleFormat] (x : Float) : Value :=
  if x.isFinite then .number (DoubleFormat.write x) else .null

/-- The whole number below a bound that a value is. -/
def toNatBelow? (bound : Nat) : Value → Option Nat
  | .number n =>
    match n.toNat? with
    | some k => if k < bound then some k else none
    | none => none
  | _ => none

/-- The double that a value is. -/
def toDouble? [DoubleFormat] : Value → Option Float
  | .number n => DoubleFormat.read? n
  | _ => none

/-- The truth value that a value is. -/
def toBool? : Value → Option Bool
  | .bool b => some b
  | _ => none

/-- Reads every element of an array. -/
def toList? {α : Type} (read : Value → Option α) : Value → Option (List α)
  | .array values => values.mapM read
  | _ => none

end Value

end Antimeridian.Json
