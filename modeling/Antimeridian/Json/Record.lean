import Antimeridian.Json.Value

/-!
# Records in JSON

A record is written as an object with a member for each field.  It is read from such an object, with
the members in any order, or from an array that holds the values of the fields in their order.
-/

namespace Antimeridian.Json

/-- What becomes of a member that no field is named after. -/
inductive Unknown where
  | skip
  | refuse
  deriving DecidableEq, Repr

/-- The members with a given name. -/
def membersNamed (name : String) (members : List (Option (List Char) × Value)) : List Value :=
  members.filterMap fun (n, v) => if n = some name.toList then some v else none

/-- The value of a field, absent if no member has its name.  A name given twice is an error. -/
def fieldValue (members : List (Option (List Char) × Value)) (name : String) :
    Option (Option Value) :=
  match membersNamed name members with
  | [] => some none
  | [v] => some (some v)
  | _ => none

/-- Whether a member may stand in a record with these fields. -/
def admits (unknown : Unknown) (names : List String) (name : Option (List Char)) : Bool :=
  match name with
  | none => false
  | some n => unknown = .skip || names.any fun field => field.toList = n

/-- The values of the named fields in their order, with `none` where a field is absent; an array
leaves out fields from the end. -/
def recordFields (unknown : Unknown) (names : List String) : Value → Option (List (Option Value))
  | .object members =>
    if members.all fun (name, _) => admits unknown names name then names.mapM (fieldValue members)
    else none
  | .array values =>
    if values.length ≤ names.length then
      some (values.map some ++ List.replicate (names.length - values.length) none)
    else none
  | _ => none

/-- The values of the fields of a record that has to have them all. -/
def allFields (names : List String) (v : Value) : Option (List Value) :=
  match recordFields .skip names v with
  | some fields => fields.mapM id
  | none => none

end Antimeridian.Json
