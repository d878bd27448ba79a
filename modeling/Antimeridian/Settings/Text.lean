import Antimeridian.Json.Parser
import Antimeridian.Json.Printer
import Antimeridian.Json.Record
import Antimeridian.Settings

/-!
# Settings as JSON

Settings are written with every field.  In a text to be read, a field that is absent keeps its
default, and a member that is no field is an error.
-/

namespace Antimeridian.Settings

open Json (Value DoubleFormat)

variable [DoubleFormat]

/-- The names of the fields, in order. -/
def fieldNames : List String := ["srid", "polar_lat_limit_degs", "extend_antimeridian"]

/-- The value of settings. -/
def toValue (s : Settings) : Value :=
  .ofFields [("srid", .ofNat s.srid.toNat),
    ("polar_lat_limit_degs", .ofDouble s.polarLimitDegrees),
    ("extend_antimeridian", .bool s.extendAntimeridian)]

/-- Reads a field that may be absent. -/
def fieldOr {α : Type} (default : α) (read : Value → Option α) : Option Value → Option α
  | none => some default
  | some v => read v

/-- The settings that a value stands for. -/
def ofValue? (v : Value) : Option Settings :=
  match Json.recordFields .refuse fieldNames v with
  | some [srid, limit, extend] => do
    let srid ← fieldOr default.srid.toNat (Value.toNatBelow? UInt32.size) srid
    let limit ← fieldOr default.polarLimitDegrees Value.toDouble? limit
    let extend ← fieldOr default.extendAntimeridian Value.toBool? extend
    return ⟨srid.toUInt32, limit, extend⟩
  | _ => none

/-- Why a text gives no settings. -/
inductive TextFault where
  /-- The text is not JSON, or not of settings. -/
  | malformed
  /-- The settings were read and refused. -/
  | refused (fault : Fault)

/-- The settings in a text, when they are valid. -/
def parse (text : String) : Except TextFault Settings :=
  match (Json.parse text).bind ofValue? with
  | none => .error .malformed
  | some s =>
    match s.validate with
    | .ok () => .ok s
    | .error fault => .error (.refused fault)

/-- The text of settings, a line for each field. -/
def text (s : Settings) : String := String.ofList s.toValue.pretty

end Antimeridian.Settings
