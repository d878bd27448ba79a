import Antimeridian.Angle
import Antimeridian.Fault

/-!
# Settings of an encoding
-/

namespace Antimeridian

/-- What an encoding can be told. -/
structure Settings where
  /-- The number of the spatial reference. -/
  srid : UInt32 := 4326
  /-- The latitude in degrees up to which a ring around a pole is opened. -/
  polarLimitDegrees : Float := 89.9999
  /-- Whether the ring of a cell goes past the antimeridian instead of jumping over it. -/
  extendAntimeridian : Bool := false

namespace Settings

/-- The settings that hold when nothing is said. -/
def default : Settings := {}

/-- The latitude limit in radians. -/
def polarLimit (s : Settings) : Float := Angle.ofDegrees s.polarLimitDegrees

/-- Whether the latitude limit is above zero and at most ninety degrees. -/
def valid (s : Settings) : Bool :=
  let limit := s.polarLimitDegrees
  !(!limit.isFinite || limit ≤ 0 || 90 < limit)

/-- Refuses a latitude limit that is not valid. -/
def validate (s : Settings) : Except Fault Unit :=
  if s.valid then .ok () else .error (.polarLimit s.polarLimitDegrees)

end Settings

end Antimeridian
