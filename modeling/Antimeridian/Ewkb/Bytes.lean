/-!
# Bytes

Numbers as bytes, the least significant byte first.
-/

namespace Antimeridian.Ewkb

/-- A sequence of bytes. -/
abbrev Bytes := List UInt8

/-- The lowest `count` bytes of a number, the least significant first. -/
def littleEndian : (count : Nat) → Nat → Bytes
  | 0, _ => []
  | count + 1, n => n.toUInt8 :: littleEndian count (n / 256)

/-- A 32-bit number in four bytes. -/
def ofWord (n : UInt32) : Bytes := littleEndian 4 n.toNat

/-- A count in four bytes; of a larger one only the lowest 32 bits are kept. -/
def ofCount (n : Nat) : Bytes := littleEndian 4 n

/-- The eight bytes of a double. -/
def ofDouble (x : Float) : Bytes := littleEndian 8 x.toBits.toNat

end Antimeridian.Ewkb
