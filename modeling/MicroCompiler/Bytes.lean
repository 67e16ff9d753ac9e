/-! Little-endian words: the least significant byte stands first. -/

namespace MicroCompiler.Bytes

/-- The lowest `width` bytes of a number. -/
def littleEndian : Nat → Nat → List UInt8
  | 0, _ => []
  | width + 1, n => n.toUInt8 :: littleEndian width (n / 256)

/-- The number that bytes spell. -/
def ofLittleEndian : List UInt8 → Nat
  | [] => 0
  | b :: rest => b.toNat + 256 * ofLittleEndian rest

end MicroCompiler.Bytes
