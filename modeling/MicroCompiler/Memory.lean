import MicroCompiler.Bytes

/-! Byte-addressed memory. Every 64-bit address holds a byte, which is zero until it is written. The
bytes are kept from a base address on, as far up as anything was written. -/

namespace MicroCompiler

structure Memory where
  base : UInt64
  bytes : Array UInt8
  deriving Repr

namespace Memory

/-- A memory in which nothing was written yet. -/
def fresh (base : UInt64) : Memory := ⟨base, #[]⟩

def get (m : Memory) (address : UInt64) : UInt8 := m.bytes.getD (address - m.base).toNat 0

def set (m : Memory) (address : UInt64) (byte : UInt8) : Memory :=
  let i := (address - m.base).toNat
  let bytes :=
    if i < m.bytes.size then m.bytes else m.bytes ++ Array.replicate (i + 1 - m.bytes.size) 0
  { m with bytes := bytes.setIfInBounds i byte }

/-- The bytes from an address on. -/
def read (m : Memory) (address : UInt64) : Nat → List UInt8
  | 0 => []
  | count + 1 => m.get address :: m.read (address + 1) count

def write (m : Memory) (address : UInt64) : List UInt8 → Memory
  | [] => m
  | b :: rest => (m.set address b).write (address + 1) rest

/-- The word of `size` bytes at an address. -/
def load (m : Memory) (address : UInt64) (size : Nat) : UInt64 :=
  (Bytes.ofLittleEndian (m.read address size)).toUInt64

/-- Writes the lowest `size` bytes of a word. -/
def store (m : Memory) (address : UInt64) (size : Nat) (word : UInt64) : Memory :=
  m.write address (Bytes.littleEndian size word.toNat)

/-- The bytes from an address up to the next zero. -/
def cString (m : Memory) (address : UInt64) : List UInt8 :=
  (m.bytes.toList.drop (address - m.base).toNat).takeWhile (· ≠ 0)

end Memory

end MicroCompiler
