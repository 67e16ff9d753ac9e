import MicroCompiler.Memory
import MicroCompiler.Ssa.Instruction

/-! Activations and the byte stack they live on. The header of an activation is five 32-bit words in
the stack; the locals of the activation follow it. Headers form a chain from callee to caller. -/

namespace MicroCompiler.Machine

structure Frame where
  func : UInt32
  /-- The first register of the activation. The one below it receives the return value. -/
  base : UInt32
  /-- The first stack byte after the header and the locals. -/
  stackOffset : UInt32
  /-- The position in the instructions; while a callee runs, that of the call. -/
  cursor : UInt32
  /-- The stack offset of the caller's header. -/
  caller : UInt32
  deriving DecidableEq, Repr

namespace Frame

/-- The caller of the first activation. -/
def noCaller : UInt32 := 0xffffffff

def size : Nat := 20

def align : Nat := 4

def hasCaller (f : Frame) : Bool := f.caller != noCaller

/-- The header as bytes. -/
def encode (f : Frame) : List UInt8 :=
  [f.func, f.base, f.stackOffset, f.cursor, f.caller].flatMap fun w => Bytes.littleEndian 4 w.toNat

end Frame

/-- A region of memory for headers and locals. -/
structure Stack where
  base : UInt64
  size : Nat
  deriving DecidableEq, Repr

namespace Stack

def address (s : Stack) (offset : Nat) : UInt64 := s.base + offset.toUInt64

/-- The least multiple of `align` that is not below `offset`. -/
def alignUp (offset align : Nat) : Nat := (offset + align - 1) / align * align

/-- Whether a header at an offset lies in the stack. -/
def holdsHeader (s : Stack) (offset : Nat) : Bool := offset + Frame.size ≤ s.size

def writeFrame (s : Stack) (m : Memory) (offset : Nat) (f : Frame) : Memory :=
  m.write (s.address offset) f.encode

def readFrame (s : Stack) (m : Memory) (offset : Nat) : Frame :=
  let word (i : Nat) : UInt32 := (m.load (s.address (offset + 4 * i)) 4).toUInt32
  ⟨word 0, word 1, word 2, word 3, word 4⟩

end Stack

end MicroCompiler.Machine
