import MicroCompiler.Ssa.Instruction

/-! Floating-point operations on bits. Arithmetic rounds to nearest in the format of its operands. A
NaN operand is returned with its quiet bit set, the left one first; an invalid operation on numbers
gives the negative quiet NaN without payload. -/

namespace MicroCompiler.Machine

def isDoubleNaN (bits : UInt64) : Bool := 0x7ff0000000000000 < bits &&& 0x7fffffffffffffff

def isSingleNaN (bits : UInt32) : Bool := 0x7f800000 < bits &&& 0x7fffffff

/-- The double of the same value. A NaN keeps its sign and payload and becomes quiet. -/
def widen (bits : UInt32) : UInt64 :=
  if isSingleNaN bits then
    let sign : UInt64 := (bits >>> 31).toUInt64 <<< 63
    let payload : UInt64 := (bits &&& 0x7fffff).toUInt64 <<< 29
    sign ||| 0x7ff8000000000000 ||| payload
  else (Float32.ofBits bits).toFloat.toBits

end MicroCompiler.Machine

namespace MicroCompiler.Ssa

namespace FloatOp

def onDoubles : FloatOp → Float → Float → Float
  | .add, x, y => x + y
  | .sub, x, y => x - y
  | .mul, x, y => x * y
  | .div, x, y => x / y

def onSingles : FloatOp → Float32 → Float32 → Float32
  | .add, x, y => x + y
  | .sub, x, y => x - y
  | .mul, x, y => x * y
  | .div, x, y => x / y

def doubleBits (op : FloatOp) (a b : UInt64) : UInt64 :=
  if Machine.isDoubleNaN a then a ||| 0x8000000000000
  else if Machine.isDoubleNaN b then b ||| 0x8000000000000
  else
    let r := op.onDoubles (Float.ofBits a) (Float.ofBits b)
    if r.isNaN then 0xfff8000000000000 else r.toBits

def singleBits (op : FloatOp) (a b : UInt32) : UInt32 :=
  if Machine.isSingleNaN a then a ||| 0x400000
  else if Machine.isSingleNaN b then b ||| 0x400000
  else
    let r := op.onSingles (Float32.ofBits a) (Float32.ofBits b)
    if r.isNaN then 0xffc00000 else r.toBits

/-- The operation on registers of a format of `size` bytes. Singles are in the low half. -/
def apply (op : FloatOp) (size : Nat) (a b : UInt64) : UInt64 :=
  if size = 4 then (op.singleBits a.toUInt32 b.toUInt32).toUInt64 else op.doubleBits a b

end FloatOp

def FloatPredicate.onDoubles : FloatPredicate → Float → Float → Bool
  | .oeq, x, y => x == y
  | .one, x, y => x < y || y < x
  | .olt, x, y => x < y
  | .ole, x, y => x ≤ y
  | .ogt, x, y => y < x
  | .oge, x, y => y ≤ x

/-- The comparison of registers of a format of `size` bytes; singles are compared as doubles. -/
def FloatPredicate.holds (pred : FloatPredicate) (size : Nat) (a b : UInt64) : Bool :=
  let value (bits : UInt64) : Float :=
    Float.ofBits (if size = 4 then Machine.widen bits.toUInt32 else bits)
  pred.onDoubles (value a) (value b)

end MicroCompiler.Ssa
