import MicroCompiler.Ssa.Instruction
import MicroCompiler.Types.Table

/-! Integers in registers. A register holds 64 bits whatever the type of its value. In register form
a narrow integer is extended to 64 bits, by its sign or by zeros; operations look at the low bits of
their operands only and return register form. -/

namespace MicroCompiler

/-- The size of a type in bits. -/
def TypeInfo.width (t : TypeInfo) : Nat := 8 * t.size

namespace Machine

/-- Clears all but the low `width` bits. -/
def zeroExtend (bits : UInt64) (width : Nat) : UInt64 :=
  if 64 ≤ width then bits else bits &&& ((1 <<< width.toUInt64) - 1)

/-- The low `width` bits as a signed integer. -/
def signExtend (bits : UInt64) (width : Nat) : Int64 :=
  if 64 ≤ width then bits.toInt64
  else
    let unused := (64 - width).toUInt64
    (bits <<< unused).toInt64 >>> unused.toInt64

/-- The register form of raw bits: signed integers are extended by their sign, all else by zeros. -/
def normalize (t : TypeInfo) (bits : UInt64) : UInt64 :=
  if t.isFloat || t.isUnsigned || t.isPointer then zeroExtend bits t.width
  else (signExtend bits t.width).toUInt64

end Machine

namespace Ssa

/-- Whether the operation needs a divisor that is not zero. -/
def IntOp.divides : IntOp → Bool
  | .sdiv | .udiv | .srem | .urem => true
  | _ => false

/-- The operation on the low `width` bits of both operands. Bits of the result above `width` are not
significant. Shift amounts are taken modulo the width. -/
def IntOp.compute (op : IntOp) (width : Nat) (a b : UInt64) : UInt64 :=
  let ua := Machine.zeroExtend a width
  let ub := Machine.zeroExtend b width
  let sa := Machine.signExtend a width
  let sb := Machine.signExtend b width
  let amount := ub % width.toUInt64
  match op with
  | .add => ua + ub
  | .sub => ua - ub
  | .mul => ua * ub
  | .sdiv => (sa / sb).toUInt64
  | .udiv => ua / ub
  | .srem => (sa % sb).toUInt64
  | .urem => ua % ub
  | .and => ua &&& ub
  | .or => ua ||| ub
  | .xor => ua ^^^ ub
  | .shl => ua <<< amount
  | .lshr => ua >>> amount
  | .ashr => (sa >>> amount.toInt64).toUInt64

/-- The operation on values of a type, in register form. There is no result for a division by
zero. -/
def IntOp.apply (op : IntOp) (t : TypeInfo) (a b : UInt64) : Option UInt64 :=
  if op.divides ∧ Machine.zeroExtend b t.width = 0 then none
  else some (Machine.normalize t (op.compute t.width a b))

/-- The comparison of the low `width` bits. -/
def IntPredicate.holds (pred : IntPredicate) (width : Nat) (a b : UInt64) : Bool :=
  let ua := Machine.zeroExtend a width
  let ub := Machine.zeroExtend b width
  let sa := Machine.signExtend a width
  let sb := Machine.signExtend b width
  match pred with
  | .eq => ua == ub
  | .ne => ua != ub
  | .slt => sa < sb
  | .sle => sa ≤ sb
  | .sgt => sb < sa
  | .sge => sb ≤ sa
  | .ult => ua < ub
  | .ule => ua ≤ ub
  | .ugt => ub < ua
  | .uge => ub ≤ ua

end Ssa

end MicroCompiler
