import MicroCompiler.Bounds
import MicroCompiler.Ssa.Instruction
import MicroCompiler.Types.Table

/-! What can go wrong when functions are built, inspected or printed. Type names in a fault are
those shown in its message; ids are kept beside them. -/

namespace MicroCompiler.Ssa

inductive Fault where
  | bounds (error : BoundsError)
  | types (error : TypeTable.Error)
  | unknownType (name : String)
  /-- An id would not fit in 32 bits. -/
  | idOverflow (kind : String) (index : Nat)
  | noFunction
  | noSuchArgument (function : String) (count index : Nat)
  | openBlock (current next : BlockId)
  | blockStarted (block : BlockId)
  | blockClosed (block : BlockId)
  | noSuchBlock (block : BlockId) (count : Nat)
  | entryTarget (block : BlockId)
  | wrongClass (op : BinOp) (type : String)
  | wrongOperand (what type : String)
  | notPointer (address : ValueId) (type : String)
  | operandsDiffer (what leftName rightName : String) (left right : TypeId)
  | storeMismatch (valueName pointeeName : String) (pointee value : TypeId)
  | tooFewArguments (function : String) (least given : Nat)
  | argumentCount (function : String) (wanted given : Nat)
  | argumentType (index : Nat) (wantedName givenName : String) (given wanted : TypeId)
  | returnType (function typeName : String) (declared : Option TypeId) (type : TypeId)
  | valueMissing (function : String)
  | notCall (function : String) (index : Nat)
  | callTooEarly (index argc : Nat)
  | notArgument (index : Nat)
  deriving DecidableEq, Repr

namespace Fault

/-- The text of an equation that does not hold. -/
def unequal (what left right : String) : String :=
  s!"assertion `left == right` failed: {what}\n  left: {left}\n right: {right}"

private def optionText : Option TypeId → String
  | some t => s!"Some({t.render})"
  | none => "None"

def message : Fault → String
  | .bounds e => e.message
  | .types e => e.message
  | .unknownType name => s!"unknown type {name}"
  | .idOverflow kind i => s!"{kind} overflow: {i}"
  | .noFunction => "no function is being built"
  | .noSuchArgument f count i => s!"{f} has {count} arguments, asked for #{i}"
  | .openBlock current next =>
    s!"{current.render} must end in a terminator before {next.render} starts"
  | .blockStarted b => s!"{b.render} was already started"
  | .blockClosed b => s!"cannot insert into {b.render}: it already ends in a terminator"
  | .noSuchBlock b count => s!"{b.render} does not exist ({count} blocks)"
  | .entryTarget b => s!"{b.render} is the entry block and cannot be a branch target"
  | .wrongClass op type =>
    let wanted := if op.isFloat then "non-float" else "non-integer"
    s!"{op.mnemonic} on {wanted} {type}"
  | .wrongOperand what type => s!"{what} on {type}"
  | .notPointer v type => s!"{v.render} is a {type}, not a pointer"
  | .operandsDiffer what a b left right =>
    unequal s!"{what} operands differ: {a} vs {b}" left.render right.render
  | .storeMismatch v p pointee value =>
    unequal s!"store of {v} through *{p}" pointee.render value.render
  | .tooFewArguments f least given => s!"{f} takes at least {least} arguments, got {given}"
  | .argumentCount f wanted given =>
    unequal s!"{f} takes {wanted} arguments" (toString given) (toString wanted)
  | .argumentType i w g given wanted =>
    unequal s!"argument #{i}: expected {w}, found {g}" given.render wanted.render
  | .returnType f t declared type =>
    unequal s!"{f} returns a {t}" (optionText declared) (optionText (some type))
  | .valueMissing f => s!"{f} must return a value"
  | .notCall f i => s!"instruction {i} of {f} is not a call"
  | .callTooEarly i argc => s!"call at {i} has {argc} arguments"
  | .notArgument i => s!"expected push_arg before call at {i}"

/-- The next index of a table, if an id can hold it. -/
def fresh (kind : String) (index : Nat) : Except Fault Nat :=
  if index < UInt32.size then .ok index else .error (.idOverflow kind index)

end Fault

end MicroCompiler.Ssa
