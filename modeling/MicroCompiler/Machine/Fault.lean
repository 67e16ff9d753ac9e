import MicroCompiler.Arena
import MicroCompiler.Native.CallCode
import MicroCompiler.Ssa.Fault

/-! What ends a run without a result. -/

namespace MicroCompiler.Machine

inductive Fault where
  | arena (error : Arena.Error)
  /-- The code asks for something that is not there. -/
  | code (fault : Ssa.Fault)
  | native (error : Native.CallCode.Error)
  | argumentCount (function : String) (wanted given : Nat)
  | stackTooLarge (size : Nat)
  | stackOverflow (size start limit : Nat)
  | headerOutOfBounds
  | registerOverflow (wanted limit : Nat)
  | offsetTooLarge (value : Nat)
  | noBody (function : String)
  | pastEnd (function : String)
  | emptyTarget (function : String) (block : Ssa.BlockId)
  | divisionByZero (function : String)
  | unresolved (symbol : String)
  | unsupportedLoad (size : Nat)
  | unsupportedStore (size : Nat)
  deriving DecidableEq, Repr

def Fault.message : Fault → String
  | .arena e => e.message
  | .code f => f.message
  | .native e => e.message
  | .argumentCount f wanted given => s!"{f} takes {wanted} arguments, got {given}"
  | .stackTooLarge size => s!"interpreter stack of {size} bytes is too large"
  | .stackOverflow size start limit =>
    s!"interpreter stack overflow: {size} bytes at offset {start} exceed {limit} bytes"
  | .headerOutOfBounds => "frame header out of bounds"
  | .registerOverflow wanted limit =>
    s!"register file overflow: {wanted} registers exceed the limit of {limit}"
  | .offsetTooLarge value => s!"interpreter offset {value} does not fit in 32 bits"
  | .noBody f => s!"{f} has no body"
  | .pastEnd f => s!"{f} runs past its last instruction"
  | .emptyTarget f block => s!"{f} jumps to {block.render}, which has no instructions"
  | .divisionByZero f => s!"division by zero in {f}"
  | .unresolved symbol => s!"cannot resolve foreign symbol `{symbol}`"
  | .unsupportedLoad size => s!"load of {size} bytes is not supported"
  | .unsupportedStore size => s!"store of {size} bytes is not supported"

end MicroCompiler.Machine
