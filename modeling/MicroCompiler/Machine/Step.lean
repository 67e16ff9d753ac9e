import MicroCompiler.Machine.Fault
import MicroCompiler.Machine.Floating
import MicroCompiler.Machine.Frame
import MicroCompiler.Machine.Word
import MicroCompiler.Native.Library
import MicroCompiler.Ssa.Function

/-! One step of the machine. All activations share one register file: the window of a callee begins
one past the end of its caller's window, and the register in between receives the return value. On
the byte stack a header is followed by the locals of its activation and then by the header of the
callee; a return just abandons the callee's part. -/

namespace MicroCompiler

/-- Sizes that a run must not exceed. -/
structure Limits where
  /-- The bytes of the stack. -/
  stackSize : UInt64
  maxRegisters : Nat
  deriving DecidableEq, Repr

def Limits.standard : Limits := ⟨64 * 1024, 1024 * 1024⟩

/-- What is run, and what it is run with. -/
structure Environment (σ : Type) where
  module : Ssa.Module
  types : TypeTable
  library : Native.Library σ
  limits : Limits

/-- An environment with a stack. -/
structure Machine (σ : Type) extends Environment σ where
  stack : Machine.Stack

namespace Machine

structure State (σ : Type) where
  registers : Array UInt64
  memory : Memory
  /-- The running activation. -/
  frame : Frame
  /-- The stack offset that belongs to the header of the running activation. -/
  frameAt : Nat
  links : Ssa.Links
  /-- The state of the native library. -/
  native : σ

/-- A part of a step: it changes the state, and may end in a fault. -/
abbrev Action (σ : Type) := EStateM Fault (State σ)

variable {σ : Type}

/-! ### Registers -/

def checked (result : Except Ssa.Fault α) : Action σ α :=
  match result with
  | .ok a => pure a
  | .error f => throw (.code f)

def getRegister (index : Nat) : Action σ UInt64 := fun s =>
  match s.registers[index]? with
  | some v => .ok v s
  | none => .error (.code (.bounds (.index s.registers.size index))) s

def setRegister (index : Nat) (word : UInt64) : Action σ Unit := fun s =>
  if index < s.registers.size then
    .ok () { s with registers := s.registers.setIfInBounds index word }
  else .error (.code (.bounds (.index s.registers.size index))) s

/-- The running activation. -/
def frame : Action σ Frame := fun s => .ok s.frame s

/-- Reads a value of the running activation. -/
def getValue (v : Ssa.ValueId) : Action σ UInt64 := do
  let f ← frame
  getRegister (f.base.toNat + v.index)

/-- Writes a value of the running activation. -/
def setValue (v : Ssa.ValueId) (word : UInt64) : Action σ Unit := do
  let f ← frame
  setRegister (f.base.toNat + v.index) word

/-- Makes the register file at least `size` long. New registers are zero. -/
def growRegisters (m : Machine σ) (size : Nat) : Action σ Unit :=
  if m.limits.maxRegisters < size then throw (.registerOverflow size m.limits.maxRegisters)
  else modify fun s =>
    { s with registers := s.registers ++ Array.replicate (size - s.registers.size) 0 }

/-! ### Types, offsets, positions -/

def typeInfo (m : Machine σ) (t : TypeId) : Action σ TypeInfo :=
  checked ((m.types.info t).mapError .types)

/-- The type of a value of a function. -/
def typeOf (m : Machine σ) (f : Ssa.Function) (v : Ssa.ValueId) : Action σ TypeInfo := do
  let t ← checked (f.valueType v)
  m.typeInfo t

/-- An offset as a header word. -/
def headerWord (offset : Nat) : Action σ UInt32 :=
  if offset < UInt32.size then pure offset.toUInt32 else throw (.offsetTooLarge offset)

/-- Takes stack bytes at or after an offset and returns where they begin. -/
def reserve (m : Machine σ) (offset size align : Nat) : Action σ Nat :=
  let start := Stack.alignUp offset align
  if start + size ≤ m.stack.size then pure start else throw (.stackOverflow size start m.stack.size)

def goTo (cursor : UInt32) : Action σ Unit :=
  modify fun s => { s with frame := { s.frame with cursor } }

/-- Goes to the next instruction. -/
def advance : Action σ Unit :=
  modify fun s => { s with frame := { s.frame with cursor := s.frame.cursor + 1 } }

/-- The position where a function begins. -/
def entryOf (f : Ssa.Function) : Action σ UInt32 :=
  match f.blocks[0]? with
  | some (some e) => pure e.offset.toUInt32
  | _ => throw (.noBody f.name)

def jump (f : Ssa.Function) (target : Ssa.BlockId) : Action σ Unit :=
  match f.blocks[target.index]? with
  | some (some e) => goTo e.offset.toUInt32
  | _ => throw (.emptyTarget f.name target)

/-! ### Locals and memory -/

/-- Gives locals their places from an offset on, and returns the first offset after them. -/
def layOut (m : Machine σ) (offset : Nat) : List Ssa.Local → Action σ Nat
  | [] => pure offset
  | l :: rest => do
    let t ← m.typeInfo l.type
    let start ← m.reserve offset t.size t.align
    setValue l.value (m.stack.address start)
    m.layOut (start + t.size) rest

def allocStack (m : Machine σ) (f : Ssa.Function) : Action σ Unit := do
  let current ← frame
  let stop ← m.layOut current.stackOffset.toNat f.locals.toList
  let stackOffset ← headerWord stop
  modify fun s => { s with frame := { s.frame with stackOffset } }

/-- The widths in bytes of one memory access. -/
def accessWidths : List Nat := [1, 2, 4, 8]

def loadWord (address : UInt64) (size : Nat) : Action σ UInt64 := fun s =>
  if size ∈ accessWidths then .ok (s.memory.load address size) s
  else .error (.unsupportedLoad size) s

def storeWord (address : UInt64) (size : Nat) (word : UInt64) : Action σ Unit := fun s =>
  if size ∈ accessWidths then .ok () { s with memory := s.memory.store address size word }
  else .error (.unsupportedStore size) s

/-! ### Native calls -/

/-- An argument as native code receives it. Singles among the further arguments of a variadic call
travel as doubles. -/
def nativeArgument (t : TypeInfo) (word : UInt64) (further : Bool) : Native.Argument :=
  if !t.isFloat then ⟨word, false⟩
  else if further && t.size == 4 then ⟨widen word.toUInt32, true⟩
  else ⟨word, true⟩

/-- The arguments of a native call from position `index` on; `declared` of all have a declared
type. -/
def nativeArguments (m : Machine σ) (f : Ssa.Function) (declared index : Nat) :
    List Ssa.ValueId → Action σ (List Native.Argument)
  | [] => pure []
  | v :: rest => do
    let word ← getValue v
    let t ← m.typeOf f v
    let more ← m.nativeArguments f declared (index + 1) rest
    pure (nativeArgument t word (declared ≤ index) :: more)

/-- The address of a native function, resolved on its first call. -/
def resolve (m : Machine σ) (id : Ssa.FuncId) (callee : Ssa.Function) : Action σ (Option UInt64) :=
  fun s =>
  let (address, links, native) := s.links.address id callee m.library.resolve s.native
  .ok address { s with links, native }

/-- Calls an address. -/
def invoke (m : Machine σ) (address : UInt64) (args : List Native.Argument)
    (signature : Native.Signature) : Action σ UInt64 := fun s =>
  let reply := m.library.call address args signature s.memory s.native
  let s := { s with memory := reply.memory, native := reply.state }
  match reply.result with
  | .ok word => .ok word s
  | .error e => .error (.native e) s

/-- Calls a native function and returns its result in register form, zero if it has none. -/
def callNative (m : Machine σ) (id : Ssa.FuncId) (callee : Ssa.Function)
    (args : List Native.Argument) : Action σ UInt64 := do
  match ← m.resolve id callee with
  | none => throw (.unresolved ((callee.foreign.map (·.symbol)).getD callee.name))
  | some address =>
    match callee.ret with
    | none =>
      let _ ← m.invoke address args ⟨false, callee.isVariadic⟩
      pure 0
    | some ret =>
      let t ← m.typeInfo ret
      let word ← m.invoke address args ⟨t.isFloat, callee.isVariadic⟩
      pure (normalize t word)

/-! ### Activations -/

/-- Writes the header of the running activation to the stack. -/
def saveFrame (m : Machine σ) : Action σ Unit := fun s =>
  if m.stack.holdsHeader s.frameAt then
    .ok () { s with memory := m.stack.writeFrame s.memory s.frameAt s.frame }
  else .error .headerOutOfBounds s

/-- Makes the activation whose header is at an offset the running one. -/
def restoreFrame (m : Machine σ) (offset : Nat) : Action σ Unit := fun s =>
  if m.stack.holdsHeader offset then
    .ok () { s with frame := m.stack.readFrame s.memory offset, frameAt := offset }
  else .error .headerOutOfBounds s

/-- The stack offset of the running header. -/
def frameOffset : Action σ Nat := fun s => .ok s.frameAt s

/-- Copies values of the running activation to registers from `index` on. -/
def passArguments (index : Nat) : List Ssa.ValueId → Action σ Unit
  | [] => pure ()
  | v :: rest => do
    let word ← getValue v
    setRegister index word
    passArguments (index + 1) rest

/-- Begins an activation of `callee`, called from a function `f`. -/
def enter (m : Machine σ) (f : Ssa.Function) (id : Ssa.FuncId) (callee : Ssa.Function)
    (args : List Ssa.ValueId) : Action σ Unit := do
  let current ← frame
  let base := current.base.toNat + f.values.size + 1
  m.growRegisters (base + callee.values.size)
  passArguments base args
  let callerAt ← frameOffset
  m.saveFrame
  let start ← m.reserve current.stackOffset.toNat Frame.size Frame.align
  let base ← headerWord base
  let stackOffset ← headerWord (start + Frame.size)
  let cursor ← entryOf callee
  let caller ← headerWord callerAt
  modify fun s =>
    { s with frame := ⟨id.index.toUInt32, base, stackOffset, cursor, caller⟩, frameAt := start }

def call (m : Machine σ) (f : Ssa.Function) (id : Ssa.FuncId) (result : Option Ssa.ValueId) :
    Action σ Unit := do
  let callee ← checked (m.module.get id)
  let current ← frame
  let args ← checked (f.callArgs current.cursor.toNat)
  if callee.isExternal then
    let nativeArgs ← m.nativeArguments f callee.argCount 0 args
    let word ← m.callNative id callee nativeArgs
    match result with
    | some r => setValue r word
    | none => pure ()
    advance
  else m.enter f id callee args

/-- Ends the running activation. The first activation gives the result of the run; any other gives
its value to the call that began it, and the caller goes on behind that call. -/
def leave (m : Machine σ) (word : UInt64) : Action σ (Option UInt64) := do
  let current ← frame
  setRegister (current.base.toUInt64 - 1).toNat word
  if !current.hasCaller then
    let answer ← getRegister 0
    pure (some answer)
  else
    m.restoreFrame current.caller.toNat
    let current ← frame
    let caller ← checked (m.module.get ⟨current.func.toNat⟩)
    match ← checked ((BoundsError.fetch caller.instructions current.cursor.toNat).mapError
      .bounds) with
    | .call _ _ (some r) => setValue r word
    | _ => pure ()
    advance
    pure none

/-! ### Steps -/

/-- Carries out an instruction of a function. There is an answer when the run ends. -/
def perform (m : Machine σ) (f : Ssa.Function) : Ssa.Instruction → Action σ (Option UInt64)
  | .allocStack => do
    m.allocStack f
    advance
    pure none
  | .constant r word => do
    setValue r word
    advance
    pure none
  | .binary op r a b => do
    let t ← m.typeOf f r
    let x ← getValue a
    let y ← getValue b
    match op with
    | .int op =>
      match op.apply t x y with
      | some word => setValue r word
      | none => throw (.divisionByZero f.name)
    | .float op => setValue r (op.apply t.size x y)
    advance
    pure none
  | .icmp pred r a b => do
    let t ← m.typeOf f a
    let x ← getValue a
    let y ← getValue b
    setValue r (pred.holds t.width x y).toUInt64
    advance
    pure none
  | .fcmp pred r a b => do
    let t ← m.typeOf f a
    let x ← getValue a
    let y ← getValue b
    setValue r (pred.holds t.size x y).toUInt64
    advance
    pure none
  | .load r address => do
    let t ← m.typeOf f r
    let address ← getValue address
    let word ← loadWord address t.size
    setValue r (normalize t word)
    advance
    pure none
  | .store address v => do
    let t ← m.typeOf f v
    let address ← getValue address
    let word ← getValue v
    storeWord address t.size word
    advance
    pure none
  | .pushArg _ => do
    advance
    pure none
  | .call id _ r => do
    m.call f id r
    pure none
  | .jump target => do
    jump f target
    pure none
  | .branch c consequent alternative => do
    let word ← getValue c
    jump f (if word = 0 then alternative else consequent)
    pure none
  | .ret v => do
    let word ← getValue v
    m.leave word
  | .retVoid => m.leave 0

/-- Carries out the next instruction. -/
def step (m : Machine σ) : Action σ (Option UInt64) := do
  let current ← frame
  let f ← checked (m.module.get ⟨current.func.toNat⟩)
  match f.instructions[current.cursor.toNat]? with
  | some instruction => m.perform f instruction
  | none => throw (.pastEnd f.name)

end Machine

end MicroCompiler
