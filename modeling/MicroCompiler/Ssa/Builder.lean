import MicroCompiler.Ssa.Function

/-! The builder of functions. It appends to the current block of the function begun last. Blocks are
filled one at a time: the current block must end in a terminator before another is started. Every
instruction is checked against the types of its operands, and a misuse is a fault. -/

namespace MicroCompiler.Ssa

structure Cursor where
  func : FuncId
  block : BlockId
  deriving DecidableEq, Repr

structure Builder where
  types : TypeTable
  module : Module
  /-- The function and block being filled, if a function was begun. -/
  cursor : Option Cursor
  deriving Repr

namespace Builder

def initial : Builder := ⟨.initial, .empty, none⟩

/-- A new builder over the same module. -/
def renewed (b : Builder) : Builder := { b with cursor := none }

/-! ### Access -/

def current (b : Builder) : Except Fault Cursor :=
  match b.cursor with
  | some c => .ok c
  | none => .error .noFunction

def function (b : Builder) : Except Fault Function := do
  let c ← b.current
  b.module.get c.func

/-- Changes the function being built. -/
def modifyFunction (b : Builder) (change : Function → Function) : Except Fault Builder := do
  let c ← b.current
  pure { b with module := ⟨b.module.functions.modify c.func.index change⟩ }

def typeInfo (b : Builder) (t : TypeId) : Except Fault TypeInfo := (b.types.info t).mapError .types

def typeName (b : Builder) (t : TypeId) : Except Fault String := (b.types.name t).mapError .types

def valueType (b : Builder) (v : ValueId) : Except Fault TypeId := do
  let f ← b.function
  f.valueType v

/-- The type that a name spells. -/
def resolveType (b : Builder) (name : String) : Except Fault (TypeId × Builder) := do
  match ← (b.types.byName name).mapError Fault.types with
  | (some t, types) => pure (t, { b with types })
  | (none, _) => .error (.unknownType name)

/-- Whether the current block ends in a terminator. -/
def isTerminated (b : Builder) : Except Fault Bool := do
  let c ← b.current
  let f ← b.function
  let instructions ← f.blockInstructions c.block
  pure (instructions.getLast?.any (·.isTerminator))

/-! ### Functions and blocks -/

/-- Begins a function with its entry block and makes it current. -/
def beginFunction (b : Builder) (name : String) (args : List TypeId) (ret : Option TypeId) :
    Except Fault (FuncId × Builder) := do
  let f := { Function.declare name args ret none with
    blocks := #[some ⟨0, 1⟩], instructions := #[.allocStack] }
  let (id, module) ← b.module.push f
  pure (id, { b with module, cursor := some ⟨id, ⟨0⟩⟩ })

/-- Declares a native function. The current function stays. -/
def declareForeign (b : Builder) (name : String) (library : Option String) (args : List TypeId)
    (ret : Option TypeId) (variadic : Bool) : Except Fault (FuncId × Builder) := do
  let (id, module) ← b.module.push (Function.declare name args ret (some ⟨library, name, variadic⟩))
  pure (id, { b with module })

/-- An argument of the current function. -/
def arg (b : Builder) (index : Nat) : Except Fault ValueId := do
  let f ← b.function
  f.arg index

/-- Makes a block of the current function without starting it. -/
def createBlock (b : Builder) : Except Fault (BlockId × Builder) := do
  let f ← b.function
  let index ← Fault.fresh "BlockId" f.blocks.size
  let b ← b.modifyFunction fun f => { f with blocks := f.blocks.push none }
  pure (⟨index⟩, b)

/-- Starts a block at the end of the instructions. -/
def switchTo (b : Builder) (block : BlockId) : Except Fault Builder := do
  let c ← b.current
  if !(← b.isTerminated) then .error (.openBlock c.block block)
  else
    let f ← b.function
    match ← (BoundsError.fetch f.blocks block.index).mapError Fault.bounds with
    | some _ => .error (.blockStarted block)
    | none =>
      let b ← b.modifyFunction fun f =>
        { f with blocks := f.blocks.modify block.index fun _ => some ⟨f.instructions.size, 0⟩ }
      pure { b with cursor := some ⟨c.func, block⟩ }

/-! ### Instructions -/

/-- Adds a value to the table of the current function. -/
def newValue (b : Builder) (t : TypeId) : Except Fault (ValueId × Builder) := do
  let f ← b.function
  let index ← Fault.fresh "ValueId" f.values.size
  let b ← b.modifyFunction fun f => { f with values := f.values.push t }
  pure (⟨index⟩, b)

/-- Appends to the current block, which is always the one started last. -/
def push (b : Builder) (instruction : Instruction) : Except Fault Builder := do
  let c ← b.current
  if ← b.isTerminated then .error (.blockClosed c.block)
  else
    b.modifyFunction fun f =>
      { f with
        instructions := f.instructions.push instruction
        blocks := f.blocks.modify c.block.index fun e => e.map fun e =>
          { e with length := e.length + 1 } }

/-- Appends an instruction that defines a new value. -/
def define (b : Builder) (t : TypeId) (instruction : ValueId → Instruction) :
    Except Fault (ValueId × Builder) := do
  let (v, b) ← b.newValue t
  let b ← b.push (instruction v)
  pure (v, b)

/-- The common type of two operands. -/
def sameType (b : Builder) (what : String) (lhs rhs : ValueId) : Except Fault TypeId := do
  let left ← b.valueType lhs
  let right ← b.valueType rhs
  if left = right then pure left
  else
    let leftName ← b.typeName left
    let rightName ← b.typeName right
    .error (.operandsDiffer what leftName rightName left right)

/-- The type that an address points to. -/
def pointee (b : Builder) (address : ValueId) : Except Fault TypeId := do
  let t ← b.valueType address
  match (← b.typeInfo t).pointee? with
  | some p => pure p
  | none => .error (.notPointer address (← b.typeName t))

def constant (b : Builder) (t : TypeId) (value : UInt64) : Except Fault (ValueId × Builder) :=
  b.define t (.constant · value)

def binary (b : Builder) (op : BinOp) (lhs rhs : ValueId) : Except Fault (ValueId × Builder) := do
  let t ← b.sameType op.mnemonic lhs rhs
  let info ← b.typeInfo t
  if (if op.isFloat then info.isFloat else info.isInt) then b.define t (.binary op · lhs rhs)
  else .error (.wrongClass op (← b.typeName t))

/-- Compares integers or pointers. -/
def icmp (b : Builder) (pred : IntPredicate) (lhs rhs : ValueId) :
    Except Fault (ValueId × Builder) := do
  let t ← b.sameType "icmp" lhs rhs
  let info ← b.typeInfo t
  if info.isInt || info.isPointer then b.define .bool (.icmp pred · lhs rhs)
  else .error (.wrongOperand "icmp" (← b.typeName t))

def fcmp (b : Builder) (pred : FloatPredicate) (lhs rhs : ValueId) :
    Except Fault (ValueId × Builder) := do
  let t ← b.sameType "fcmp" lhs rhs
  let info ← b.typeInfo t
  if info.isFloat then b.define .bool (.fcmp pred · lhs rhs)
  else .error (.wrongOperand "fcmp" (← b.typeName t))

/-- A stack slot for a type, given as a pointer to it. The entry block lays out all slots when it
runs, so no instruction is added. -/
def alloca (b : Builder) (t : TypeId) : Except Fault (ValueId × Builder) := do
  let (pointer, types) ← (b.types.pointerTo t).mapError Fault.types
  let (v, b) ← { b with types }.newValue pointer
  let b ← b.modifyFunction fun f => { f with locals := f.locals.push ⟨t, v⟩ }
  pure (v, b)

def load (b : Builder) (address : ValueId) : Except Fault (ValueId × Builder) := do
  let t ← b.pointee address
  b.define t (.load · address)

def store (b : Builder) (address value : ValueId) : Except Fault Builder := do
  let p ← b.pointee address
  let t ← b.valueType value
  if p = t then b.push (.store address value)
  else
    let valueName ← b.typeName t
    let pointeeName ← b.typeName p
    .error (.storeMismatch valueName pointeeName p t)

/-! ### Calls -/

/-- Checks arguments from position `index` on against the declared types. Further arguments are not
checked. -/
def checkArguments (b : Builder) (index : Nat) : List ValueId → List TypeId → Except Fault Unit
  | arg :: args, wanted :: rest => do
    let given ← b.valueType arg
    if given = wanted then b.checkArguments (index + 1) args rest
    else
      let wantedName ← b.typeName wanted
      let givenName ← b.typeName given
      .error (.argumentType index wantedName givenName given wanted)
  | _, _ => .ok ()

/-- Calls a function. The result is a value unless the callee returns nothing. -/
def call (b : Builder) (callee : FuncId) (args : List ValueId) :
    Except Fault (Option ValueId × Builder) := do
  let target ← b.module.get callee
  if target.isVariadic ∧ args.length < target.argCount then
    .error (.tooFewArguments target.name target.argCount args.length)
  else if !target.isVariadic ∧ args.length ≠ target.argCount then
    .error (.argumentCount target.name target.argCount args.length)
  else
    b.checkArguments 0 args (target.values.toList.take target.argCount)
    let b ← args.foldlM (fun b v => b.push (.pushArg v)) b
    match target.ret with
    | some t =>
      let (v, b) ← b.define t fun v => .call callee args.length (some v)
      pure (some v, b)
    | none =>
      let b ← b.push (.call callee args.length none)
      pure (none, b)

/-! ### Terminators -/

/-- A block that is jumped to must exist and must not be the entry block, which lays out the
locals. -/
def checkTarget (b : Builder) (block : BlockId) : Except Fault Unit := do
  let f ← b.function
  if f.blocks.size ≤ block.index then .error (.noSuchBlock block f.blocks.size)
  else if block.index = 0 then .error (.entryTarget block)
  else pure ()

def jump (b : Builder) (target : BlockId) : Except Fault Builder := do
  b.checkTarget target
  b.push (.jump target)

def branch (b : Builder) (condition : ValueId) (consequent alternative : BlockId) :
    Except Fault Builder := do
  b.checkTarget consequent
  b.checkTarget alternative
  let t ← b.valueType condition
  if (← b.typeInfo t).isInt then b.push (.branch condition consequent alternative)
  else .error (.wrongOperand "branch" (← b.typeName t))

def ret (b : Builder) (value : ValueId) : Except Fault Builder := do
  let f ← b.function
  let t ← f.valueType value
  if f.ret = some t then b.push (.ret value)
  else .error (.returnType f.name (← b.typeName t) f.ret t)

def retVoid (b : Builder) : Except Fault Builder := do
  let f ← b.function
  if f.ret.isNone then b.push .retVoid else .error (.valueMissing f.name)

end Builder

end MicroCompiler.Ssa
