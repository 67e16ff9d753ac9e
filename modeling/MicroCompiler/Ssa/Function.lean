import MicroCompiler.Ssa.Fault

/-! Functions and modules. A function keeps one flat array of instructions, and its blocks are runs
of that array. A block is made before it is filled, so that jumps can name it. The first values of a
function are its arguments. -/

namespace MicroCompiler.Ssa

/-- A run of instructions. -/
structure Extent where
  offset : Nat
  length : Nat
  deriving DecidableEq, Repr, Inhabited

/-- A stack slot for a type, and the value that points to it. -/
structure Local where
  type : TypeId
  value : ValueId
  deriving DecidableEq, Repr, Inhabited

/-- Where the body of a native function is found. -/
structure Foreign where
  library : Option String
  symbol : String
  /-- Whether it takes further arguments after the declared ones. -/
  variadic : Bool
  deriving DecidableEq, Repr

structure Function where
  name : String
  ret : Option TypeId
  argCount : Nat
  /-- The type of every value. -/
  values : Array TypeId
  /-- The extent of every block that has been started. -/
  blocks : Array (Option Extent)
  instructions : Array Instruction
  locals : Array Local
  foreign : Option Foreign
  deriving Repr

namespace Function

/-- A function without blocks. -/
def declare (name : String) (args : List TypeId) (ret : Option TypeId) (foreign : Option Foreign) :
    Function where
  name := name
  ret := ret
  argCount := args.length
  values := args.toArray
  blocks := #[]
  instructions := #[]
  locals := #[]
  foreign := foreign

def isExternal (f : Function) : Bool := f.foreign.isSome

def isVariadic (f : Function) : Bool := f.foreign.any (·.variadic)

/-- The external and variadic marks as a bit set. -/
def flags (f : Function) : Nat := f.isExternal.toNat + 2 * f.isVariadic.toNat

def valueType (f : Function) (v : ValueId) : Except Fault TypeId :=
  (BoundsError.fetch f.values v.index).mapError .bounds

/-- The value of an argument. -/
def arg (f : Function) (index : Nat) : Except Fault ValueId :=
  if index < f.argCount then .ok ⟨index⟩ else .error (.noSuchArgument f.name f.argCount index)

/-- The instructions of an extent, none for a block that has not been started. -/
def extentInstructions (f : Function) : Option Extent → Except Fault (List Instruction)
  | none => .ok []
  | some e => (BoundsError.slice f.instructions e.offset e.length).mapError .bounds

def blockInstructions (f : Function) (b : BlockId) : Except Fault (List Instruction) := do
  let extent ← (BoundsError.fetch f.blocks b.index).mapError Fault.bounds
  f.extentInstructions extent

def pushed (index : Nat) : Instruction → Except Fault ValueId
  | .pushArg v => .ok v
  | _ => .error (.notArgument index)

/-- The arguments of the call at a position: the values pushed right before it. -/
def callArgs (f : Function) (index : Nat) : Except Fault (List ValueId) := do
  match ← (BoundsError.fetch f.instructions index).mapError Fault.bounds with
  | .call _ argc _ =>
    if index < argc then .error (.callTooEarly index argc)
    else
      let before ← (BoundsError.slice f.instructions (index - argc) argc).mapError Fault.bounds
      before.mapM (pushed index)
  | _ => .error (.notCall f.name index)

/-- Whether a block may be jumped to: it is started and is not the entry block. -/
def isTarget (f : Function) (b : BlockId) : Bool :=
  b.index != 0 && (f.blocks[b.index]?.getD none).isSome

def targetsOk (f : Function) : Instruction → Bool
  | .jump b => f.isTarget b
  | .branch _ b c => f.isTarget b && f.isTarget c
  | _ => true

/-- Whether a block, if started, ends in its only terminator. -/
def isClosed (f : Function) (extent : Option Extent) : Bool :=
  match f.extentInstructions extent with
  | .error _ => false
  | .ok instructions =>
    match instructions.reverse with
    | [] => extent.isNone
    | last :: before => last.isTerminator && !before.any (·.isTerminator)

/-- Whether every started block ends in exactly one terminator and every jump leads to a started
block other than the entry block. -/
def isWellFormed (f : Function) : Bool :=
  f.instructions.all f.targetsOk && f.blocks.all f.isClosed

end Function

/-- Functions that can call each other. -/
structure Module where
  functions : Array Function
  deriving Repr

namespace Module

def empty : Module := ⟨#[]⟩

def size (m : Module) : Nat := m.functions.size

def get (m : Module) (id : FuncId) : Except Fault Function :=
  (BoundsError.fetch m.functions id.index).mapError .bounds

def push (m : Module) (f : Function) : Except Fault (FuncId × Module) := do
  let index ← Fault.fresh "FuncId" m.functions.size
  pure (⟨index⟩, ⟨m.functions.push f⟩)

/-- The function with a name. Of several, the one added last. -/
def lookup (m : Module) (name : String) : Option FuncId :=
  ((List.range m.size).reverse.find? fun i => m.functions[i]?.any (·.name == name)).map (⟨·⟩)

end Module

/-- The addresses that native functions have been resolved to. A function is resolved once. -/
abbrev Links := List (FuncId × UInt64)

/-- The address of a native function: the one it has, else what `resolve` gives for its symbol. -/
def Links.address {σ : Type} (links : Links) (id : FuncId) (f : Function)
    (resolve : String → σ → Option UInt64 × σ) (state : σ) : Option UInt64 × Links × σ :=
  match links.lookup id, f.foreign with
  | some address, _ => (some address, links, state)
  | none, none => (none, links, state)
  | none, some foreign =>
    match resolve foreign.symbol state with
    | (some address, state) => (some address, (id, address) :: links, state)
    | (none, state) => (none, links, state)

end MicroCompiler.Ssa
