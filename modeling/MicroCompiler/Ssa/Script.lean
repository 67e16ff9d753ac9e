import MicroCompiler.Ssa.Builder

/-! Build scripts: the calls of a builder and of its type table as data. Ids in a script are plain
numbers that nothing has checked, and types may be given by name. -/

namespace MicroCompiler.Ssa

/-- A type in a script: an id, or a name to be looked up. -/
inductive TypeRef where
  | id (type : TypeId)
  | named (name : String)
  deriving DecidableEq, Repr

inductive Step where
  /-- Looks a type up, and registers it if it is new. -/
  | resolve (type : TypeRef)
  | function (name : String) (args : List TypeRef) (ret : Option TypeRef)
  | foreign (name : String) (library : Option String) (args : List TypeRef) (ret : Option TypeRef)
    (variadic : Bool)
  | renew
  | arg (index : Nat)
  | createBlock
  | switchTo (block : BlockId)
  | constant (type : TypeRef) (value : UInt64)
  | binary (op : BinOp) (lhs rhs : ValueId)
  | icmp (pred : IntPredicate) (lhs rhs : ValueId)
  | fcmp (pred : FloatPredicate) (lhs rhs : ValueId)
  | alloca (type : TypeRef)
  | load (address : ValueId)
  | store (address value : ValueId)
  | call (callee : FuncId) (args : List ValueId)
  | jump (target : BlockId)
  | branch (condition : ValueId) (consequent alternative : BlockId)
  | ret (value : ValueId)
  | retVoid
  deriving Repr

def TypeRef.resolve (b : Builder) : TypeRef → Except Fault (TypeId × Builder)
  | .id t => .ok (t, b)
  | .named name => b.resolveType name

def resolveAll (b : Builder) : List TypeRef → Except Fault (List TypeId × Builder)
  | [] => .ok ([], b)
  | r :: rest => do
    let (t, b) ← r.resolve b
    let (ts, b) ← resolveAll b rest
    pure (t :: ts, b)

def resolveOption (b : Builder) : Option TypeRef → Except Fault (Option TypeId × Builder)
  | none => .ok (none, b)
  | some r => do
    let (t, b) ← r.resolve b
    pure (some t, b)

def answering (result : Except Fault (ValueId × Builder)) : Except Fault (Option Nat × Builder) :=
  result.map fun (v, b) => (some v.index, b)

def silently (result : Except Fault Builder) : Except Fault (Option Nat × Builder) :=
  result.map fun b => (none, b)

namespace Step

/-- Makes the call, and returns the index of what it made, if anything. -/
def run (b : Builder) : Step → Except Fault (Option Nat × Builder)
  | .resolve type => (type.resolve b).map fun (t, b) => (some t.index, b)
  | .function name args result => do
    let (args, b) ← resolveAll b args
    let (result, b) ← resolveOption b result
    let (id, b) ← b.beginFunction name args result
    pure (some id.index, b)
  | .foreign name library args result variadic => do
    let (args, b) ← resolveAll b args
    let (result, b) ← resolveOption b result
    let (id, b) ← b.declareForeign name library args result variadic
    pure (some id.index, b)
  | .renew => .ok (none, b.renewed)
  | .arg index => (b.arg index).map fun v => (some v.index, b)
  | .createBlock => b.createBlock.map fun (block, b) => (some block.index, b)
  | .switchTo block => silently (b.switchTo block)
  | .constant type value => do
    let (t, b) ← type.resolve b
    answering (b.constant t value)
  | .binary op lhs rhs => answering (b.binary op lhs rhs)
  | .icmp pred lhs rhs => answering (b.icmp pred lhs rhs)
  | .fcmp pred lhs rhs => answering (b.fcmp pred lhs rhs)
  | .alloca type => do
    let (t, b) ← type.resolve b
    answering (b.alloca t)
  | .load address => answering (b.load address)
  | .store address value => silently (b.store address value)
  | .call callee args => (b.call callee args).map fun (v, b) => (v.map (·.index), b)
  | .jump target => silently (b.jump target)
  | .branch condition consequent alternative => silently (b.branch condition consequent alternative)
  | .ret value => silently (b.ret value)
  | .retVoid => silently b.retVoid

/-- Makes all calls in order. -/
def runAll (b : Builder) (steps : List Step) : Except Fault Builder :=
  steps.foldlM (fun b s => (s.run b).map (·.2)) b

end Step

end MicroCompiler.Ssa
