import MicroCompiler.Ast.Node
import MicroCompiler.Bounds

/-! The table of nodes of one file. Nodes and lists are only added at the end; a mark remembers both
sizes, and a rollback drops all that was added since. A node in the table may be changed in
place. -/

namespace MicroCompiler.Ast

/-- Why the pool cannot be read as a tree. -/
inductive Fault where
  | bounds (error : BoundsError)
  /-- The children of a node lead back to the node. -/
  | cycle
  deriving DecidableEq, Repr

def Fault.message : Fault → String
  | .bounds e => e.message
  | .cycle => "the tree has a cycle"

/-- Both sizes of a pool at one moment. -/
structure Mark where
  nodes : Nat
  lists : Nat
  deriving DecidableEq, Repr

def Mark.render (m : Mark) : String :=
  "AstMark \x7b nodes: " ++ s!"{m.nodes}, lists: {m.lists}" ++ " \x7d"

structure Pool where
  /-- The index of the file the nodes come from. -/
  file : Nat
  nodes : Array Node
  lists : Array Slot
  /-- How many nodes were ever made. -/
  made : Nat
  deriving Repr

namespace Pool

def empty (file : Nat) : Pool := ⟨file, #[], #[], 0⟩

def size (pool : Pool) : Nat := pool.nodes.size

/-- Adds a node. -/
def alloc (pool : Pool) (kind : NodeKind) (span : Span) : NodeId × Pool :=
  (⟨pool.nodes.size⟩,
    { pool with
      nodes := pool.nodes.push { kind, span, serial := pool.made }, made := pool.made + 1 })

/-- Adds a list of children. -/
def allocList (pool : Pool) (slots : List Slot) : NodeRange × Pool :=
  (⟨pool.lists.size, slots.length⟩, { pool with lists := pool.lists ++ slots })

/-- The node in a slot. -/
def get (pool : Pool) (slot : Slot) : Except Fault Node :=
  (BoundsError.fetch pool.nodes slot.index).mapError .bounds

/-- Changes the node in a slot. -/
def modify (pool : Pool) (slot : Slot) (f : Node → Node) : Except Fault Pool :=
  if slot.index < pool.nodes.size then .ok { pool with nodes := pool.nodes.modify slot.index f }
  else .error (.bounds (.index pool.nodes.size slot.index))

/-- The slots of a list. -/
def list (pool : Pool) (range : NodeRange) : Except Fault (List Slot) :=
  (BoundsError.slice pool.lists range.start range.length).mapError .bounds

def mark (pool : Pool) : Mark := ⟨pool.nodes.size, pool.lists.size⟩

/-- Drops the nodes and lists added since a mark. The count of nodes made stays. -/
def rollback (pool : Pool) (m : Mark) : Pool :=
  { pool with nodes := pool.nodes.shrink m.nodes, lists := pool.lists.shrink m.lists }

def render (pool : Pool) : String :=
  "AstPool \x7b file: " ++
    s!"FileIndex({pool.file}), nodes: {pool.nodes.size}, lists: {pool.lists.size}" ++ " \x7d"

end Pool

end MicroCompiler.Ast
