import MicroCompiler.Ast.Number
import MicroCompiler.Ast.Operator
import MicroCompiler.Source.Text

/-! Nodes of the syntax tree. A node lives in a table and names its children by their positions
there, so a child is a slot that may be empty, and a list of children is a range of a second table.
Names and literal texts are spans of the source. -/

namespace MicroCompiler.Ast

/-- The position of a node in its pool. -/
structure NodeId where
  index : Nat
  deriving DecidableEq, Repr, Inhabited

/-- A place for a child, which may be left empty. -/
abbrev Slot := Option NodeId

namespace Slot

/-- The position that an empty slot reads: the greatest 32-bit number, which no node has. -/
def emptyIndex : Nat := 4294967295

def index : Slot → Nat
  | some id => id.index
  | none => emptyIndex

def ofIndex (i : Nat) : Slot := if i = emptyIndex then none else some ⟨i⟩

def render : Slot → String
  | some id => s!"NodeId({id.index})"
  | none => "NodeId::INVALID"

end Slot

/-- The entries of a list table from `start` on. -/
structure NodeRange where
  start : Nat
  length : Nat
  deriving DecidableEq, Repr, Inhabited

structure Flags where
  /-- The expression was written inside parentheses. -/
  inParens : Bool := false
  /-- The function is implemented by a native library. -/
  foreign : Bool := false
  /-- The function takes further arguments after its parameters. -/
  variadic : Bool := false
  deriving DecidableEq, Repr, Inhabited

namespace Flags

/-- The flags of a bit set; bits without a meaning are dropped. -/
def ofBits (n : Nat) : Flags := ⟨n.testBit 0, n.testBit 1, n.testBit 2⟩

def bits (f : Flags) : Nat := f.inParens.toNat + 2 * f.foreign.toNat + 4 * f.variadic.toNat

def union (f g : Flags) : Flags :=
  ⟨f.inParens || g.inParens, f.foreign || g.foreign, f.variadic || g.variadic⟩

end Flags

inductive NodeKind where
  | identifier (name : Span)
  /-- The contents without the quotes, escapes kept. -/
  | string (value : Span)
  | number (value : Number)
  | nil
  | unary (op : UnaryOp) (operand : Slot)
  | binary (op : BinaryOp) (left right : Slot)
  | call (callee : Slot) (args : NodeRange)
  | subscript (container index : Slot)
  | cast (operand type : Slot)
  | member (container : Slot) (name : Span)
  | namedType (name : Span)
  | pointerType (pointee : Slot)
  | file (declarations : NodeRange)
  | load (path : Span)
  | struct (name : Option Span) (members : NodeRange)
  /-- A named value that is neither a struct nor a function. -/
  | const (name : Span) (value : Slot)
  | var (name : Span) (type initializer : Slot)
  /-- A foreign function has no body, and perhaps the library it lives in. -/
  | function (name : Option Span) (params returns : NodeRange) (body : Slot) (library : Option Span)
  | block (statements : NodeRange)
  | definition (vars : NodeRange)
  | ifStmt (condition consequent alternative : Slot)
  | whileStmt (condition body : Slot)
  | deferStmt (statement : Slot)
  | returnStmt (values : NodeRange)
  | breakStmt
  | continueStmt
  | assignment (targets values : NodeRange)
  | expression (expr : Slot)
  deriving DecidableEq, Repr, Inhabited

namespace NodeKind

/-- Whether the node is a type expression. -/
def isType : NodeKind → Bool
  | .namedType _ | .pointerType _ => true
  | _ => false

/-- The declaration with a name given to it, if it is one that carries its name itself. -/
def named? (name : Span) : NodeKind → Option NodeKind
  | .struct _ members => some (.struct (some name) members)
  | .function _ params returns body library =>
    some (.function (some name) params returns body library)
  | _ => none

/-- What a node holds, in reading order: titles, single children and lists of children, some of them
one level deeper than the others. -/
inductive Part where
  | title (text : String)
  | child (deeper : Nat) (slot : Slot)
  | children (deeper : Nat) (range : NodeRange)
  deriving DecidableEq, Repr

/-- The child in a slot that may be left empty. -/
def ifPresent (slot : Slot) : List Part :=
  match slot with
  | some _ => [.child 0 slot]
  | none => []

def parts : NodeKind → List Part
  | .identifier _ | .string _ | .number _ | .nil | .namedType _ | .load _ | .breakStmt
  | .continueStmt => []
  | .unary _ operand => [.child 0 operand]
  | .binary _ left right => [.child 0 left, .child 0 right]
  | .call callee args => [.child 0 callee, .children 0 args]
  | .subscript container index => [.child 0 container, .child 0 index]
  | .cast operand type => [.child 0 operand, .child 0 type]
  | .member container _ => [.child 0 container]
  | .pointerType pointee => [.child 0 pointee]
  | .file declarations => [.children 0 declarations]
  | .struct _ members => [.children 0 members]
  | .const _ value => [.child 0 value]
  | .var _ type initializer => ifPresent type ++ ifPresent initializer
  | .function _ params returns body _ =>
    .children 0 params ::
      ((if returns.length = 0 then [] else [.title "Returns", .children 1 returns]) ++
        ifPresent body)
  | .block statements => [.children 0 statements]
  | .definition vars => [.children 0 vars]
  | .ifStmt condition consequent alternative =>
    .child 0 condition :: .child 0 consequent ::
      (if alternative.isSome then [.title "Else", .child 1 alternative] else [])
  | .whileStmt condition body => [.child 0 condition, .child 0 body]
  | .deferStmt statement => [.child 0 statement]
  | .returnStmt values => [.children 0 values]
  | .assignment targets values => [.children 0 targets, .title "=", .children 1 values]
  | .expression expr => [.child 0 expr]

end NodeKind

structure Node where
  kind : NodeKind
  span : Span
  flags : Flags := {}
  /-- The count of nodes made before this one, those given back included. -/
  serial : Nat
  deriving DecidableEq, Repr, Inhabited

end MicroCompiler.Ast
