import MicroCompiler.Ast.Pool

/-! A subtree as indented text, one node on a line and children two blanks deeper than their
parent. -/

namespace MicroCompiler.Ast

/-- A text in quotes. -/
def quoted (src : Source) (s : Span) : String := "\"" ++ src.text s ++ "\""

/-- A name behind a blank, if there is one. -/
def nameOr (src : Source) : Option Span → String
  | some s => " " ++ src.text s
  | none => ""

/-- The line of a node without its indentation. -/
def Node.headline (n : Node) (src : Source) : String :=
  let head := match n.kind with
    | .identifier name => "Identifier " ++ src.text name
    | .string value => "StringLiteral " ++ quoted src value
    | .number value => "NumberLiteral " ++ value.text
    | .nil => "Nil"
    | .unary op _ => "UnaryOp " ++ op.symbol
    | .binary op _ _ => "BinaryOp " ++ op.symbol
    | .call _ _ => "Call"
    | .subscript _ _ => "Subscript"
    | .cast _ _ => "Cast"
    | .member _ name => "MemberAccess ." ++ src.text name
    | .namedType name => "Type " ++ src.text name
    | .pointerType _ => "PointerType"
    | .file _ => "File"
    | .load path => "Load " ++ quoted src path
    | .struct name _ => "Struct" ++ nameOr src name
    | .const name _ => "Const " ++ src.text name
    | .var name _ _ => "Var " ++ src.text name
    | .function name _ _ _ library =>
      let foreign := match n.flags.foreign, library with
        | true, some path => " #foreign " ++ quoted src path
        | true, none => " #foreign"
        | false, _ => ""
      "Function" ++ nameOr src name ++ foreign ++ (if n.flags.variadic then " ..." else "")
    | .block _ => "Block"
    | .definition _ => "VariableDefinition"
    | .ifStmt _ _ _ => "If"
    | .whileStmt _ _ => "While"
    | .deferStmt _ => "Defer"
    | .returnStmt _ => "Return"
    | .breakStmt => "Break"
    | .continueStmt => "Continue"
    | .assignment _ _ => "Assignment"
    | .expression _ => "ExpressionStatement"
  if n.flags.inParens then head ++ " (paren)" else head

/-- A line of an outline: its depth and its text. -/
structure OutlineLine where
  depth : Nat
  text : String
  deriving DecidableEq, Repr

def OutlineLine.render (l : OutlineLine) : String :=
  String.ofList (List.replicate (2 * l.depth) ' ') ++ l.text ++ "\n"

namespace Pool

/-- The lines of the subtree in a slot. The last argument bounds the depth of the subtree. -/
def linesFrom (pool : Pool) (src : Source) (depth : Nat) (slot : Slot) :
    Nat → Except Fault (List OutlineLine)
  | 0 => .error .cycle
  | levels + 1 => do
    let node ← pool.get slot
    let below ← node.kind.parts.mapM fun
      | .title text => .ok [⟨depth + 1, text⟩]
      | .child deeper s => pool.linesFrom src (depth + 1 + deeper) s levels
      | .children deeper range => do
        let slots ← pool.list range
        let groups ← slots.mapM fun s => pool.linesFrom src (depth + 1 + deeper) s levels
        pure groups.flatten
    pure (⟨depth, node.headline src⟩ :: below.flatten)

/-- The lines of a subtree. No path through a tree visits a node twice, so the number of nodes
bounds its depth. -/
def lines (pool : Pool) (src : Source) (root : Slot) : Except Fault (List OutlineLine) :=
  pool.linesFrom src 0 root (pool.size + 1)

/-- The text of a subtree. -/
def outline (pool : Pool) (src : Source) (root : Slot) : Except Fault String :=
  (pool.lines src root).map fun ls => String.join (ls.map OutlineLine.render)

end Pool

end MicroCompiler.Ast
