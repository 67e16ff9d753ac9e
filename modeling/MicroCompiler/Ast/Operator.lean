import MicroCompiler.Token.Kind

/-! Operators of expressions, with their symbols, the tokens that spell them, and the priorities of
the binary ones. A higher priority binds tighter. -/

namespace MicroCompiler.Ast

open Token (Kind)

inductive BinaryOp where
  | logicalOr | logicalAnd | bitOr | bitXor | bitAnd | eq | notEq | less | lessEq | greater
  | greaterEq
  | shl | shr | add | sub | mul | div | mod
  deriving DecidableEq, Repr, Inhabited

namespace BinaryOp

def all : List BinaryOp :=
  [.logicalOr, .logicalAnd, .bitOr, .bitXor, .bitAnd, .eq, .notEq, .less, .lessEq, .greater,
    .greaterEq, .shl, .shr, .add, .sub, .mul, .div, .mod]

def priority : BinaryOp → Nat
  | .logicalOr => 1
  | .logicalAnd => 2
  | .bitOr => 3
  | .bitXor => 4
  | .bitAnd => 5
  | .eq | .notEq => 6
  | .less | .lessEq | .greater | .greaterEq => 7
  | .shl | .shr => 8
  | .add | .sub => 9
  | .mul | .div | .mod => 10

/-- The token that spells the operator. -/
def token : BinaryOp → Kind
  | .logicalOr => .pipePipe
  | .logicalAnd => .ampAmp
  | .bitOr => .pipe
  | .bitXor => .caret
  | .bitAnd => .ampersand
  | .eq => .equalEqual
  | .notEq => .bangEqual
  | .less => .less
  | .lessEq => .lessEqual
  | .greater => .greater
  | .greaterEq => .greaterEqual
  | .shl => .shiftLeft
  | .shr => .shiftRight
  | .add => .plus
  | .sub => .minus
  | .mul => .star
  | .div => .slash
  | .mod => .percent

def symbol (op : BinaryOp) : String := op.token.spelling?.getD ""

def ofToken? (k : Kind) : Option BinaryOp := all.find? (·.token == k)

def ofSymbol? (s : String) : Option BinaryOp := all.find? (·.symbol == s)

/-- The name under which operator tables list it. -/
def name : BinaryOp → String
  | .logicalOr => "LogicalOr"
  | .logicalAnd => "LogicalAnd"
  | .bitOr => "BitOr"
  | .bitXor => "BitXor"
  | .bitAnd => "BitAnd"
  | .eq => "Eq"
  | .notEq => "NotEq"
  | .less => "Less"
  | .lessEq => "LessEq"
  | .greater => "Greater"
  | .greaterEq => "GreaterEq"
  | .shl => "Shl"
  | .shr => "Shr"
  | .add => "Add"
  | .sub => "Sub"
  | .mul => "Mul"
  | .div => "Div"
  | .mod => "Mod"

end BinaryOp

inductive UnaryOp where
  | plus | neg | addressOf | deref | bitNot | not
  deriving DecidableEq, Repr, Inhabited

namespace UnaryOp

def all : List UnaryOp := [.plus, .neg, .addressOf, .deref, .bitNot, .not]

def token : UnaryOp → Kind
  | .plus => .plus
  | .neg => .minus
  | .addressOf => .ampersand
  | .deref => .star
  | .bitNot => .tilde
  | .not => .bang

def symbol (op : UnaryOp) : String := op.token.spelling?.getD ""

def ofToken? (k : Kind) : Option UnaryOp := all.find? (·.token == k)

def ofSymbol? (s : String) : Option UnaryOp := all.find? (·.symbol == s)

def name : UnaryOp → String
  | .plus => "Plus"
  | .neg => "Neg"
  | .addressOf => "AddressOf"
  | .deref => "Deref"
  | .bitNot => "BitNot"
  | .not => "Not"

end UnaryOp

end MicroCompiler.Ast
