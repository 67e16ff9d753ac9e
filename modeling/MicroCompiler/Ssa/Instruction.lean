/-! Instructions of the intermediate code. Every value is defined once and named by its position in
the value table of its function. Registers and constants are untyped 64-bit words. -/

namespace MicroCompiler.Ssa

/-- A value of a function. -/
structure ValueId where
  index : Nat
  deriving DecidableEq, Repr, Inhabited

def ValueId.render (v : ValueId) : String := s!"%{v.index}"

/-- A block of a function. -/
structure BlockId where
  index : Nat
  deriving DecidableEq, Repr, Inhabited

def BlockId.render (b : BlockId) : String := s!"bb{b.index}"

/-- A function of a module. -/
structure FuncId where
  index : Nat
  deriving DecidableEq, Repr, Inhabited

def FuncId.render (f : FuncId) : String := s!"@{f.index}"

inductive IntOp where
  | add | sub | mul | sdiv | udiv | srem | urem | and | or | xor | shl | lshr | ashr
  deriving DecidableEq, Repr, Inhabited

inductive FloatOp where
  | add | sub | mul | div
  deriving DecidableEq, Repr, Inhabited

/-- Arithmetic on two operands. Operands and result share one type. -/
inductive BinOp where
  | int (op : IntOp)
  | float (op : FloatOp)
  deriving DecidableEq, Repr, Inhabited

namespace BinOp

def all : List BinOp :=
  [.int .add, .int .sub, .int .mul, .int .sdiv, .int .udiv, .int .srem, .int .urem, .int .and,
    .int .or, .int .xor, .int .shl, .int .lshr, .int .ashr, .float .add, .float .sub,
    .float .mul, .float .div]

def isFloat : BinOp → Bool
  | .int _ => false
  | .float _ => true

def mnemonic : BinOp → String
  | .int .add => "iadd"
  | .int .sub => "isub"
  | .int .mul => "imul"
  | .int .sdiv => "sdiv"
  | .int .udiv => "udiv"
  | .int .srem => "srem"
  | .int .urem => "urem"
  | .int .and => "and"
  | .int .or => "or"
  | .int .xor => "xor"
  | .int .shl => "shl"
  | .int .lshr => "lshr"
  | .int .ashr => "ashr"
  | .float .add => "fadd"
  | .float .sub => "fsub"
  | .float .mul => "fmul"
  | .float .div => "fdiv"

def ofMnemonic? (s : String) : Option BinOp := all.find? (·.mnemonic == s)

end BinOp

inductive IntPredicate where
  | eq | ne | slt | sle | sgt | sge | ult | ule | ugt | uge
  deriving DecidableEq, Repr, Inhabited

namespace IntPredicate

def all : List IntPredicate := [.eq, .ne, .slt, .sle, .sgt, .sge, .ult, .ule, .ugt, .uge]

def mnemonic : IntPredicate → String
  | .eq => "eq"
  | .ne => "ne"
  | .slt => "slt"
  | .sle => "sle"
  | .sgt => "sgt"
  | .sge => "sge"
  | .ult => "ult"
  | .ule => "ule"
  | .ugt => "ugt"
  | .uge => "uge"

def ofMnemonic? (s : String) : Option IntPredicate := all.find? (·.mnemonic == s)

end IntPredicate

/-- Ordered comparisons: one with a NaN is false. -/
inductive FloatPredicate where
  | oeq | one | olt | ole | ogt | oge
  deriving DecidableEq, Repr, Inhabited

namespace FloatPredicate

def all : List FloatPredicate := [.oeq, .one, .olt, .ole, .ogt, .oge]

def mnemonic : FloatPredicate → String
  | .oeq => "oeq"
  | .one => "one"
  | .olt => "olt"
  | .ole => "ole"
  | .ogt => "ogt"
  | .oge => "oge"

def ofMnemonic? (s : String) : Option FloatPredicate := all.find? (·.mnemonic == s)

end FloatPredicate

inductive Instruction where
  /-- Lays out the locals of the function. It begins every entry block. -/
  | allocStack
  | constant (result : ValueId) (value : UInt64)
  | binary (op : BinOp) (result lhs rhs : ValueId)
  | icmp (pred : IntPredicate) (result lhs rhs : ValueId)
  | fcmp (pred : FloatPredicate) (result lhs rhs : ValueId)
  | load (result address : ValueId)
  | store (address value : ValueId)
  /-- An argument of the next call, in order. -/
  | pushArg (value : ValueId)
  /-- The arguments are the `argc` values pushed right before. -/
  | call (callee : FuncId) (argc : Nat) (result : Option ValueId)
  | jump (target : BlockId)
  | branch (condition : ValueId) (consequent alternative : BlockId)
  | ret (value : ValueId)
  | retVoid
  deriving DecidableEq, Repr, Inhabited

namespace Instruction

/-- Whether the instruction ends a block. -/
def isTerminator : Instruction → Bool
  | .jump _ | .branch _ _ _ | .ret _ | .retVoid => true
  | _ => false

/-- The value that the instruction defines. -/
def result? : Instruction → Option ValueId
  | .constant r _ | .binary _ r _ _ | .icmp _ r _ _ | .fcmp _ r _ _ | .load r _ => some r
  | .call _ _ r => r
  | _ => none

end Instruction

end MicroCompiler.Ssa
