/-! Built-in scalar types. A primitive is aligned to its size. -/

namespace MicroCompiler

inductive Primitive where
  | i8 | u8 | i16 | u16 | i32 | u32 | i64 | u64 | f32 | f64 | bool
  deriving DecidableEq, Repr, Inhabited

namespace Primitive

/-- All primitives, in the order of their ids. -/
def all : List Primitive := [.i8, .u8, .i16, .u16, .i32, .u32, .i64, .u64, .f32, .f64, .bool]

def name : Primitive → String
  | .i8 => "i8"
  | .u8 => "u8"
  | .i16 => "i16"
  | .u16 => "u16"
  | .i32 => "i32"
  | .u32 => "u32"
  | .i64 => "i64"
  | .u64 => "u64"
  | .f32 => "f32"
  | .f64 => "f64"
  | .bool => "bool"

/-- The size in bytes. -/
def size : Primitive → Nat
  | .i8 | .u8 | .bool => 1
  | .i16 | .u16 => 2
  | .i32 | .u32 | .f32 => 4
  | .i64 | .u64 | .f64 => 8

def isFloat : Primitive → Bool
  | .f32 | .f64 => true
  | _ => false

def isInt (p : Primitive) : Bool := !p.isFloat

def isUnsigned : Primitive → Bool
  | .u8 | .u16 | .u32 | .u64 | .bool => true
  | _ => false

end Primitive

end MicroCompiler
