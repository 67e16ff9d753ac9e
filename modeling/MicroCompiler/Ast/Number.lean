import MicroCompiler.Decimal.Layout

/-! Values of number literals: an integer below 2^64, or the bits of a double. -/

namespace MicroCompiler.Ast

inductive Number where
  | int (value : UInt64)
  | float (bits : UInt64)
  deriving DecidableEq, Repr

namespace Number

/-- The payload: the integer itself, or the bits of the double. -/
def bits : Number → UInt64
  | .int v => v
  | .float b => b

/-- The bits of the value as a double; integers are rounded to nearest. -/
def toFloatBits : Number → UInt64
  | .int v => v.toFloat.toBits
  | .float b => b

def text : Number → String
  | .int v => toString v.toNat
  | .float b => Decimal.double.text b.toNat

/-- The number that decimal digits spell. -/
def ofDigits (digits : List Char) : Nat :=
  digits.foldl (fun n c => 10 * n + (c.toNat - '0'.toNat)) 0

/-- Reads the text of a number token: digits, and a fraction if there is a point. An integer must be
below 2^64; a fraction is rounded to the nearest double. -/
def ofText? (text : String) : Option Number :=
  let whole := text.toList.takeWhile (· ≠ '.')
  match text.toList.dropWhile (· ≠ '.') with
  | [] =>
    let n := ofDigits whole
    if n < UInt64.size then some (.int n.toUInt64) else none
  | _ :: fraction =>
    some (.float (Float.ofScientific (ofDigits (whole ++ fraction)) true fraction.length).toBits)

end Number

end MicroCompiler.Ast
