import MicroCompiler.Decimal.Read
import MicroCompiler.Native.Library

/-! A few functions of the C library, by what they compute. `int` arguments and results are 32-bit
words; a result leaves the upper half of its register clear. -/

namespace MicroCompiler.Native.Standard

inductive Routine where
  | abs | labs | toupper | strlen | atof | memset
  deriving DecidableEq, Repr

namespace Routine

def all : List Routine := [.abs, .labs, .toupper, .strlen, .atof, .memset]

def symbol : Routine → String
  | .abs => "abs"
  | .labs => "labs"
  | .toupper => "toupper"
  | .strlen => "strlen"
  | .atof => "atof"
  | .memset => "memset"

/-- Distinct addresses, none of them zero. -/
def address : Routine → UInt64
  | .abs => 0x1000
  | .labs => 0x1010
  | .toupper => 0x1020
  | .strlen => 0x1030
  | .atof => 0x1040
  | .memset => 0x1050

/-- Upper case by the table of bytes: it also covers negative `char`s, which it shows as bytes, the
mark for the end of a file excepted. -/
def upperCase (c : Int32) : Int32 :=
  if 'a'.toNat ≤ c.toInt ∧ c.toInt ≤ 'z'.toNat then c - 32
  else if -128 ≤ c.toInt ∧ c.toInt ≤ -2 then c + 256
  else c

/-- The result register after a call, and the memory. -/
def run (r : Routine) (args : List Argument) (memory : Memory) : UInt64 × Memory :=
  let words := (args.filter (!·.isFloat)).map (·.bits)
  let word := words.headD 0
  let int := word.toUInt32.toInt32
  let wide (n : Int32) : UInt64 := n.toUInt32.toUInt64
  match r with
  | .abs => (wide (if int < 0 then 0 - int else int), memory)
  | .labs => (if word.toInt64 < 0 then 0 - word else word, memory)
  | .toupper => (wide (upperCase int), memory)
  | .strlen => ((memory.cString word).length.toUInt64, memory)
  | .atof => (Decimal.readDouble ((memory.cString word).map fun b => Char.ofNat b.toNat), memory)
  | .memset =>
    let count := (words.getD 2 0).toNat
    (word, memory.write word (List.replicate count (words.getD 1 0).toUInt8))

end Routine

/-- The functions above behind call code, which bounds the number of arguments. -/
def library : Library Unit where
  resolve symbol s := ((Routine.all.find? (·.symbol == symbol)).map (·.address), s)
  call address args signature memory s :=
    let answer :=
      ((Routine.all.find? (·.address == address)).map (·.run args memory)).getD (0, memory)
    match CallCode.assemble address args signature with
    | .ok _ => ⟨.ok answer.1, answer.2, s⟩
    | .error e => ⟨.error e, memory, s⟩

end MicroCompiler.Native.Standard
