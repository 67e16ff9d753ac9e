import MicroCompiler.Bytes

/-! Machine code for one native call. The code is a function of its own without arguments: it loads
the arguments of the call into the registers of the x86-64 System V convention, calls the target,
and returns the result in `rax`. A pushed word keeps the stack aligned at the call. Arguments that
would go on the stack are refused. -/

namespace MicroCompiler.Native

/-- One argument of a native call. -/
structure Argument where
  bits : UInt64
  /-- Whether it travels in a vector register. -/
  isFloat : Bool
  deriving DecidableEq, Repr

/-- The shape of a native call beyond its arguments. -/
structure Signature where
  /-- Whether the result comes back in a vector register. -/
  returnsFloat : Bool
  /-- Whether the callee wants the number of vector registers in `al`. -/
  variadic : Bool
  deriving DecidableEq, Repr

namespace CallCode

/-- The registers that the code loads words into. -/
inductive Register where
  | rax | rcx | rdx | rsi | rdi | r8 | r9 | r11
  deriving DecidableEq, Repr

/-- The instructions that the code is made of. -/
inductive Instr where
  | pushRax
  | popRcx
  | movWord (register : Register) (word : UInt64)
  | movEax (word : UInt32)
  /-- Copies `rax` to a vector register. -/
  | movqFromRax (xmm : Nat)
  /-- Copies vector register 0 to `rax`. -/
  | movqToRax
  | callR11
  | ret
  deriving DecidableEq, Repr

def word64 (n : UInt64) : List UInt8 := Bytes.littleEndian 8 n.toNat

def Register.opcode : Register → List UInt8
  | .rax => [0x48, 0xb8]
  | .rcx => [0x48, 0xb9]
  | .rdx => [0x48, 0xba]
  | .rsi => [0x48, 0xbe]
  | .rdi => [0x48, 0xbf]
  | .r8 => [0x49, 0xb8]
  | .r9 => [0x49, 0xb9]
  | .r11 => [0x49, 0xbb]

def Instr.encode : Instr → List UInt8
  | .pushRax => [0x50]
  | .popRcx => [0x59]
  | .movWord r w => r.opcode ++ word64 w
  | .movEax w => 0xb8 :: Bytes.littleEndian 4 w.toNat
  | .movqFromRax xmm => [0x66, 0x48, 0x0f, 0x6e, (0xc0 : UInt8) ||| xmm.toUInt8 <<< 3]
  | .movqToRax => [0x66, 0x48, 0x0f, 0x7e, 0xc0]
  | .callR11 => [0x41, 0xff, 0xd3]
  | .ret => [0xc3]

/-- Where integer arguments go, in order. -/
def intRegisters : List Register := [.rdi, .rsi, .rdx, .rcx, .r8, .r9]

def maxInts : Nat := intRegisters.length

def maxFloats : Nat := 8

inductive Error where
  | tooManyInts
  | tooManyFloats
  deriving DecidableEq, Repr

def Error.message : Error → String
  | .tooManyInts => s!"native calls take at most {maxInts} integer arguments"
  | .tooManyFloats => s!"native calls take at most {maxFloats} floating-point arguments"

/-- Loads arguments after `ints` integers and `floats` floats have been loaded. Floats pass through
`rax`. -/
def load (ints floats : Nat) : List Argument → Except Error (List Instr)
  | [] => .ok []
  | a :: rest =>
    if a.isFloat then
      if floats < maxFloats then do
        let more ← load ints (floats + 1) rest
        pure (.movWord .rax a.bits :: .movqFromRax floats :: more)
      else .error .tooManyFloats
    else
      match intRegisters[ints]? with
      | some r => do
        let more ← load (ints + 1) floats rest
        pure (.movWord r a.bits :: more)
      | none => .error .tooManyInts

/-- The instructions of the whole call. -/
def instructions (address : UInt64) (args : List Argument) (signature : Signature) :
    Except Error (List Instr) := do
  let loads ← load 0 0 args
  let count := (args.filter (·.isFloat)).length
  let vectors := if signature.variadic then [.movEax count.toUInt32] else []
  let result := if signature.returnsFloat then [.movqToRax] else []
  pure (.pushRax :: loads ++ vectors ++ [.movWord .r11 address, .callR11, .popRcx] ++
    result ++ [.ret])

/-- The code of the whole call, as bytes. -/
def assemble (address : UInt64) (args : List Argument) (signature : Signature) :
    Except Error (List UInt8) :=
  (instructions address args signature).map fun is => is.flatMap Instr.encode

end CallCode

end MicroCompiler.Native
