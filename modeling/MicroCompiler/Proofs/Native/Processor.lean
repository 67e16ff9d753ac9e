import Mathlib.Logic.Function.Basic
import Mathlib.Logic.Relation
import MicroCompiler.Memory

/-! A part of an x86-64 processor: its registers and memory, and the instructions that move words
among registers, push and pop them, call and return. Instructions are decoded from bytes at the
instruction pointer. The code itself is no part of the memory, since it is mapped to be executed and
not to be written. Bytes that start no instruction of this part have no decoding, and a processor
that meets them takes no step. -/

namespace MicroCompiler.Native.Processor

/-- A general register, by its number. -/
abbrev Register := Fin 16

namespace Register

def rax : Register := 0
def rcx : Register := 1
def rdx : Register := 2
def rsp : Register := 4
def rsi : Register := 6
def rdi : Register := 7
def r8 : Register := 8
def r9 : Register := 9
def r11 : Register := 11

end Register

/-- A vector register, by its number. -/
def xmm (n : Nat) : Fin 16 := Fin.ofNat 16 n

/-- The content of a vector register. -/
structure Lanes where
  low : UInt64
  high : UInt64
  deriving DecidableEq

inductive Instruction where
  | push (source : Register)
  | pop (target : Register)
  /-- Loads a word. -/
  | load (target : Register) (word : UInt64)
  /-- Loads the lower half of a register and clears the upper one. -/
  | loadLow (target : Register) (word : UInt32)
  | toVector (target : Fin 16) (source : Register)
  | fromVector (target : Register) (source : Fin 16)
  | call (target : Register)
  | ret
  deriving DecidableEq

/-! ### Decoding -/

/-- The bits of a REX byte: a 64-bit operand, and the highest bits of the numbers of two
registers. -/
structure Rex where
  wide : Bool
  reg : Bool
  rm : Bool

def Rex.absent : Rex := ⟨false, false, false⟩

def Rex.ofByte? (b : UInt8) : Option Rex :=
  if b.toNat / 16 = 4 then some ⟨b.toNat / 8 % 2 = 1, b.toNat / 4 % 2 = 1, b.toNat % 2 = 1⟩ else
    none

/-- The register with the lowest three bits of `field` in its number. -/
def numbered (upper : Bool) (field : Nat) : Fin 16 :=
  Fin.ofNat 16 (field % 8 + if upper then 8 else 0)

/-- The number in the next bytes. -/
def immediate (width : Nat) (bytes : List UInt8) : Option Nat :=
  if width ≤ bytes.length then some (Bytes.ofLittleEndian (bytes.take width)) else none

/-- Decodes from the opcode on. The result comes with the number of bytes that were used. -/
def decodePlain (rex : Rex) : List UInt8 → Option (Instruction × Nat)
  | [] => none
  | opcode :: rest =>
    let register := numbered rex.rm opcode.toNat
    if opcode.toNat / 8 = 0x50 / 8 then some (.push register, 1)
    else if opcode.toNat / 8 = 0x58 / 8 then some (.pop register, 1)
    else if opcode.toNat / 8 = 0xb8 / 8 then
      if rex.wide then (immediate 8 rest).map fun n => (.load register n.toUInt64, 9)
      else (immediate 4 rest).map fun n => (.loadLow register n.toUInt32, 5)
    else if opcode = 0xc3 then some (.ret, 1)
    else if opcode = 0xff then
      match rest with
      | [] => none
      | modrm :: _ =>
        -- other digits between the two fields are other instructions, other modes address memory
        if modrm.toNat / 64 = 3 ∧ modrm.toNat / 8 % 8 = 2 then
          some (.call (numbered rex.rm modrm.toNat), 2)
        else none
    else none

/-- The same behind an operand size byte, where all that is left are the moves to and from vector
registers. -/
def decodeVector (rex : Rex) : List UInt8 → Option (Instruction × Nat)
  | escape :: opcode :: modrm :: _ =>
    let vector := numbered rex.reg (modrm.toNat / 8)
    let register := numbered rex.rm modrm.toNat
    if escape = 0x0f ∧ rex.wide ∧ modrm.toNat / 64 = 3 then
      if opcode = 0x6e then some (.toVector vector register, 3)
      else if opcode = 0x7e then some (.fromVector register vector, 3)
      else none
    else none
  | _ => none

/-- Decodes from an optional REX byte on. -/
def decodeRex (decodeRest : Rex → List UInt8 → Option (Instruction × Nat)) :
    List UInt8 → Option (Instruction × Nat)
  | [] => none
  | b :: rest =>
    match Rex.ofByte? b with
    | some rex => (decodeRest rex rest).map fun r => (r.1, r.2 + 1)
    | none => decodeRest .absent (b :: rest)

/-- The instruction that bytes begin with, and its length. -/
def decode : List UInt8 → Option (Instruction × Nat)
  | [] => none
  | b :: rest =>
    if b = 0x66 then (decodeRex decodeVector rest).map fun r => (r.1, r.2 + 1) else decodeRex
      decodePlain (b :: rest)

/-! ### Execution -/

structure State where
  pointer : UInt64
  registers : Register → UInt64
  vectors : Fin 16 → Lanes
  memory : Memory

namespace State

def set (s : State) (r : Register) (word : UInt64) : State :=
  { s with registers := Function.update s.registers r word }

def push (s : State) (word : UInt64) : State :=
  let top := s.registers .rsp - 8
  { s.set .rsp top with memory := s.memory.store top 8 word }

/-- The word on top of the stack, and the state without it. -/
def pop (s : State) : UInt64 × State :=
  let top := s.registers .rsp
  (s.memory.load top 8, s.set .rsp (top + 8))

/-- What an instruction does once the pointer stands behind it. -/
def execute (s : State) : Instruction → State
  | .push r => s.push (s.registers r)
  | .pop r => s.pop.2.set r s.pop.1
  | .load r word => s.set r word
  | .loadLow r word => s.set r word.toUInt64
  | .toVector x r => { s with vectors := Function.update s.vectors x ⟨s.registers r, 0⟩ }
  | .fromVector r x => s.set r (s.vectors x).low
  | .call r => { s.push s.pointer with pointer := s.registers r }
  | .ret => { s.pop.2 with pointer := s.pop.1 }

@[simp] theorem set_registers (s : State) (r r' : Register) (word : UInt64) :
    (s.set r word).registers r' = if r' = r then word else s.registers r' :=
    Function.update_apply ..

@[simp] theorem set_vectors (s : State) (r : Register) (word : UInt64) :
    (s.set r word).vectors = s.vectors := rfl

@[simp] theorem set_memory (s : State) (r : Register) (word : UInt64) :
    (s.set r word).memory = s.memory := rfl

@[simp] theorem set_pointer (s : State) (r : Register) (word : UInt64) :
    (s.set r word).pointer = s.pointer := rfl

end State

/-- The instruction at the pointer, of code that is mapped from `base` on. -/
def fetch (code : List UInt8) (base : UInt64) (s : State) : Option (Instruction × Nat) :=
  decode (code.drop (s.pointer - base).toNat)

def step (code : List UInt8) (base : UInt64) (s : State) : Option State :=
  (fetch code base s).map fun r => { s with pointer := s.pointer + r.2.toUInt64 }.execute r.1

/-- The second state is reached from the first by steps through the code. -/
def Reaches (code : List UInt8) (base : UInt64) : State → State → Prop :=
  Relation.ReflTransGen fun s s' => step code base s = some s'

end MicroCompiler.Native.Processor
