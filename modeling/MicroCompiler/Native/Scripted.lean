import MicroCompiler.Native.Library

/-! A library that answers by rule and records what it is asked. A symbol has an address and a rule
for its result, which is computed from the bits of the arguments alone. -/

namespace MicroCompiler.Native.Scripted

inductive Rule where
  | const (word : UInt64)
  /-- The argument at a position, zero if there is none, times a factor. -/
  | mul (index : Nat) (factor : UInt64)
  | sum
  deriving DecidableEq, Repr

def Rule.apply : Rule → List Argument → UInt64
  | .const w, _ => w
  | .mul i factor, args => (args[i]?.map (·.bits)).getD 0 * factor
  | .sum, args => args.foldl (fun s a => s + a.bits) 0

structure Entry where
  symbol : String
  address : UInt64
  rule : Rule
  deriving DecidableEq, Repr

inductive Event where
  | resolve (symbol : String) (found : Bool)
  | call (address : UInt64) (args : List Argument) (signature : Signature)
  deriving DecidableEq, Repr

/-- The library of some entries. Its state is the record of what was asked, in order. -/
def library (entries : List Entry) : Library (Array Event) where
  resolve symbol events :=
    let address := (entries.find? (·.symbol == symbol)).map (·.address)
    (address, events.push (.resolve symbol address.isSome))
  call address args signature memory events :=
    let rule := (entries.find? (·.address == address)).map (·.rule)
    ⟨.ok ((rule.map (·.apply args)).getD 0), memory, events.push (.call address args signature)⟩

end MicroCompiler.Native.Scripted
