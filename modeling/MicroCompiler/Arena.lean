/-! A bump allocator over one buffer. Requests are carved off the front of what is left, aligned by
address; none is freed alone, but a mark remembers how much was in use and a rollback goes back to
it. Sizes and addresses are 64-bit words, and a request that fails changes nothing. -/

namespace MicroCompiler

structure Arena where
  /-- The address of the buffer. -/
  base : UInt64
  capacity : UInt64
  /-- The bytes in use, padding included. -/
  used : UInt64
  deriving DecidableEq, Repr

namespace Arena

inductive Error where
  | alignment (align : UInt64)
  | overflow (size count : UInt64)
  | exhausted (bytes align used capacity : UInt64)
  | rollback (mark used : UInt64)
  deriving DecidableEq, Repr

def Error.message : Error → String
  | .alignment align => s!"arena alignment must be a power of two, got {align}"
  | .overflow size count => s!"arena allocation size overflow: {size} * {count}"
  | .exhausted bytes align used capacity =>
    s!"arena exhausted: requested {bytes} bytes (align {align}) with {used} of {capacity} bytes in use"
  | .rollback mark used => s!"arena rollback to {mark} past current offset {used}"

def empty (base capacity : UInt64) : Arena := ⟨base, capacity, 0⟩

def remaining (a : Arena) : UInt64 := a.capacity - a.used

/-- Whether exactly one bit is set. -/
def isPowerOfTwo (n : UInt64) : Bool := n != 0 && n &&& (n - 1) == 0

/-- The least multiple of `align`, a power of two, that is not below `value`. -/
def alignUp (value align : UInt64) : UInt64 := (value + align - 1) &&& ~~~(align - 1)

/-- A request, which changes the arena as it goes. One that fails leaves what it has changed
before. -/
abbrev Action (α : Type) := EStateM Error Arena α

/-- Fails unless a condition holds. -/
def require (condition : Prop) [Decidable condition] (e : Error) : Action Unit :=
  if condition then pure () else throw e

/-- Carves out `size * count` bytes at a multiple of `align` and returns their address. A request
for no bytes returns the aligned position and consumes nothing. -/
def alloc (size align count : UInt64) : Action UInt64 := do
  require (isPowerOfTwo align) (.alignment align)
  require (size.toNat * count.toNat < UInt64.size) (.overflow size count)
  let a ← get
  let bytes := size * count
  let start := alignUp (a.base + a.used) align - a.base
  require (start.toNat + bytes.toNat < UInt64.size ∧ start + bytes ≤ a.capacity)
    (.exhausted bytes align a.used a.capacity)
  set { a with used := if bytes = 0 then a.used else start + bytes }
  pure (a.base + start)

/-- How much is in use, to go back to. -/
def snapshot : Action UInt64 := do
  let a ← get
  pure a.used

/-- Goes back to a mark, which must not lie past what is in use. -/
def rollback (mark : UInt64) : Action Unit := do
  let a ← get
  require (mark ≤ a.used) (.rollback mark a.used)
  set { a with used := mark }

def reset : Action Unit := modify fun a => { a with used := 0 }

/-- Whether an address lies in the buffer. -/
def contains (a : Arena) (address : UInt64) : Bool :=
  a.base ≤ address && address < a.base + a.capacity

def render (a : Arena) : String :=
  "Arena \x7b used: " ++ s!"{a.used}, capacity: {a.capacity}" ++ " \x7d"

/-- The cells that can be asked for by name. -/
inductive Cell where
  | u8 | u16 | u32 | u64 | unit
  deriving DecidableEq, Repr

def Cell.size : Cell → UInt64
  | .u8 => 1
  | .u16 => 2
  | .u32 => 4
  | .u64 => 8
  | .unit => 0

def Cell.align : Cell → UInt64
  | .unit => 1
  | c => c.size

def allocFor (cell : Cell) (count : UInt64) : Action UInt64 := alloc cell.size cell.align count

end Arena

end MicroCompiler
