import MicroCompiler.Machine.Step

/-! Whole runs. A session keeps the arena, the memory and the native library from run to run. A run
takes its stack from the arena and gives it back when it returns; nothing is cleared in between, so
a local holds what was last written at its place. -/

namespace MicroCompiler

structure Session (σ : Type) where
  arena : Arena
  memory : Memory
  links : Ssa.Links
  native : σ

/-- How a run ends. -/
inductive Ending where
  | returned (word : UInt64)
  | faulted (fault : Machine.Fault)
  /-- The bound on steps was reached. -/
  | unfinished
  deriving DecidableEq, Repr

namespace Machine

variable {σ : Type}

/-- Writes words to registers from `index` on. -/
def placeArguments (index : Nat) : List UInt64 → Action σ Unit
  | [] => pure ()
  | word :: rest => do
    setRegister index word
    placeArguments (index + 1) rest

/-- Begins the first activation. Register 0 will receive the result. -/
def start (m : Machine σ) (id : Ssa.FuncId) (f : Ssa.Function) (args : List UInt64) :
    Action σ Unit := do
  m.growRegisters (1 + f.values.size)
  placeArguments 1 args
  let start ← m.reserve 0 Frame.size Frame.align
  let stackOffset ← headerWord (start + Frame.size)
  let cursor ← entryOf f
  modify fun s =>
    { s with frame := ⟨id.index.toUInt32, 1, stackOffset, cursor, Frame.noCaller⟩, frameAt := start }

/-- Steps until there is an answer or a fault, at most a given number of times. -/
def iterate (m : Machine σ) : Nat → State σ → Ending × State σ
  | 0, s => (.unfinished, s)
  | steps + 1, s =>
    match m.step s with
    | .ok (some word) s => (.returned word, s)
    | .ok none s => m.iterate steps s
    | .error fault s => (.faulted fault, s)

/-- Runs a function with a body from a fresh register file. -/
def execute (m : Machine σ) (steps : Nat) (id : Ssa.FuncId) (f : Ssa.Function) (args : List UInt64)
    (s : State σ) : Ending × State σ :=
  match m.start id f args s with
  | .ok () s => m.iterate steps s
  | .error fault s => (.faulted fault, s)

/-- The arguments of a native function that is run by itself. -/
def nativeEntry (m : Machine σ) : List UInt64 → List TypeId → Action σ (List Native.Argument)
  | word :: words, t :: ts => do
    let info ← m.typeInfo t
    let more ← m.nativeEntry words ts
    pure (nativeArgument info word false :: more)
  | _, _ => pure []

/-- Runs a native function. -/
def executeNative (m : Machine σ) (id : Ssa.FuncId) (f : Ssa.Function) (args : List UInt64)
    (s : State σ) : Ending × State σ :=
  match (m.nativeEntry args f.values.toList >>= m.callNative id f) s with
  | .ok word s => (.returned word, s)
  | .error fault s => (.faulted fault, s)

end Machine

namespace Session

variable {σ : Type}

/-- The state before the first activation. -/
def state (s : Session σ) : Machine.State σ where
  registers := #[]
  memory := s.memory
  frame := ⟨0, 0, 0, 0, 0⟩
  frameAt := 0
  links := s.links
  native := s.native

/-- Takes over what a run leaves behind, with an arena. -/
def resume (arena : Arena) (s : Machine.State σ) : Session σ := ⟨arena, s.memory, s.links, s.native⟩

/-- Runs a function in at most a given number of steps. A run that returns gives its stack back. -/
def run (e : Environment σ) (steps : Nat) (id : Ssa.FuncId) (args : List UInt64) (s : Session σ) :
    Ending × Session σ :=
  match e.module.get id with
  | .error fault => (.faulted (.code fault), s)
  | .ok f =>
    if args.length ≠ f.argCount then (.faulted (.argumentCount f.name f.argCount args.length), s)
    else if f.isExternal then
      let arena := s.arena
      let (ending, after) := (Machine.mk e ⟨0, 0⟩).executeNative id f args s.state
      (ending, resume arena after)
    else
      let arena := s.arena
      match Arena.alloc e.limits.stackSize 16 1 arena with
      | .error error arena => (.faulted (.arena error), { s with arena })
      | .ok base taken =>
        let size := e.limits.stackSize.toNat
        if Machine.Frame.noCaller.toNat ≤ size then
          (.faulted (.stackTooLarge size), { s with arena := taken })
        else
          match (Machine.mk e ⟨base, size⟩).execute steps id f args s.state with
          | (.returned word, after) => (.returned word, resume arena after)
          | (ending, after) => (ending, resume taken after)

end Session

end MicroCompiler
