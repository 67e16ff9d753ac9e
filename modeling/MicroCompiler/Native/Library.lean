import MicroCompiler.Memory
import MicroCompiler.Native.CallCode

/-! Native code as the machine sees it: symbols that resolve to addresses, and calls of addresses. A
library may keep a state of its own, and a call may read and write memory. -/

namespace MicroCompiler.Native

/-- What a call leaves behind. -/
structure Reply (σ : Type) where
  /-- The raw bits of the result register. -/
  result : Except CallCode.Error UInt64
  memory : Memory
  state : σ

structure Library (σ : Type) where
  /-- The address of a symbol, if it is loaded. -/
  resolve : String → σ → Option UInt64 × σ
  call : UInt64 → List Argument → Signature → Memory → σ → Reply σ

end MicroCompiler.Native
