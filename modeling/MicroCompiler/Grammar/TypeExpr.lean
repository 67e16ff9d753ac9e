import MicroCompiler.Grammar.Production

/-! Type expressions: a name behind any number of stars.

    type = "*" type | ident
-/

namespace MicroCompiler.Grammar

open Ast (NodeId)
open Production

/-- The last argument bounds the number of stars. -/
def typeExpr : Nat → Production NodeId
  | 0 => stalled
  | depth + 1 => attempt do
    let t ← peek
    match t.kind with
    | .star =>
      let _ ← eat
      let pointee ← typeExpr depth
      let inner ← spanOf pointee
      alloc (.pointerType pointee) ⟨t.span.start, inner.stop⟩
    | .identifier =>
      let _ ← eat
      alloc (.namedType t.span) t.span
    | _ => unexpected .expectedType "type" t

/-- Whether the next token can begin a type. -/
def atType : Production Bool := do
  let t ← peek
  pure (t.kind == .star || t.kind == .identifier)

end MicroCompiler.Grammar
