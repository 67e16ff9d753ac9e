import MicroCompiler.Grammar.Definition

/-! Declarations: structs, functions and constants.

    declaration = ident "::" ( struct | func | expr ";" )
    struct      = "struct" "{" { definition } "}"
    func        = "func" "(" params ")" [ returns ] ( block | "#foreign" [ string ] ";" )
    params      = [ group { "," group } ] [ "," "..." ] | "..."
    group       = ident { "," ident } ":" type
    returns     = type | "(" [ type { "," type } ] ")"

The block of a function is an argument of the productions, because statements contain
declarations. -/

namespace MicroCompiler.Grammar

open Ast (NodeId Slot)
open Production

/-- Names with their common type. Every name of the group shares one type node. -/
def paramGroup (rounds : Nat) : Production (List NodeId) := do
  let names ← commaSeparated expectIdentifier rounds
  let _ ← expect .colon
  let type ← typeExpr rounds
  allocVariables type names []

/-- Parameters up to and including the closing parenthesis, and whether an ellipsis ends them. -/
def paramsTail (rounds : Nat) : Nat → Production (List NodeId × Bool)
  | 0 => stalled
  | groups + 1 => do
    match ← eatIf .ellipsis with
    | some dots =>
      match ← eatIf .rightParen with
      | some _ => pure ([], true)
      | none => fail ⟨.variadicNotLast, dots.span, "variadic `...` must be the last parameter"⟩
    | none =>
      let group ← paramGroup rounds
      match ← eatIf .comma with
      | some _ =>
        let (rest, variadic) ← paramsTail rounds groups
        pure (group ++ rest, variadic)
      | none =>
        let _ ← expect .rightParen
        pure (group, false)

/-- The parameters behind an opening parenthesis. -/
def params (rounds : Nat) : Production (List NodeId × Bool) := do
  match ← eatIf .rightParen with
  | some _ => pure ([], false)
  | none => paramsTail rounds rounds

/-- The return types, if any. -/
def returns (rounds : Nat) : Production (List NodeId) := do
  match ← eatIf .leftParen with
  | some _ =>
    match ← eatIf .rightParen with
    | some _ => pure []
    | none =>
      let types ← commaSeparated (typeExpr rounds) rounds
      let _ ← expect .rightParen
      pure types
  | none =>
    if ← atType then
      let type ← typeExpr rounds
      pure [type]
    else pure []

/-- What stands for the body of a function, and where it ends. -/
structure Body where
  block : Slot
  library : Option Span
  foreign : Bool
  stop : Nat

def body (block : Production NodeId) : Production Body := do
  match ← eatIf .foreignDirective with
  | some _ =>
    let library ← eatIf .string
    let semi ← expect .semicolon
    pure ⟨none, library.map (·.span.unquoted), true, semi.span.stop⟩
  | none =>
    let t ← peek
    if t.kind ≠ .leftBrace then unexpected .missingBody "function body or `#foreign`" t
    else
      let id ← block
      let span ← spanOf id
      pure ⟨id, none, false, span.stop⟩

def function (block : Production NodeId) (rounds : Nat) : Production NodeId := attempt do
  let keyword ← expect .kwFunc
  let _ ← expect .leftParen
  let (params, variadic) ← params rounds
  let returns ← returns rounds
  let body ← body block
  let params ← allocList params
  let returns ← allocList returns
  let id ← alloc (.function none params returns body.block body.library)
    ⟨keyword.span.start, body.stop⟩
  update id fun n => { n with flags := ⟨false, body.foreign, variadic⟩ }
  pure id

def struct (rounds : Nat) : Production NodeId := attempt do
  let keyword ← expect .kwStruct
  let _ ← expect .leftBrace
  let members ← manyUntil .rightBrace (definition rounds) rounds
  let close ← eat
  let members ← allocList members
  alloc (.struct none members) ⟨keyword.span.start, close.span.stop⟩

/-- A named struct, function or constant. The first two carry their name themselves. -/
def declaration (block : Production NodeId) (rounds : Nat) : Production NodeId := attempt do
  let name ← expectIdentifier
  let _ ← expect .colonColon
  let value ← firstOf [struct rounds, function block rounds, expression rounds]
  let n ← node value
  match n.kind.named? name.span with
  | some kind =>
    update value fun n => { n with kind, span := ⟨name.span.start, n.span.stop⟩ }
    pure value
  | none =>
    let semi ← expect .semicolon
    alloc (.const name.span value) ⟨name.span.start, semi.span.stop⟩

end MicroCompiler.Grammar
