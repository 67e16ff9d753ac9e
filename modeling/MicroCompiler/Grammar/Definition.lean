import MicroCompiler.Grammar.Expression

/-! Definitions of variables.

    definition = [ "var" ] ident { "," ident } ( ":=" exprs | ":" [ type ] [ "=" exprs ] ) ";"

A definition has a type or initializers; initializers pair up with the names one to one. -/

namespace MicroCompiler.Grammar

open Ast (NodeId Slot)
open Production

/-- The type that begins here, if one does. -/
def optionalType (rounds : Nat) : Production Slot := do
  if ← atType then
    let type ← typeExpr rounds
    pure (some type)
  else pure none

/-- The initializers behind an equals sign, if there is one. -/
def initializers (rounds : Nat) : Production (List NodeId) := do
  match ← eatIf .equal with
  | some _ => expressions (expression rounds) rounds
  | none => pure []

/-- The type and the initializers of a definition. -/
def definitionBody (rounds : Nat) : Production (Slot × List NodeId) := do
  match ← eatIf .colonEqual with
  | some _ =>
    let inits ← expressions (expression rounds) rounds
    pure (none, inits)
  | none =>
    let colon ← peek
    if colon.kind ≠ .colon then unexpected .unexpectedToken "`:` or `:=`" colon
    else
      let _ ← eat
      let type ← optionalType rounds
      let inits ← initializers rounds
      if type.isNone ∧ inits.isEmpty then
        let found ← peek
        unexpected .missingInitializer "type or initializer" found
      else pure (type, inits)

/-- Fails unless there are no initializers or as many as names. -/
def checkCount (names : List Token) (inits : List NodeId) : Production Unit := do
  match inits with
  | [] => pure ()
  | first :: rest =>
    if inits.length = names.length then pure ()
    else
      let head ← spanOf first
      let last ← spanOf (rest.getLastD first)
      fail ⟨.initializerCount, head.merge last,
        s!"{names.length} name(s) declared but {inits.length} initializer(s) given"⟩

/-- Where a variable ends: with its initializer, else with its type, else with its name. -/
def variableStop (name : Token) (type initializer : Slot) : Production Nat := do
  match initializer, type with
  | some id, _ | none, some id =>
    let span ← spanOf id
    pure span.stop
  | none, none => pure name.span.stop

/-- The variables of a definition, each with the common type and its own initializer. -/
def allocVariables (type : Slot) : List Token → List NodeId → Production (List NodeId)
  | [], _ => pure []
  | name :: names, inits => do
    let initializer := inits.head?
    let stop ← variableStop name type initializer
    let var ← alloc (.var name.span type initializer) ⟨name.span.start, stop⟩
    let rest ← allocVariables type names inits.tail
    pure (var :: rest)

def definition (rounds : Nat) : Production NodeId := attempt do
  let keyword ← eatIf .kwVar
  let names ← commaSeparated expectIdentifier rounds
  let (type, inits) ← definitionBody rounds
  checkCount names inits
  let semi ← expect .semicolon
  let vars ← allocVariables type names inits
  let vars ← allocList vars
  let start := (keyword <|> names.head?).map (·.span.start)
  alloc (.definition vars) ⟨start.getD 0, semi.span.stop⟩

end MicroCompiler.Grammar
