import MicroCompiler.Grammar.Statement

/-! Whole texts: a file of declarations, or one expression.

    file = { "#load" string ";" | declaration | definition }
-/

namespace MicroCompiler.Grammar

open Ast (NodeId Pool)
open Production

def loadDirective : Production NodeId := attempt do
  let directive ← expect .loadDirective
  let path ← expect .string
  let semi ← expect .semicolon
  alloc (.load path.span.unquoted) ⟨directive.span.start, semi.span.stop⟩

def topLevel (rounds : Nat) : Production NodeId := do
  let start ← peek
  match start.kind with
  | .loadDirective => loadDirective
  | _ =>
    orUnexpected .expectedDeclaration "declaration" start
      (firstOf [declaration (block (statement rounds) rounds) rounds, definition rounds])

def file (size rounds : Nat) : Production NodeId := attempt do
  let declarations ← manyUntil .eof (topLevel rounds) rounds
  let declarations ← allocList declarations
  alloc (.file declarations) ⟨0, size⟩

/-- An expression that is the whole text. -/
def wholeExpression (rounds : Nat) : Production NodeId := do
  let root ← expression rounds
  let _ ← expect .eof
  pure root

/-- A tree and the pool it lives in. -/
structure Parsed where
  pool : Pool
  root : NodeId
  deriving Repr

/-- Why there is no tree. -/
inductive Failure where
  | rejected (error : Diagnostic)
  | broken (fault : Fault)
  deriving DecidableEq, Repr

/-- Runs a production from the start of a text. -/
def run (p : Production NodeId) (src : Source) (fileIndex : Nat) : Except Failure Parsed :=
  match p src ⟨.start, .empty fileIndex⟩ with
  | .ok root st => .ok ⟨st.pool, root⟩
  | .failed e _ => .error (.rejected e)
  | .broken f => .error (.broken f)

/-- The number of steps that suffice for a text: it has no more tokens than bytes, and the end of
the file. -/
def budget (src : Source) : Nat := src.size + 1

def parseFile (src : Source) (fileIndex : Nat) : Except Failure Parsed :=
  run (file src.size (budget src)) src fileIndex

def parseExpression (src : Source) (fileIndex : Nat) : Except Failure Parsed :=
  run (wholeExpression (budget src)) src fileIndex

end MicroCompiler.Grammar
