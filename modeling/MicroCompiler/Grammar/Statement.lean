import MicroCompiler.Grammar.Declaration

/-! Statements.

    block     = "{" { statement } "}"
    statement = block
              | "if" expr statement [ "else" statement ]
              | "while" expr statement
              | "defer" statement
              | "return" [ exprs ] ";"
              | "break" ";" | "continue" ";"
              | declaration | definition
              | exprs "=" exprs ";"
              | expr ";"
-/

namespace MicroCompiler.Grammar

open Ast (NodeId NodeKind Slot)
open Production

def block (statement : Production NodeId) (rounds : Nat) : Production NodeId := attempt do
  let brace ← expect .leftBrace
  let statements ← manyUntil .rightBrace statement rounds
  let close ← eat
  let statements ← allocList statements
  alloc (.block statements) ⟨brace.span.start, close.span.stop⟩

/-- The statement behind an `else`, if there is one. -/
def alternative (statement : Production NodeId) : Production Slot := do
  match ← eatIf .kwElse with
  | some _ =>
    let id ← statement
    pure (some id)
  | none => pure none

def ifStatement (statement : Production NodeId) (rounds : Nat) : Production NodeId := attempt do
  let keyword ← expect .kwIf
  let condition ← expression rounds
  let consequent ← statement
  let alternative ← alternative statement
  let last ← spanOf (alternative.getD consequent)
  alloc (.ifStmt condition consequent alternative) ⟨keyword.span.start, last.stop⟩

def whileStatement (statement : Production NodeId) (rounds : Nat) : Production NodeId := attempt do
  let keyword ← expect .kwWhile
  let condition ← expression rounds
  let body ← statement
  let last ← spanOf body
  alloc (.whileStmt condition body) ⟨keyword.span.start, last.stop⟩

def deferStatement (statement : Production NodeId) : Production NodeId := attempt do
  let keyword ← expect .kwDefer
  let inner ← statement
  let last ← spanOf inner
  alloc (.deferStmt inner) ⟨keyword.span.start, last.stop⟩

/-- The values of a return, up to its semicolon. -/
def returnValues (rounds : Nat) : Production (List NodeId) := do
  if ← check .semicolon then pure [] else expressions (expression rounds) rounds

def returnStatement (rounds : Nat) : Production NodeId := attempt do
  let keyword ← expect .kwReturn
  let values ← returnValues rounds
  let semi ← expect .semicolon
  let values ← allocList values
  alloc (.returnStmt values) ⟨keyword.span.start, semi.span.stop⟩

/-- A keyword that is a statement by itself. -/
def jumpStatement (kind : NodeKind) : Production NodeId := attempt do
  let keyword ← eat
  let semi ← expect .semicolon
  alloc kind ⟨keyword.span.start, semi.span.stop⟩

/-- Where the first of some nodes starts. -/
def startOf (ids : List NodeId) (otherwise : Nat) : Production Nat := do
  match ids with
  | first :: _ =>
    let span ← spanOf first
    pure span.start
  | [] => pure otherwise

def assignment (rounds : Nat) : Production NodeId := attempt do
  let targets ← expressions (expression rounds) rounds
  let _ ← expect .equal
  let values ← expressions (expression rounds) rounds
  let semi ← expect .semicolon
  let start ← startOf targets semi.span.start
  let targets ← allocList targets
  let values ← allocList values
  alloc (.assignment targets values) ⟨start, semi.span.stop⟩

def expressionStatement (rounds : Nat) : Production NodeId := attempt do
  let expr ← expression rounds
  let semi ← expect .semicolon
  let head ← spanOf expr
  alloc (.expression expr) ⟨head.start, semi.span.stop⟩

/-- A statement whose own statements are read by `inner`. -/
def statementOf (inner : Production NodeId) (rounds : Nat) : Production NodeId := do
  let start ← peek
  match start.kind with
  | .leftBrace => block inner rounds
  | .kwIf => ifStatement inner rounds
  | .kwWhile => whileStatement inner rounds
  | .kwDefer => deferStatement inner
  | .kwReturn => returnStatement rounds
  | .kwBreak => jumpStatement .breakStmt
  | .kwContinue => jumpStatement .continueStmt
  | .kwVar => definition rounds
  | _ =>
    orUnexpected .unexpectedToken "statement" start
      (firstOf [declaration (block inner rounds) rounds, definition rounds, assignment rounds,
        expressionStatement rounds])

/-- The argument bounds the depth of nested statements, and within each one its length. -/
def statement : Nat → Production NodeId
  | 0 => stalled
  | depth + 1 => statementOf (statement depth) (depth + 1)

end MicroCompiler.Grammar
