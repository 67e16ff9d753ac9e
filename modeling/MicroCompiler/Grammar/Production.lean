import MicroCompiler.Ast.Pool
import MicroCompiler.Diagnostic.Basic
import MicroCompiler.Token.Cursor

/-! Productions of the grammar. A production reads tokens from a cursor and writes nodes into a
pool. It succeeds with a value, fails with a diagnostic, or breaks; a broken production is a fault
of the grammar itself and no text leads to one. A failed attempt leaves no trace: the cursor goes
back to the token it began with and the pool to its former size, so alternatives can be tried in
turn. -/

namespace MicroCompiler.Grammar

open Ast (Node NodeId NodeKind NodeRange Pool)
open Token (Cursor Kind)

structure State where
  cursor : Cursor
  pool : Pool
  deriving Repr

inductive Fault where
  | pool (fault : Ast.Fault)
  /-- A loop or a recursion took more steps than there are tokens. -/
  | stalled
  deriving DecidableEq, Repr

def Fault.message : Fault → String
  | .pool f => f.message
  | .stalled => "the grammar made no progress"

inductive Outcome (α : Type) where
  | ok (value : α) (state : State)
  | failed (error : Diagnostic) (state : State)
  | broken (fault : Fault)
  deriving Repr

def Production (α : Type) := Source → State → Outcome α

namespace Production

protected def pure (a : α) : Production α := fun _ st => .ok a st

protected def bind (p : Production α) (f : α → Production β) : Production β := fun src st =>
  match p src st with
  | .ok a st => f a src st
  | .failed e st => .failed e st
  | .broken f => .broken f

instance : Monad Production where
  pure := Production.pure
  bind := Production.bind

/-! ### Failing -/

def fail (e : Diagnostic) : Production α := fun _ st => .failed e st

def stalled : Production α := fun _ _ => .broken .stalled

/-- Fails because `found` stands where `wanted` should. -/
def unexpected (code : Diagnostic.Code) (wanted : String) (found : Token) : Production α :=
  fun src st =>
  .failed (.expected code wanted found src) st

/-- Runs a production and, should it fail, undoes what it read and wrote. -/
def attempt (p : Production α) : Production α := fun src st =>
  let (t, cursor) := st.cursor.peek src
  let mark := st.pool.mark
  match p src { st with cursor } with
  | .failed e st => .failed e ⟨.reset t, st.pool.rollback mark⟩
  | outcome => outcome

/-- The first of the alternatives to succeed, when an earlier one failed with `best`. -/
def orElse (best : Diagnostic) : List (Production α) → Production α
  | [] => fail best
  | p :: rest => fun src st =>
    match p src st with
    | .failed e st => orElse (best.furthest e) rest src st
    | outcome => outcome

/-- The first alternative that succeeds; if all fail, the diagnostic that got furthest. -/
def firstOf : List (Production α) → Production α
  | [] => fun src st =>
    let (t, cursor) := st.cursor.peek src
    .failed ⟨.internal, t.span, "no alternatives to parse"⟩ { st with cursor }
  | p :: rest => fun src st =>
    match p src st with
    | .failed e st => orElse e rest src st
    | outcome => outcome

/-- Replaces a diagnostic that points at the very first token, and so says nothing about the
alternatives, unless it is lexical. -/
def orUnexpected (code : Diagnostic.Code) (wanted : String) (start : Token) (p : Production α) :
    Production α := fun src st =>
  match p src st with
  | .failed e st =>
    if e.offset = start.span.start ∧ !e.code.isLexical then
      .failed (.expected code wanted start src) st
    else .failed e st
  | outcome => outcome

/-! ### Reading tokens -/

def peek : Production Token := fun src st =>
  let (t, cursor) := st.cursor.peek src
  .ok t { st with cursor }

def eat : Production Token := fun src st =>
  let (t, cursor) := st.cursor.eat src
  .ok t { st with cursor }

/-- Whether the next token has a kind. -/
def check (kind : Kind) : Production Bool := do
  let t ← peek
  pure (t.kind == kind)

/-- Consumes the next token if it has a kind. -/
def eatIf (kind : Kind) : Production (Option Token) := do
  if ← check kind then
    let t ← eat
    pure (some t)
  else pure none

/-- Consumes the next token, which must be of a kind or is reported under a code. -/
def expectAs (code : Diagnostic.Code) (kind : Kind) : Production Token := do
  let t ← peek
  if t.kind = kind then eat else unexpected code kind.describe t

def expect (kind : Kind) : Production Token := expectAs .unexpectedToken kind

def expectIdentifier : Production Token := expectAs .expectedIdentifier .identifier

/-- The text of a span of the source. -/
def textOf (s : Span) : Production String := fun src st => .ok (src.text s) st

/-! ### Writing nodes -/

def alloc (kind : NodeKind) (span : Span) : Production NodeId := fun _ st =>
  let (id, pool) := st.pool.alloc kind span
  .ok id { st with pool }

def allocList (ids : List NodeId) : Production NodeRange := fun _ st =>
  let (range, pool) := st.pool.allocList (ids.map some)
  .ok range { st with pool }

def node (id : NodeId) : Production Node := fun _ st =>
  match st.pool.get id with
  | .ok n => .ok n st
  | .error f => .broken (.pool f)

def spanOf (id : NodeId) : Production Span := do
  let n ← node id
  pure n.span

def update (id : NodeId) (f : Node → Node) : Production Unit := fun _ st =>
  match st.pool.modify id f with
  | .ok pool => .ok () { st with pool }
  | .error f => .broken (.pool f)

/-! ### Loops. The last argument bounds the number of rounds; each round consumes a token. -/

/-- Items up to, but not including, a token of a kind. -/
def manyUntil (stop : Kind) (item : Production α) : Nat → Production (List α)
  | 0 => stalled
  | rounds + 1 => do
    if ← check stop then pure []
    else
      let a ← item
      let rest ← manyUntil stop item rounds
      pure (a :: rest)

/-- Further items, each after a comma. -/
def commaTail (item : Production α) : Nat → Production (List α)
  | 0 => stalled
  | rounds + 1 => do
    match ← eatIf .comma with
    | none => pure []
    | some _ =>
      let a ← item
      let rest ← commaTail item rounds
      pure (a :: rest)

/-- One item or more, with commas between them. -/
def commaSeparated (item : Production α) (rounds : Nat) : Production (List α) := do
  let a ← item
  let rest ← commaTail item rounds
  pure (a :: rest)

end Production

end MicroCompiler.Grammar
