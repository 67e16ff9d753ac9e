import MicroCompiler.Grammar.TypeExpr

/-! Expressions.

    expr    = unary { binop unary }
    unary   = prefix unary | postfix
    postfix = primary { "(" args ")" | "[" expr "]" | "." ident | ".(" type ")" }
    primary = ident | number | string | "nil" | "(" expr ")"

Operands are joined from left to right. A new operator that binds tighter than the one before it
takes over that operator's right operand, so the tree always respects the priorities. -/

namespace MicroCompiler.Ast

/-- The right operand, if an operator of higher priority must be put below this node. -/
def Node.rotationChild? (n : Node) (op : BinaryOp) : Option Slot :=
  match n.kind with
  | .binary existing _ right =>
    if !n.flags.inParens && existing.priority < op.priority then some right else none
  | _ => none

/-- The node with another right operand, ending no earlier than `stop`. -/
def Node.extendRight (n : Node) (right : Slot) (stop : Nat) : Node :=
  let kind := match n.kind with
    | .binary op left _ => .binary op left right
    | kind => kind
  { n with kind, span := ⟨n.span.start, max n.span.stop stop⟩ }

/-- Joins the tree in `left` with a further operand. Along the right spine of `left` the new
operator goes below every unparenthesized operator of lower priority; the operand displaced there
becomes its left operand. Returns the root of the joined tree and where the new node ends. The last
argument bounds the length of the spine. -/
def Pool.attachAt (pool : Pool) (op : BinaryOp) (right : NodeId) (left : Slot) :
    Nat → Except Fault (Slot × Nat × Pool)
  | 0 => .error .cycle
  | levels + 1 => do
    let node ← pool.get left
    match node.rotationChild? op with
    | none =>
      let operand ← pool.get right
      let span := node.span.merge operand.span
      let (id, pool) := pool.alloc (.binary op left right) span
      pure (id, span.stop, pool)
    | some child =>
      let (joined, stop, pool) ← pool.attachAt op right child levels
      let pool ← pool.modify left (·.extendRight joined stop)
      pure (left, stop, pool)

/-- Joins `left op right` by the priorities of the operators. -/
def Pool.attachBinary (pool : Pool) (left : NodeId) (op : BinaryOp) (right : NodeId) :
    Except Fault (Slot × Pool) :=
  (pool.attachAt op right left (pool.size + 1)).map fun (root, _, pool) => (root, pool)

end MicroCompiler.Ast

namespace MicroCompiler.Grammar

open Ast (BinaryOp NodeId Number UnaryOp)
open Production

def attach (left : NodeId) (op : BinaryOp) (right : NodeId) : Production NodeId := fun _ st =>
  match st.pool.attachBinary left op right with
  | .ok (root, pool) => .ok (root.getD left) { st with pool }
  | .error f => .broken (.pool f)

/-- The value of a number token, which must be in range. -/
def number (t : Token) : Production Number := do
  let text ← textOf t.span
  match Number.ofText? text with
  | some value => pure value
  | none => fail ⟨.numberOutOfRange, t.span, "number literal `" ++ text ++ "` is out of range"⟩

/-- A name, a literal or a parenthesized expression. -/
def primary (expr : Production NodeId) : Production NodeId := attempt do
  let t ← peek
  match t.kind with
  | .identifier =>
    let _ ← eat
    alloc (.identifier t.span) t.span
  | .number =>
    let _ ← eat
    let value ← number t
    alloc (.number value) t.span
  | .string =>
    let _ ← eat
    alloc (.string t.span.unquoted) t.span
  | .kwNil =>
    let _ ← eat
    alloc .nil t.span
  | .leftParen =>
    let _ ← eat
    let inner ← expr
    let close ← expect .rightParen
    update inner fun n =>
      { n with flags := { n.flags with inParens := true }, span := ⟨t.span.start, close.span.stop⟩ }
    pure inner
  | _ => unexpected .expectedExpression "expression" t

/-- Expressions with commas between them, at least one. -/
def expressions (expr : Production NodeId) (rounds : Nat) : Production (List NodeId) :=
  attempt (commaSeparated expr rounds)

/-- The arguments of a call, between its parentheses. -/
def arguments (expr : Production NodeId) (rounds : Nat) : Production (List NodeId) := do
  if ← check .rightParen then pure [] else expressions expr rounds

def call (expr : Production NodeId) (callee : NodeId) (rounds : Nat) : Production NodeId :=
  attempt do
  let _ ← expect .leftParen
  let args ← arguments expr rounds
  let close ← expect .rightParen
  let args ← allocList args
  let head ← spanOf callee
  alloc (.call callee args) ⟨head.start, close.span.stop⟩

def subscript (expr : Production NodeId) (container : NodeId) : Production NodeId := do
  let head ← spanOf container
  let _ ← eat
  let index ← expr
  let close ← expect .rightBracket
  alloc (.subscript container index) ⟨head.start, close.span.stop⟩

/-- A member or a cast, after the point. -/
def selection (operand : NodeId) (rounds : Nat) : Production NodeId := do
  let head ← spanOf operand
  let _ ← eat
  match ← eatIf .leftParen with
  | some _ =>
    let type ← typeExpr rounds
    let close ← expect .rightParen
    alloc (.cast operand type) ⟨head.start, close.span.stop⟩
  | none =>
    let name ← expectIdentifier
    alloc (.member operand name.span) ⟨head.start, name.span.stop⟩

/-- Calls, subscripts, members and casts that follow an operand. The last argument bounds their
number. -/
def suffixes (expr : Production NodeId) (operand : NodeId) : Nat → Production NodeId
  | 0 => stalled
  | rounds + 1 => do
    let t ← peek
    match t.kind with
    | .leftParen =>
      let operand ← call expr operand (rounds + 1)
      suffixes expr operand rounds
    | .leftBracket =>
      let operand ← subscript expr operand
      suffixes expr operand rounds
    | .dot =>
      let operand ← selection operand (rounds + 1)
      suffixes expr operand rounds
    | _ => pure operand

/-- An operand with its operators before and its suffixes behind; the suffixes bind tighter. The
last argument bounds the number of operators before it, `rounds` that of its suffixes. -/
def unary (expr : Production NodeId) (rounds : Nat) : Nat → Production NodeId
  | 0 => stalled
  | depth + 1 => attempt do
    let t ← peek
    match UnaryOp.ofToken? t.kind with
    | none =>
      let operand ← primary expr
      suffixes expr operand rounds
    | some op =>
      let _ ← eat
      let operand ← unary expr rounds depth
      let inner ← spanOf operand
      alloc (.unary op operand) ⟨t.span.start, inner.stop⟩

/-- Further operands, each after a binary operator. -/
def binaryTail (operand : Production NodeId) (left : NodeId) : Nat → Production NodeId
  | 0 => stalled
  | rounds + 1 => do
    let t ← peek
    match BinaryOp.ofToken? t.kind with
    | none => pure left
    | some op =>
      let _ ← eat
      let right ← operand
      let left ← attach left op right
      binaryTail operand left rounds

/-- The last argument bounds the depth of nested expressions, and within each one its length. -/
def expression : Nat → Production NodeId
  | 0 => stalled
  | depth + 1 => attempt do
    let operand := unary (expression depth) (depth + 1) (depth + 1)
    let left ← operand
    binaryTail operand left (depth + 1)

end MicroCompiler.Grammar
