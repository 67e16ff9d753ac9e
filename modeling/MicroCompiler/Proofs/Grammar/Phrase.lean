import Mathlib.Tactic.Common
import MicroCompiler.Ast.Operator

/-! The grammar as derivations of sequences of token kinds. A derivation knows nothing of cursors,
pools or the order in which alternatives are tried.

    file        = { "#load" string ";" | declaration | definition }
    declaration = ident "::" ( struct | func | expr ";" )
    struct      = "struct" "{" { definition } "}"
    func        = "func" "(" params ")" [ returns ] ( block | "#foreign" [ string ] ";" )
    params      = [ group { "," group } ] [ "," "..." ] | "..."
    group       = ident { "," ident } ":" type
    returns     = type | "(" [ type { "," type } ] ")"
    type        = "*" type | ident

Expressions, definitions and statements have their rules below. Three conditions go with the rules.
A definition has a type or initializers, and as many initializers as names if it has any. An
ellipsis stands alone or behind a comma that follows a group. The statement behind the condition of
an `if` or a `while` does not begin with a token that would also go on with the condition. -/

namespace MicroCompiler.Ast

open Token (Kind)

theorem UnaryOp.token_of_ofToken? {k : Kind} {op : UnaryOp} (h : UnaryOp.ofToken? k = some op) :
    op.token = k := by
  simpa using List.find?_some h

theorem UnaryOp.ofToken?_token (op : UnaryOp) : UnaryOp.ofToken? op.token = some op := by
  cases op <;> rfl

theorem BinaryOp.token_of_ofToken? {k : Kind} {op : BinaryOp} (h : BinaryOp.ofToken? k = some op) :
    op.token = k := by
  simpa using List.find?_some h

theorem BinaryOp.ofToken?_token (op : BinaryOp) : BinaryOp.ofToken? op.token = some op := by
  cases op <;> rfl

end MicroCompiler.Ast

namespace MicroCompiler.Grammar

open Ast (BinaryOp UnaryOp)
open Token (Kind)

/-! ### Lists -/

/-- A number of phrases with commas between them. -/
inductive CommaSeparated (P : List Kind → Prop) : Nat → List Kind → Prop
  | one {xs : List Kind} (h : P xs) : CommaSeparated P 1 xs
  | more {n : Nat} {xs ys : List Kind} (h : P xs) (rest : CommaSeparated P n ys) :
    CommaSeparated P (n + 1) (xs ++ .comma :: ys)

/-- Any number of phrases one behind the other. -/
inductive Repeated (P : List Kind → Prop) : List Kind → Prop
  | none : Repeated P []
  | more {xs ys : List Kind} (h : P xs) (rest : Repeated P ys) : Repeated P (xs ++ ys)

/-- A phrase that may be left out. -/
def Optional (P : List Kind → Prop) (xs : List Kind) : Prop := xs = [] ∨ P xs

/-- A single token. -/
def Word (k : Kind) (xs : List Kind) : Prop := xs = [k]

def IsNames : Nat → List Kind → Prop := CommaSeparated (Word .identifier)

/-! ### Types and expressions -/

inductive IsType : List Kind → Prop
  | name : IsType [.identifier]
  | pointer {xs : List Kind} (h : IsType xs) : IsType (.star :: xs)

/-- The nonterminals of expressions. A list of expressions has a length. -/
inductive ExprPart where
  | expr | operands | unary | suffix | suffixes | primary
  | exprs (count : Nat)

/-- The tokens that are expressions by themselves. -/
def isAtom : Kind → Bool
  | .identifier | .number | .string | .kwNil => true
  | _ => false

/-- Expressions.

    expr    = unary { binop unary }
    unary   = prefix unary | postfix
    postfix = primary { "(" [ exprs ] ")" | "[" expr "]" | "." ident | ".(" type ")" }
    primary = ident | number | string | "nil" | "(" expr ")"
    exprs   = expr { "," expr }
-/
inductive IsExpr : ExprPart → List Kind → Prop
  | expr {xs ys : List Kind} (h : IsExpr .unary xs) (rest : IsExpr .operands ys) :
    IsExpr .expr (xs ++ ys)
  | noOperand : IsExpr .operands []
  | operand (op : BinaryOp) {xs ys : List Kind} (h : IsExpr .unary xs) (rest : IsExpr .operands
    ys) : IsExpr .operands (op.token :: xs ++ ys)
  | prefixed (op : UnaryOp) {xs : List Kind} (h : IsExpr .unary xs) : IsExpr .unary (op.token :: xs)
  | postfixed {xs ys : List Kind} (h : IsExpr .primary xs) (rest : IsExpr .suffixes ys) :
    IsExpr .unary (xs ++ ys)
  | noSuffix : IsExpr .suffixes []
  | suffixes {xs ys : List Kind} (h : IsExpr .suffix xs) (rest : IsExpr .suffixes ys) : IsExpr
    .suffixes (xs ++ ys)
  | callNone : IsExpr .suffix [.leftParen, .rightParen]
  | call {n : Nat} {xs : List Kind} (h : IsExpr (.exprs n) xs) : IsExpr .suffix
    (.leftParen :: xs ++ [.rightParen])
  | subscript {xs : List Kind} (h : IsExpr .expr xs) : IsExpr .suffix (.leftBracket ::
    xs ++ [.rightBracket])
  | member : IsExpr .suffix [.dot, .identifier]
  | cast {xs : List Kind} (h : IsType xs) : IsExpr .suffix (.dot :: .leftParen ::
    xs ++ [.rightParen])
  | atom {k : Kind} (h : isAtom k) : IsExpr .primary [k]
  | parens {xs : List Kind} (h : IsExpr .expr xs) : IsExpr .primary
    (.leftParen :: xs ++ [.rightParen])
  | oneExpr {xs : List Kind} (h : IsExpr .expr xs) : IsExpr (.exprs 1) xs
  | moreExprs {n : Nat} {xs ys : List Kind} (h : IsExpr .expr xs) (rest : IsExpr (.exprs n) ys) :
    IsExpr (.exprs (n + 1)) (xs ++ .comma :: ys)

/-! ### Definitions and signatures -/

/-- What follows the names of a definition: `":=" exprs | ":" [ type ] [ "=" exprs ]`, with a type
or with initializers, and with `n` of the latter if there are any. -/
inductive IsDefinitionBody (n : Nat) : List Kind → Prop
  | inferred {xs : List Kind} (h : IsExpr (.exprs n) xs) : IsDefinitionBody n (.colonEqual :: xs)
  | typed {xs : List Kind} (h : IsType xs) : IsDefinitionBody n (.colon :: xs)
  | initialized {xs ys : List Kind} (h : Optional IsType xs) (inits : IsExpr (.exprs n) ys) :
    IsDefinitionBody n (.colon :: xs ++ .equal :: ys)

/-- A definition, `[ "var" ] ident { "," ident } body ";"`. -/
inductive IsDefinition : List Kind → Prop
  | mk {n : Nat} {kw xs ys : List Kind} (hkw : Optional (Word .kwVar) kw) (names : IsNames n xs)
    (body : IsDefinitionBody n ys) : IsDefinition (kw ++ xs ++ ys ++ [.semicolon])

inductive IsGroup : List Kind → Prop
  | mk {n : Nat} {xs ys : List Kind} (names : IsNames n xs) (type : IsType ys) : IsGroup
    (xs ++ .colon :: ys)

inductive IsParams : List Kind → Prop
  | none : IsParams []
  | groups {n : Nat} {xs : List Kind} (h : CommaSeparated IsGroup n xs) : IsParams xs
  | variadic {n : Nat} {xs : List Kind} (h : CommaSeparated IsGroup n xs) : IsParams (xs ++
    [.comma, .ellipsis])
  | ellipsis : IsParams [.ellipsis]

inductive IsReturns : List Kind → Prop
  | one {xs : List Kind} (h : IsType xs) : IsReturns xs
  | none : IsReturns [.leftParen, .rightParen]
  | list {n : Nat} {xs : List Kind} (h : CommaSeparated IsType n xs) : IsReturns (.leftParen ::
    xs ++ [.rightParen])

inductive IsStruct : List Kind → Prop
  | mk {xs : List Kind} (h : Repeated IsDefinition xs) :
    IsStruct (.kwStruct :: .leftBrace :: xs ++ [.rightBrace])

/-! ### Statements -/

/-- Whether the statement cannot be taken for the rest of an expression before it. -/
def StandsApart (xs : List Kind) : Prop :=
  ∀ k ∈ xs.head?, k ∉ [Kind.leftParen, Kind.plus, Kind.minus, Kind.ampersand, Kind.star]

inductive StmtPart where
  | statement | statements | block | func | declaration

/-- Statements and declarations.

    block     = "{" { statement } "}"
    statement = block
              | "if" expr statement [ "else" statement ]
              | "while" expr statement
              | "defer" statement
              | "return" [ exprs ] ";"
              | "break" ";" | "continue" ";"
              | declaration | definition
              | exprs "=" exprs ";"
              | expr ";"
-/
inductive IsStmt : StmtPart → List Kind → Prop
  | struct {xs : List Kind} (h : IsStruct xs) : IsStmt .declaration (.identifier :: .colonColon ::
    xs)
  | function {xs : List Kind} (h : IsStmt .func xs) : IsStmt .declaration (.identifier ::
    .colonColon :: xs)
  | const {xs : List Kind} (h : IsExpr .expr xs) :
    IsStmt .declaration (.identifier :: .colonColon :: xs ++ [.semicolon])
  | body {xs ys zs : List Kind} (params : IsParams xs) (returns : Optional IsReturns ys)
    (h : IsStmt .block zs) : IsStmt .func (.kwFunc :: .leftParen :: xs ++ .rightParen :: ys ++ zs)
  | foreign {xs ys zs : List Kind} (params : IsParams xs) (returns : Optional IsReturns ys)
    (library : Optional (Word .string) zs) :
    IsStmt .func (.kwFunc :: .leftParen :: xs ++ .rightParen :: ys ++ .foreignDirective ::
      zs ++ [.semicolon])
  | block {xs : List Kind} (h : IsStmt .statements xs) : IsStmt .block
    (.leftBrace :: xs ++ [.rightBrace])
  | noStatement : IsStmt .statements []
  | statements {xs ys : List Kind} (h : IsStmt .statement xs) (rest : IsStmt .statements ys) :
    IsStmt .statements (xs ++ ys)
  | nested {xs : List Kind} (h : IsStmt .block xs) : IsStmt .statement xs
  | ifThen {xs ys : List Kind} (condition : IsExpr .expr xs) (h : IsStmt .statement ys)
    (apart : StandsApart ys) : IsStmt .statement (.kwIf :: xs ++ ys)
  | ifElse {xs ys zs : List Kind} (condition : IsExpr .expr xs) (h : IsStmt .statement ys)
    (apart : StandsApart ys) (alternative : IsStmt .statement zs) :
    IsStmt .statement (.kwIf :: xs ++ ys ++ .kwElse :: zs)
  | whileDo {xs ys : List Kind} (condition : IsExpr .expr xs) (h : IsStmt .statement ys)
    (apart : StandsApart ys) : IsStmt .statement (.kwWhile :: xs ++ ys)
  | deferred {xs : List Kind} (h : IsStmt .statement xs) : IsStmt .statement (.kwDefer :: xs)
  | returnNone : IsStmt .statement [.kwReturn, .semicolon]
  | returnValues {n : Nat} {xs : List Kind} (h : IsExpr (.exprs n) xs) :
    IsStmt .statement (.kwReturn :: xs ++ [.semicolon])
  | leaveLoop : IsStmt .statement [.kwBreak, .semicolon]
  | nextRound : IsStmt .statement [.kwContinue, .semicolon]
  | declared {xs : List Kind} (h : IsStmt .declaration xs) : IsStmt .statement xs
  | defined {xs : List Kind} (h : IsDefinition xs) : IsStmt .statement xs
  | assigned {m n : Nat} {xs ys : List Kind} (targets : IsExpr (.exprs m) xs)
    (values : IsExpr (.exprs n) ys) : IsStmt .statement (xs ++ .equal :: ys ++ [.semicolon])
  | evaluated {xs : List Kind} (h : IsExpr .expr xs) : IsStmt .statement (xs ++ [.semicolon])

/-! ### Files -/

/-- What a file consists of: `"#load" string ";" | declaration | definition`. -/
inductive IsItem : List Kind → Prop
  | load : IsItem [.loadDirective, .string, .semicolon]
  | declared {xs : List Kind} (h : IsStmt .declaration xs) : IsItem xs
  | defined {xs : List Kind} (h : IsDefinition xs) : IsItem xs

def IsFile : List Kind → Prop := Repeated IsItem

end MicroCompiler.Grammar
