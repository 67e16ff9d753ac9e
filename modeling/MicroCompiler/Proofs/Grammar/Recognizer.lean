import MicroCompiler.Proofs.Grammar.Phrase

/-! A recognizer of expressions. It reads one token after the other, never goes back, and knows no
more than the brackets that are open and what may come next. It is stuck just when no expression
with the end of the file behind it begins with the tokens read so far, and it is done just when they
are such an expression. -/

namespace MicroCompiler.Grammar

open Ast (BinaryOp UnaryOp)
open Token (Kind)

/-- What is open around an expression: parentheses, the arguments of a call, or a subscript. -/
inductive Bracket where
  | group | call | index
  deriving DecidableEq, Repr

/-- What may come next. Where a suffix may come, so may an operator or the end of the expression.
The recognizer is never in the modes `operator` and `close` itself; they are what `suffix` comes to
once the next token is known to be no suffix, or neither a suffix nor an operator. -/
inductive Mode where
  | operand | suffix | operator | close | argument | selection | type | typeEnd | done
  deriving DecidableEq, Repr

structure Recognizer where
  mode : Mode
  opened : List Bracket
  deriving DecidableEq, Repr

namespace Recognizer

def start : Recognizer := ⟨.operand, []⟩

/-! ### Steps -/

def stepOperand (opened : List Bracket) (k : Kind) : Option Recognizer :=
  if (UnaryOp.ofToken? k).isSome then some ⟨.operand, opened⟩
  else if isAtom k then some ⟨.suffix, opened⟩
  else if k = .leftParen then some ⟨.operand, .group :: opened⟩
  else none

def stepClose : List Bracket → Kind → Option Recognizer
  | [], .eof => some ⟨.done, []⟩
  | .group :: opened, .rightParen => some ⟨.suffix, opened⟩
  | .index :: opened, .rightBracket => some ⟨.suffix, opened⟩
  | .call :: opened, .rightParen => some ⟨.suffix, opened⟩
  | .call :: opened, .comma => some ⟨.operand, .call :: opened⟩
  | _, _ => none

def stepOperator (opened : List Bracket) (k : Kind) : Option Recognizer :=
  if (BinaryOp.ofToken? k).isSome then some ⟨.operand, opened⟩ else stepClose opened k

def stepSuffix (opened : List Bracket) : Kind → Option Recognizer
  | .leftParen => some ⟨.argument, opened⟩
  | .leftBracket => some ⟨.operand, .index :: opened⟩
  | .dot => some ⟨.selection, opened⟩
  | k => stepOperator opened k

def step (r : Recognizer) (k : Kind) : Option Recognizer :=
  match r.mode with
  | .operand => stepOperand r.opened k
  | .suffix => stepSuffix r.opened k
  | .operator => stepOperator r.opened k
  | .close => stepClose r.opened k
  | .argument =>
    if k = .rightParen then some ⟨.suffix, r.opened⟩ else stepOperand (.call :: r.opened) k
  | .selection =>
    if k = .identifier then some ⟨.suffix, r.opened⟩ else if k = .leftParen then some ⟨.type,
      r.opened⟩ else none
  | .type =>
    if k = .identifier then some ⟨.typeEnd, r.opened⟩ else if k = .star then some r else none
  | .typeEnd => if k = .rightParen then some ⟨.suffix, r.opened⟩ else none
  | .done => none

def run (r : Recognizer) (ks : List Kind) : Option Recognizer := ks.foldlM step r

variable {r r' : Recognizer} {opened : List Bracket} {k : Kind} {xs ys ws ks : List Kind}

@[simp] theorem run_nil (r : Recognizer) : r.run [] = some r := rfl

@[simp] theorem run_cons (r : Recognizer) (k : Kind) (ks : List Kind) :
    r.run (k :: ks) = (r.step k).bind (run · ks) := rfl

theorem run_append (r : Recognizer) (xs ys : List Kind) :
    r.run (xs ++ ys) = (r.run xs).bind (run · ys) :=
  List.foldlM_append

theorem run_step {r'' : Recognizer} (h : r.step k = some r') (hrun : r'.run ks = some r'') :
    r.run (k :: ks) = some r'' := by
  rw [run_cons, h, Option.bind_some, hrun]

theorem run_trans {r'' : Recognizer} (h : r.run xs = some r') (hrun : r'.run ys = some r'') :
    r.run (xs ++ ys) = some r'' := by
  rw [run_append, h, Option.bind_some, hrun]

/-- A malformed token fits nowhere. -/
theorem step_of_isError (r : Recognizer) (h : k.isError) : r.step k = none := by
  have hclose : stepClose r.opened k = none := by
    unfold stepClose
    split <;> first | rfl | cases h
  have hoperator : stepOperator r.opened k = none := by cases k <;> first | exact hclose | cases h
  obtain ⟨mode, opened⟩ := r
  cases mode with
  | suffix => cases k <;> first | exact hoperator | cases h
  | operator => exact hoperator
  | close => exact hclose
  | operand | argument | selection | type | typeEnd => cases k <;> first | rfl | cases h
  | done => rfl

theorem isError_of_run (h : r.run ks = some r') : ∀ k ∈ ks, k.isError = false := by
  induction ks generalizing r with
  | nil => simp
  | cons k ks ih =>
    obtain ⟨r₁, hstep, hrun⟩ := Option.bind_eq_some_iff.mp h
    have hk : k.isError = false := by
      by_contra hk
      rw [r.step_of_isError (by simpa using hk)] at hstep
      cases hstep
    simpa using ⟨hk, ih hrun⟩

theorem step_operand_eq_none (hunary : UnaryOp.ofToken? k = none) (hatom : isAtom k = false)
    (hparen : k ≠ .leftParen) : step ⟨.operand, opened⟩ k = none := by
  simp [step, stepOperand, hunary, hatom, hparen]

theorem step_suffix (hparen : k ≠ .leftParen) (hbracket : k ≠ .leftBracket) (hdot : k ≠ .dot) :
    step ⟨.suffix, opened⟩ k = step ⟨.operator, opened⟩ k := by
  simp only [step, stepSuffix]

theorem step_operator (h : BinaryOp.ofToken? k = none) :
    step ⟨.operator, opened⟩ k = step ⟨.close, opened⟩ k := by
  simp [step, stepOperator, h]

theorem step_operator_token (opened : List Bracket) (op : BinaryOp) :
    step ⟨.operator, opened⟩ op.token = some ⟨.operand, opened⟩ := by
  simp [step, stepOperator, op.ofToken?_token]

theorem step_close_nil_eq_none (h : k ≠ .eof) : step ⟨.close, []⟩ k = none := by
  cases k <;> first | rfl | contradiction

theorem step_close_group_eq_none (h : k ≠ .rightParen) :
    step ⟨.close, .group :: opened⟩ k = none := by
  cases k <;> first | rfl | contradiction

theorem step_close_index_eq_none (h : k ≠ .rightBracket) :
    step ⟨.close, .index :: opened⟩ k = none := by
  cases k <;> first | rfl | contradiction

/-- Without a comma the arguments end like an expression in parentheses. -/
theorem step_close_call (h : k ≠ .comma) :
    step ⟨.close, .call :: opened⟩ k = step ⟨.close, .group :: opened⟩ k := by
  cases k <;> first | rfl | contradiction

theorem step_argument (h : k ≠ .rightParen) :
    step ⟨.argument, opened⟩ k = step ⟨.operand, .call :: opened⟩ k := if_neg h

theorem step_selection_eq_none (hname : k ≠ .identifier) (hparen : k ≠ .leftParen) :
    step ⟨.selection, opened⟩ k = none :=
  (if_neg hname).trans (if_neg hparen)

theorem step_type_eq_none (hname : k ≠ .identifier) (hstar : k ≠ .star) :
    step ⟨.type, opened⟩ k = none :=
  (if_neg hname).trans (if_neg hstar)

theorem step_typeEnd_eq_none (h : k ≠ .rightParen) : step ⟨.typeEnd, opened⟩ k = none := if_neg h

/-! ### Phrases are read to their end -/

theorem step_binary (opened : List Bracket) (op : BinaryOp) :
    step ⟨.suffix, opened⟩ op.token = some ⟨.operand, opened⟩ := by
  cases op <;> rfl

theorem step_unary (opened : List Bracket) (op : UnaryOp) :
    step ⟨.operand, opened⟩ op.token = some ⟨.operand, opened⟩ := by
  cases op <;> rfl

theorem step_atom (opened : List Bracket) (h : isAtom k) :
    step ⟨.operand, opened⟩ k = some ⟨.suffix, opened⟩ := by
  cases k <;> first | rfl | cases h

/-- The first argument of a call is read like any operand. -/
theorem run_argument (h : run ⟨.operand, .call :: opened⟩ xs = some ⟨.suffix, .call :: opened⟩) :
    run ⟨.argument, opened⟩ xs = some ⟨.suffix, .call :: opened⟩ := by
  cases xs with
  | nil => simp at h
  | cons k xs =>
    have hk : k ≠ .rightParen := by
      rintro rfl
      cases h
    rwa [run_cons, step_argument hk]

theorem run_type (opened : List Bracket) (h : IsType xs) :
    run ⟨.type, opened⟩ xs = some ⟨.typeEnd, opened⟩ := by
  induction h with
  | name => rfl
  | pointer _ ih => exact ih

end Recognizer

/-- What may come in front of a phrase. -/
def ExprPart.mode : ExprPart → Mode
  | .expr | .unary | .primary | .exprs _ => .operand
  | .operands | .suffix | .suffixes => .suffix

/-- What is open in a phrase. A list of expressions stands in a call. -/
def ExprPart.opened (outer : List Bracket) : ExprPart → List Bracket
  | .exprs _ => .call :: outer
  | _ => outer

namespace Recognizer

variable {r r' : Recognizer} {opened : List Bracket} {k : Kind} {xs ys ws ks : List Kind}

/-- A phrase is read to its end, where the brackets in it are closed again. -/
theorem run_phrase {part : ExprPart} (h : IsExpr part xs) (outer : List Bracket) :
    run ⟨part.mode, part.opened outer⟩ xs = some ⟨.suffix, part.opened outer⟩ := by
  induction h generalizing outer with
  | expr _ _ ih ihrest | postfixed _ _ ih ihrest | suffixes _ _ ih ihrest =>
    exact run_trans (ih outer) (ihrest outer)
  | noOperand | noSuffix | callNone | member => rfl
  | operand op _ _ ih ihrest =>
    exact run_step (step_binary outer op) (run_trans (ih outer) (ihrest outer))
  | prefixed op _ ih => exact run_step (step_unary outer op) (ih outer)
  | call _ ih => exact run_step rfl (run_trans (run_argument (ih outer)) rfl)
  | subscript _ ih => exact run_step rfl (run_trans (ih (.index :: outer)) rfl)
  | cast h => exact run_step rfl (run_step rfl (run_trans (run_type outer h) rfl))
  | atom h => exact run_step (step_atom outer h) rfl
  | parens _ ih => exact run_step rfl (run_trans (ih (.group :: outer)) rfl)
  | oneExpr _ ih => exact ih (.call :: outer)
  | moreExprs _ _ ih ihrest => exact run_trans (ih (.call :: outer)) (run_step rfl (ihrest outer))

end Recognizer

/-! ### What is missing -/

/-- What closes a bracket. Further arguments of a call may come before. -/
inductive Bracket.Closes : Bracket → List Kind → Prop
  | group : Closes .group [.rightParen]
  | index : Closes .index [.rightBracket]
  | call : Closes .call [.rightParen]
  | more {n : Nat} {xs : List Kind} (h : IsExpr (.exprs n) xs) : Closes .call
    (.comma :: xs ++ [.rightParen])

/-- What makes an expression and the end of the file of what has been read. -/
inductive Completes : Mode → List Bracket → List Kind → Prop
  | done {opened : List Bracket} : Completes .done opened []
  | eof : Completes .close [] [.eof]
  | closes {b : Bracket} {opened : List Bracket} {xs ws : List Kind} (hxs : b.Closes xs)
    (h : Completes .suffix opened ws) : Completes .close (b :: opened) (xs ++ ws)
  | operands {opened : List Bracket} {xs ws : List Kind} (hxs : IsExpr .operands xs)
    (h : Completes .close opened ws) : Completes .operator opened (xs ++ ws)
  | suffixes {opened : List Bracket} {xs ws : List Kind} (hxs : IsExpr .suffixes xs)
    (h : Completes .operator opened ws) : Completes .suffix opened (xs ++ ws)
  | operand {opened : List Bracket} {xs ws : List Kind} (hxs : IsExpr .unary xs)
    (h : Completes .operator opened ws) : Completes .operand opened (xs ++ ws)
  | noArgument {opened : List Bracket} {ws : List Kind} (h : Completes .suffix opened ws) :
    Completes .argument opened (.rightParen :: ws)
  | argument {opened : List Bracket} {ws : List Kind} (h : Completes .operand (.call :: opened)
    ws) : Completes .argument opened ws
  | member {opened : List Bracket} {ws : List Kind} (h : Completes .suffix opened ws) :
    Completes .selection opened (.identifier :: ws)
  | cast {opened : List Bracket} {ws : List Kind} (h : Completes .type opened ws) :
    Completes .selection opened (.leftParen :: ws)
  | type {opened : List Bracket} {xs ws : List Kind} (hxs : IsType xs) (h : Completes .typeEnd
    opened ws) : Completes .type opened (xs ++ ws)
  | typeEnd {opened : List Bracket} {ws : List Kind} (h : Completes .suffix opened ws) :
    Completes .typeEnd opened (.rightParen :: ws)

namespace Completes

variable {mode : Mode} {opened : List Bracket} {b : Bracket} {k : Kind} {xs ws : List Kind}

theorem suffix_of_operator (h : Completes .operator opened ws) : Completes .suffix opened ws :=
  .suffixes .noSuffix h

theorem operator_of_close (h : Completes .close opened ws) : Completes .operator opened ws :=
  .operands .noOperand h

/-- An expression, and what ends it. -/
theorem operand_iff : Completes .operand opened ws ↔
    ∃ xs rest, IsExpr .expr xs ∧ Completes .close opened rest ∧ ws = xs ++ rest := by
  constructor
  · intro h
    cases h with | operand hxs h =>
    cases h with | operands hys h =>
    exact ⟨_, _, .expr hxs hys, h, (List.append_assoc _ _ _).symm⟩
  · rintro ⟨_, rest, ⟨hxs, hys⟩, h, rfl⟩
    rw [List.append_assoc]
    exact .operand hxs (.operands hys h)

/-- An expression in a bracket, what closes the bracket, and what is missing then. -/
theorem exists_closes (h : Completes .operand (b :: opened) ws) :
    ∃ xs cs rest, IsExpr .expr xs ∧ b.Closes cs ∧ Completes .suffix opened rest ∧
    ws = xs ++ (cs ++ rest) := by
  obtain ⟨xs, _, hxs, hclose, rfl⟩ := operand_iff.mp h
  cases hclose with | closes hcs hrest => exact ⟨xs, _, _, hxs, hcs, hrest, rfl⟩

theorem prepend_suffix (hxs : IsExpr .suffix xs) (h : Completes .suffix opened ws) :
    Completes .suffix opened (xs ++ ws) := by
  cases h with | suffixes hys h =>
  rw [← List.append_assoc]
  exact .suffixes (.suffixes hxs hys) h

theorem prepend_primary (hxs : IsExpr .primary xs) (h : Completes .suffix opened ws) :
    Completes .operand opened (xs ++ ws) := by
  cases h with | suffixes hys h =>
  rw [← List.append_assoc]
  exact .operand (.postfixed hxs hys) h

theorem prepend_unary (op : UnaryOp) (h : Completes .operand opened ws) :
    Completes .operand opened (op.token :: ws) := by
  cases h with | operand hxs h => exact .operand (.prefixed op hxs) h

theorem prepend_binary (op : BinaryOp) (h : Completes .operand opened ws) :
    Completes .operator opened (op.token :: ws) := by
  cases h with | operand hxs h =>
  cases h with | operands hys h =>
  rw [← List.append_assoc]
  exact .operands (.operand op hxs hys) h

theorem prepend_group (h : Completes .operand (.group :: opened) ws) :
    Completes .operand opened (.leftParen :: ws) := by
  obtain ⟨xs, cs, rest, hxs, ⟨⟩, hrest, rfl⟩ := h.exists_closes
  simpa using prepend_primary (.parens hxs) hrest

theorem prepend_subscript (h : Completes .operand (.index :: opened) ws) :
    Completes .suffix opened (.leftBracket :: ws) := by
  obtain ⟨xs, cs, rest, hxs, ⟨⟩, hrest, rfl⟩ := h.exists_closes
  simpa using prepend_suffix (.subscript hxs) hrest

theorem prepend_call (h : Completes .argument opened ws) :
    Completes .suffix opened (.leftParen :: ws) := by
  cases h with
  | noArgument h => exact prepend_suffix .callNone h
  | argument h =>
    obtain ⟨xs, cs, rest, hxs, hcs, hrest, rfl⟩ := h.exists_closes
    cases hcs with
    | call => simpa using prepend_suffix (.call (.oneExpr hxs)) hrest
    | more hys => simpa using prepend_suffix (.call (.moreExprs hxs hys)) hrest

theorem prepend_selection (h : Completes .selection opened ws) :
    Completes .suffix opened (.dot :: ws) := by
  cases h with
  | member h => exact prepend_suffix .member h
  | cast h =>
    cases h with | type hxs h =>
    cases h with | typeEnd h =>
    simpa using prepend_suffix (.cast hxs) h

/-- After a comma, one more argument and then what the call still needs. -/
theorem prepend_comma (h : Completes .operand (.call :: opened) ws) :
    Completes .close (.call :: opened) (.comma :: ws) := by
  obtain ⟨xs, cs, rest, hxs, hcs, hrest, rfl⟩ := h.exists_closes
  cases hcs with
  | call => simpa using closes (.more (.oneExpr hxs)) hrest
  | more hys => simpa using closes (.more (.moreExprs hxs hys)) hrest

theorem prepend_star (h : Completes .type opened ws) : Completes .type opened (.star :: ws) := by
  cases h with | type hxs h => exact .type (.pointer hxs) h

end Completes

namespace Recognizer

variable {r r' : Recognizer} {opened : List Bracket} {k : Kind} {xs ws ks : List Kind}

/-- What the recognizer still has to read. -/
def Missing (r : Recognizer) (ws : List Kind) : Prop := Completes r.mode r.opened ws

theorem missing_of_stepOperand (h : stepOperand opened k = some r) (hws : r.Missing ws) :
    Completes .operand opened (k :: ws) := by
  unfold stepOperand at h
  split_ifs at h with hunary hatom hparen
  · obtain ⟨op, hop⟩ := Option.isSome_iff_exists.mp hunary
    cases h
    rw [← UnaryOp.token_of_ofToken? hop]
    exact hws.prepend_unary op
  · cases h
    exact .prepend_primary (.atom hatom) hws
  · cases h
    rw [hparen]
    exact hws.prepend_group

theorem missing_of_stepClose (h : stepClose opened k = some r) (hws : r.Missing ws) :
    Completes .close opened (k :: ws) := by
  unfold stepClose at h
  split at h
  · cases h
    cases hws with | done => exact .eof
  · cases h
    exact .closes .group hws
  · cases h
    exact .closes .index hws
  · cases h
    exact .closes .call hws
  · cases h
    exact hws.prepend_comma
  · cases h

theorem missing_of_stepOperator (h : stepOperator opened k = some r) (hws : r.Missing ws) :
    Completes .operator opened (k :: ws) := by
  unfold stepOperator at h
  split_ifs at h with hbinary
  · obtain ⟨op, hop⟩ := Option.isSome_iff_exists.mp hbinary
    cases h
    rw [← BinaryOp.token_of_ofToken? hop]
    exact hws.prepend_binary op
  · exact (missing_of_stepClose h hws).operator_of_close

theorem missing_of_stepSuffix (h : stepSuffix opened k = some r) (hws : r.Missing ws) :
    Completes .suffix opened (k :: ws) := by
  unfold stepSuffix at h
  split at h
  · cases h
    exact hws.prepend_call
  · cases h
    exact hws.prepend_subscript
  · cases h
    exact hws.prepend_selection
  · exact (missing_of_stepOperator h hws).suffix_of_operator

/-- Before a step the token is missing, and all that is missing after it. -/
theorem missing_of_step (h : r.step k = some r') (hws : r'.Missing ws) : r.Missing (k :: ws) := by
  obtain ⟨mode, opened⟩ := r
  cases mode with
  | operand => exact missing_of_stepOperand h hws
  | suffix => exact missing_of_stepSuffix h hws
  | operator => exact missing_of_stepOperator h hws
  | close => exact missing_of_stepClose h hws
  | argument =>
    simp only [step] at h
    split_ifs at h with hk
    · cases h
      rw [hk]
      exact .noArgument hws
    · exact .argument (missing_of_stepOperand h hws)
  | selection =>
    simp only [step] at h
    split_ifs at h with hk hk
    · cases h
      rw [hk]
      exact .member hws
    · cases h
      rw [hk]
      exact .cast hws
  | type =>
    simp only [step] at h
    split_ifs at h with hk hk
    · cases h
      rw [hk]
      exact .type .name hws
    · cases h
      rw [hk]
      exact hws.prepend_star
  | typeEnd =>
    simp only [step] at h
    split_ifs at h with hk
    cases h
    rw [hk]
    exact .typeEnd hws
  | done => cases h

theorem missing_of_run (h : r.run ks = some r') (hws : r'.Missing ws) : r.Missing (ks ++ ws) := by
  induction ks generalizing r with
  | nil =>
    cases h
    exact hws
  | cons k ks ih =>
    obtain ⟨r₁, hstep, hrun⟩ := Option.bind_eq_some_iff.mp h
    exact missing_of_step hstep (ih hrun)

/-- Wherever the recognizer is, the expression can still be completed. -/
theorem exists_missing (r : Recognizer) : ∃ ws, r.Missing ws := by
  obtain ⟨mode, opened⟩ := r
  have hclose : ∃ ws, Completes .close opened ws := by
    induction opened with
    | nil => exact ⟨_, .eof⟩
    | cons b opened ih =>
      obtain ⟨ws, h⟩ := ih
      have hsuffix := h.operator_of_close.suffix_of_operator
      cases b with
      | group => exact ⟨_, .closes .group hsuffix⟩
      | call => exact ⟨_, .closes .call hsuffix⟩
      | index => exact ⟨_, .closes .index hsuffix⟩
  obtain ⟨ws, h⟩ := hclose
  have hsuffix := h.operator_of_close.suffix_of_operator
  cases mode with
  | operand => exact ⟨_, hsuffix.prepend_primary (.atom (k := .kwNil) rfl)⟩
  | suffix => exact ⟨_, hsuffix⟩
  | operator => exact ⟨_, h.operator_of_close⟩
  | close => exact ⟨_, h⟩
  | argument => exact ⟨_, .noArgument hsuffix⟩
  | selection => exact ⟨_, .member hsuffix⟩
  | type => exact ⟨_, .type .name (.typeEnd hsuffix)⟩
  | typeEnd => exact ⟨_, .typeEnd hsuffix⟩
  | done => exact ⟨_, .done⟩

/-! ### What is recognized -/

theorem missing_start : start.Missing ws ↔ ∃ xs, IsExpr .expr xs ∧ ws = xs ++ [.eof] := by
  refine Completes.operand_iff.trans ⟨?_, ?_⟩
  · rintro ⟨xs, rest, hxs, ⟨⟩, rfl⟩
    exact ⟨xs, hxs, rfl⟩
  · rintro ⟨xs, hxs, rfl⟩
    exact ⟨xs, [.eof], hxs, .eof, rfl⟩

theorem run_sentence (h : IsExpr .expr xs) : start.run (xs ++ [.eof]) = some ⟨.done, []⟩ :=
  run_trans (run_phrase h []) rfl

/-- The recognizer is done behind an expression and the end of the file. -/
theorem run_eq_done_iff : (∃ opened, start.run ks = some ⟨.done, opened⟩) ↔ ∃ xs, IsExpr .expr xs ∧
    ks = xs ++ [.eof] := by
  constructor
  · rintro ⟨opened, h⟩
    have := missing_of_run h .done
    rwa [List.append_nil, missing_start] at this
  · rintro ⟨xs, h, rfl⟩
    exact ⟨[], run_sentence h⟩

/-- The recognizer is not stuck just if what it has read begins an expression and the end of the
file. -/
theorem run_isSome_iff : (start.run ks).isSome ↔ ∃ xs rest, IsExpr .expr xs ∧
    xs ++ [.eof] = ks ++ rest := by
  constructor
  · intro h
    obtain ⟨r, hr⟩ := Option.isSome_iff_exists.mp h
    obtain ⟨ws, hws⟩ := r.exists_missing
    obtain ⟨xs, hxs, hks⟩ := missing_start.mp (missing_of_run hr hws)
    exact ⟨xs, ws, hxs, hks.symm⟩
  · rintro ⟨xs, rest, hxs, hks⟩
    have hrun := run_sentence hxs
    rw [hks, run_append] at hrun
    obtain ⟨r, hr, -⟩ := Option.bind_eq_some_iff.mp hrun
    rw [hr]
    rfl

end Recognizer

end MicroCompiler.Grammar
