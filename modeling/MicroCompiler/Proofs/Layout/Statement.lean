import MicroCompiler.Proofs.Grammar.Steps
import MicroCompiler.Proofs.Layout.Declaration

/-! Statements and whole texts of two layouts. The parser sees tokens and not how they are laid out:
sources with the same tokens lead to the same tree, node by node, or to the same complaint about the
same tokens. -/

namespace MicroCompiler.Grammar

open Ast (NodeId NodeKind)
open Production

variable {src src' : Source} {inner inner' : Production NodeId}

section

variable (hrelaid : Relaid src src')
include hrelaid

/-! ### Statements -/

section

variable (hinner : Parallel src src' Eq inner inner')

include hinner

theorem block_parallel (rounds : Nat) :
    Parallel src src' Eq (block inner rounds) (block inner' rounds) := by
  refine .attempt ((expect_parallel hrelaid _).bind fun brace brace' hbrace => ?_)
  refine (manyUntil_parallel hrelaid hinner _ rounds).andThen fun statements => ?_
  refine (eat_parallel hrelaid).bind fun close close' hclose =>
    (allocList_parallel statements).andThen fun range => ?_
  exact alloc_parallel (.plain rfl) ⟨hbrace.starts, hclose.stops⟩

theorem alternative_parallel : Parallel src src' Eq (alternative inner) (alternative inner') := by
  refine (eatIf_parallel hrelaid _).bind ?_
  rintro _ _ (_ | _)
  · refine hinner.andThen fun id => ?_
    exact .pure rfl
  · exact .pure rfl

theorem ifStatement_parallel (rounds : Nat) :
    Parallel src src' Eq (ifStatement inner rounds) (ifStatement inner' rounds) := by
  refine .attempt ((expect_parallel hrelaid _).bind fun keyword keyword' hkeyword => ?_)
  refine (expression_parallel hrelaid rounds).andThen fun condition => ?_
  refine hinner.andThen fun consequent => ?_
  refine (alternative_parallel hrelaid hinner).andThen fun alternative => ?_
  exact (spanOf_parallel _).bind fun _ _ hlast => alloc_parallel (.plain rfl)
    ⟨hkeyword.starts, hlast.2⟩

theorem whileStatement_parallel (rounds : Nat) :
    Parallel src src' Eq (whileStatement inner rounds) (whileStatement inner' rounds) := by
  refine .attempt ((expect_parallel hrelaid _).bind fun keyword keyword' hkeyword => ?_)
  refine (expression_parallel hrelaid rounds).andThen fun condition => ?_
  refine hinner.andThen fun body => ?_
  exact (spanOf_parallel body).bind fun _ _ hlast => alloc_parallel (.plain rfl)
    ⟨hkeyword.starts, hlast.2⟩

theorem deferStatement_parallel :
    Parallel src src' Eq (deferStatement inner) (deferStatement inner') := by
  refine .attempt ((expect_parallel hrelaid _).bind fun keyword keyword' hkeyword =>
    hinner.andThen fun id => ?_)
  exact (spanOf_parallel id).bind fun _ _ hlast => alloc_parallel (.plain rfl)
    ⟨hkeyword.starts, hlast.2⟩

end

theorem returnStatement_parallel (rounds : Nat) :
    Parallel src src' Eq (returnStatement rounds) (returnStatement rounds) := by
  have hvalues : Parallel src src' Eq (returnValues rounds) (returnValues rounds) := by
    refine (check_parallel hrelaid _).andThen fun stops => ?_
    split_ifs
    · exact .pure rfl
    · exact expressions_parallel hrelaid (expression_parallel hrelaid rounds) rounds
  refine .attempt ((expect_parallel hrelaid _).bind fun keyword keyword' hkeyword =>
    hvalues.andThen fun values => ?_)
  refine (expect_parallel hrelaid _).bind fun semi semi' hsemi =>
    (allocList_parallel values).andThen fun range => ?_
  exact alloc_parallel (.plain rfl) ⟨hkeyword.starts, hsemi.stops⟩

theorem jumpStatement_parallel {kind : NodeKind} (hkind : kind.spans = []) :
    Parallel src src' Eq (jumpStatement kind) (jumpStatement kind) := by
  refine .attempt ((eat_parallel hrelaid).bind fun keyword keyword' hkeyword => ?_)
  exact (expect_parallel hrelaid _).bind fun _ _ hsemi => alloc_parallel (.plain hkind)
    ⟨hkeyword.starts, hsemi.stops⟩

theorem assignment_parallel (rounds : Nat) :
    Parallel src src' Eq (assignment rounds) (assignment rounds) := by
  have hexprs := expressions_parallel hrelaid (expression_parallel hrelaid rounds) rounds
  refine .attempt (hexprs.andThen fun targets => ?_)
  refine (expect_parallel hrelaid _).bind fun _ _ _ => hexprs.andThen fun values => ?_
  refine (expect_parallel hrelaid _).bind fun semi semi' hsemi => ?_
  have hstart : Parallel src src' (SameStart src src') (startOf targets semi.span.start)
      (startOf targets semi'.span.start) := by
    cases targets with
    | nil => exact .pure hsemi.starts
    | cons first rest => exact (spanOf_parallel first).bind fun _ _ hspan => .pure hspan.1
  refine hstart.bind fun start start' hstart =>
    (allocList_parallel targets).andThen fun targets => ?_
  refine (allocList_parallel values).andThen fun values => ?_
  exact alloc_parallel (.plain rfl) ⟨hstart, hsemi.stops⟩

theorem expressionStatement_parallel (rounds : Nat) :
    Parallel src src' Eq (expressionStatement rounds) (expressionStatement rounds) := by
  refine .attempt ((expression_parallel hrelaid rounds).andThen fun expr => ?_)
  refine (expect_parallel hrelaid _).bind fun semi semi' hsemi => ?_
  exact (spanOf_parallel expr).bind fun _ _ hhead => alloc_parallel (.plain rfl)
    ⟨hhead.1, hsemi.stops⟩

theorem statementOf_parallel (hinner : Parallel src src' Eq inner inner') (rounds : Nat) :
    Parallel src src' Eq (statementOf inner rounds) (statementOf inner' rounds) := by
  refine peek_parallel.bind fun start start' hstart => ?_
  rw [hstart.kind hrelaid]
  split
  · exact block_parallel hrelaid hinner rounds
  · exact ifStatement_parallel hrelaid hinner rounds
  · exact whileStatement_parallel hrelaid hinner rounds
  · exact deferStatement_parallel hrelaid hinner
  · exact returnStatement_parallel hrelaid rounds
  · exact jumpStatement_parallel hrelaid rfl
  · exact jumpStatement_parallel hrelaid rfl
  · exact definition_parallel hrelaid rounds
  · refine .orUnexpected hrelaid ?_ hstart _ _
    apply Parallel.firstOf hrelaid (declaration_parallel hrelaid
      (block_parallel hrelaid hinner rounds) rounds)
    exact .cons (definition_parallel hrelaid rounds)
      (.cons (assignment_parallel hrelaid rounds) (.cons (expressionStatement_parallel
      hrelaid rounds) .nil))

theorem statement_parallel (depth : Nat) :
    Parallel src src' Eq (statement depth) (statement depth) := by
  induction depth with
  | zero => exact .stalled
  | succ depth ih => exact statementOf_parallel hrelaid ih (depth + 1)

/-! ### Whole texts -/

theorem loadDirective_parallel : Parallel src src' Eq loadDirective loadDirective := by
  refine .attempt ((expect_parallel hrelaid _).bind fun directive directive' hdirective => ?_)
  refine (expectString_parallel hrelaid).bind fun path path' hpath => ?_
  refine (expect_parallel hrelaid _).bind fun semi semi' hsemi => ?_
  exact alloc_parallel (.load (hpath.1.unquoted hrelaid hpath.2)) ⟨hdirective.starts, hsemi.stops⟩

theorem topLevel_parallel (rounds : Nat) :
    Parallel src src' Eq (topLevel rounds) (topLevel rounds) := by
  refine peek_parallel.bind fun start start' hstart => ?_
  rw [hstart.kind hrelaid]
  split
  · exact loadDirective_parallel hrelaid
  · have hblock := block_parallel hrelaid (statement_parallel hrelaid rounds) rounds
    refine .orUnexpected hrelaid ?_ hstart _ _
    apply Parallel.firstOf hrelaid (declaration_parallel hrelaid hblock rounds)
    exact .cons (definition_parallel hrelaid rounds) .nil

theorem wholeExpression_parallel (rounds : Nat) :
    Parallel src src' Eq (wholeExpression rounds) (wholeExpression rounds) := by
  refine (expression_parallel hrelaid rounds).andThen fun root => ?_
  exact (expect_parallel hrelaid _).bind fun _ _ _ => .pure rfl

end

end MicroCompiler.Grammar
