import MicroCompiler.Proofs.Layout.Parallel

/-! Types and expressions of two layouts. -/

namespace MicroCompiler.Grammar

open Ast (NodeId)
open Production

variable {src src' : Source} {expr expr' : Production NodeId} {t t' : Token}

section

variable (hrelaid : Relaid src src')
include hrelaid

/-! ### Types -/

theorem typeExpr_parallel (depth : Nat) :
    Parallel src src' Eq (typeExpr depth) (typeExpr depth) := by
  induction depth with
  | zero => exact .stalled
  | succ depth ih =>
    refine .attempt (peek_parallel.bind fun t t' ht => ?_)
    rw [ht.kind hrelaid]
    split
    · refine (eat_parallel hrelaid).bind fun _ _ _ => ih.andThen fun pointee => ?_
      exact (spanOf_parallel pointee).bind fun _ _ hinner => alloc_parallel (.plain rfl)
        ⟨ht.starts, hinner.2⟩
    · exact (eat_parallel hrelaid).bind fun _ _ _ => alloc_parallel (.namedType
        (ht.text hrelaid)) ht.spans
    · exact unexpected_parallel hrelaid ht _ _

theorem atType_parallel : Parallel src src' Eq atType atType :=
  peek_parallel.bind fun t t' ht => .pure (by rw [ht.kind hrelaid])

/-! ### Operands -/

theorem number_parallel (ht : Twins src src' t t') :
    Parallel src src' Eq (number t) (number t') := by
  refine (textOf_parallel (ht.text hrelaid)).andThen fun text => ?_
  split
  · exact .pure rfl
  · exact .fail ⟨rfl, rfl, ht.coverSame⟩

section

variable (hexpr : Parallel src src' Eq expr expr')

include hexpr

theorem primary_parallel : Parallel src src' Eq (primary expr) (primary expr') := by
  refine .attempt (peek_parallel.bind fun t t' ht => ?_)
  have hkind := ht.kind hrelaid
  rw [hkind]
  split
  · exact (eat_parallel hrelaid).bind fun _ _ _ => alloc_parallel (.identifier
      (ht.text hrelaid)) ht.spans
  · refine (eat_parallel hrelaid).bind fun _ _ _ =>
      (number_parallel hrelaid ht).andThen fun value => ?_
    exact alloc_parallel (.plain rfl) ht.spans
  · rename_i hstring
    refine (eat_parallel hrelaid).bind fun _ _ _ => ?_
    exact alloc_parallel (.string (ht.unquoted hrelaid (hkind.trans hstring))) ht.spans
  · exact (eat_parallel hrelaid).bind fun _ _ _ => alloc_parallel (.plain rfl) ht.spans
  · refine (eat_parallel hrelaid).bind fun _ _ _ => hexpr.andThen fun inner => ?_
    refine (expect_parallel hrelaid _).bind fun close close' hclose => ?_
    have hspan : SameEnds src src' ⟨t.span.start, close.span.stop⟩ ⟨t'.span.start,
        close'.span.stop⟩ :=
      ⟨ht.starts, hclose.stops⟩
    refine (update_parallel inner fun n n' hn => ?_).bind fun _ _ _ => .pure rfl
    exact ⟨⟨hn.kind, by rw [hn.flags], hn.serial⟩, hspan⟩
  · exact unexpected_parallel hrelaid ht _ _

theorem expressions_parallel (rounds : Nat) :
    Parallel src src' Eq (expressions expr rounds) (expressions expr' rounds) :=
  .attempt (commaSeparated_same hrelaid hexpr rounds)

/-! ### Suffixes -/

theorem call_parallel (callee : NodeId) (rounds : Nat) :
    Parallel src src' Eq (call expr callee rounds) (call expr' callee rounds) := by
  have harguments : Parallel src src' Eq (arguments expr rounds) (arguments expr' rounds) := by
    refine (check_parallel hrelaid _).andThen fun closes => ?_
    split_ifs
    · exact .pure rfl
    · exact expressions_parallel hrelaid hexpr rounds
  refine .attempt ((expect_parallel hrelaid _).bind fun _ _ _ => harguments.andThen fun args => ?_)
  refine (expect_parallel hrelaid _).bind fun close close' hclose =>
    (allocList_parallel args).andThen fun range => ?_
  exact (spanOf_parallel callee).bind fun _ _ hhead => alloc_parallel (.plain rfl)
    ⟨hhead.1, hclose.stops⟩

theorem subscript_parallel (container : NodeId) :
    Parallel src src' Eq (subscript expr container) (subscript expr' container) := by
  refine (spanOf_parallel container).bind fun _ _ hhead =>
    (eat_parallel hrelaid).bind fun _ _ _ => ?_
  refine hexpr.andThen fun index => ?_
  exact (expect_parallel hrelaid _).bind fun _ _ hclose => alloc_parallel (.plain rfl)
    ⟨hhead.1, hclose.stops⟩

end

theorem selection_parallel (operand : NodeId) (rounds : Nat) :
    Parallel src src' Eq (selection operand rounds) (selection operand rounds) := by
  refine (spanOf_parallel operand).bind fun _ _ hhead => (eat_parallel hrelaid).bind fun _ _ _ => ?_
  refine (eatIf_parallel hrelaid _).bind ?_
  rintro _ _ (_ | _)
  · refine (typeExpr_parallel hrelaid rounds).andThen fun type => ?_
    exact (expect_parallel hrelaid _).bind fun _ _ hclose => alloc_parallel (.plain rfl)
      ⟨hhead.1, hclose.stops⟩
  · refine (expectAs_parallel hrelaid _ _).bind fun _ _ hname => ?_
    exact alloc_parallel (.member _ (hname.text hrelaid)) ⟨hhead.1, hname.stops⟩

theorem suffixes_parallel (hexpr : Parallel src src' Eq expr expr') (operand : NodeId)
    (rounds : Nat) :
    Parallel src src' Eq (suffixes expr operand rounds) (suffixes expr' operand rounds) := by
  induction rounds generalizing operand with
  | zero => exact .stalled
  | succ rounds ih =>
    refine peek_parallel.bind fun t t' ht => ?_
    rw [ht.kind hrelaid]
    split
    · exact (call_parallel hrelaid hexpr operand _).andThen ih
    · exact (subscript_parallel hrelaid hexpr operand).andThen ih
    · exact (selection_parallel hrelaid operand _).andThen ih
    · exact .pure rfl

/-! ### Operators -/

theorem unary_parallel (hexpr : Parallel src src' Eq expr expr') (rounds depth : Nat) :
    Parallel src src' Eq (unary expr rounds depth) (unary expr' rounds depth) := by
  induction depth with
  | zero => exact .stalled
  | succ depth ih =>
    refine .attempt (peek_parallel.bind fun t t' ht => ?_)
    rw [ht.kind hrelaid]
    split
    · refine (primary_parallel hrelaid hexpr).andThen fun operand => ?_
      exact suffixes_parallel hrelaid hexpr operand rounds
    · refine (eat_parallel hrelaid).bind fun _ _ _ => ih.andThen fun operand => ?_
      exact (spanOf_parallel operand).bind fun _ _ hinner => alloc_parallel (.plain rfl)
        ⟨ht.starts, hinner.2⟩

theorem binaryTail_parallel {operand operand' : Production NodeId}
    (hoperand : Parallel src src' Eq operand operand')
    (left : NodeId) (rounds : Nat) :
    Parallel src src' Eq (binaryTail operand left rounds) (binaryTail operand' left rounds) := by
  induction rounds generalizing left with
  | zero => exact .stalled
  | succ rounds ih =>
    refine peek_parallel.bind fun t t' ht => ?_
    rw [ht.kind hrelaid]
    split
    · exact .pure rfl
    · refine (eat_parallel hrelaid).bind fun _ _ _ => hoperand.andThen fun right => ?_
      refine (attach_parallel hrelaid left _ right).andThen fun joined => ?_
      exact ih joined

theorem expression_parallel (depth : Nat) :
    Parallel src src' Eq (expression depth) (expression depth) := by
  induction depth with
  | zero => exact .stalled
  | succ depth ih =>
    have hoperand := unary_parallel hrelaid ih (depth + 1) (depth + 1)
    refine .attempt (hoperand.andThen fun left => ?_)
    exact binaryTail_parallel hrelaid hoperand left (depth + 1)

end

end MicroCompiler.Grammar
