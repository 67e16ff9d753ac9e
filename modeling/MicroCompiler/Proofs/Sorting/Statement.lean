import MicroCompiler.Proofs.Grammar.Tree
import MicroCompiler.Proofs.Sorting.Declaration

/-! Statements and files are well-sorted, and so every tree of a file is. The pool of a file starts
empty, and behind the last declaration no node waits for its name. -/

namespace MicroCompiler.Grammar

open Ast (NodeId NodeKind Pool)
open Ast.Pool (wellSorted_plain)

open Production

variable {src : Source} {fileIndex : Nat} {parsed : Parsed} {inner : Production NodeId}

/-! ### Statements with a keyword -/

section

variable (hinner : Makes src inner .statement)

include hinner

theorem block_makes (rounds : Nat) : Makes src (block inner rounds) .block := by
  refine .of_from fun q => .attempt (Idle.expectAs.bind fun brace _ => ?_)
  refine (manyUntil_sorts hinner .rightBrace rounds).bind fun ids q₁ _ hids =>
    Idle.eat.bind fun close _ => ?_
  refine (EnsuresFrom.allocList hids).bind fun statements q₂ _ hlists => ?_
  exact .alloc rfl (wellSorted_plain rfl (by simp) (by simpa using hlists))

theorem alternative_sorts : Sorts src (alternative inner) fun q slot => ∀ id ∈ slot,
    q.Is id .statement := by
  refine .of_from fun q => Idle.eatIf.bind fun keyword _ => ?_
  split
  · exact hinner.bind fun id r _ hid => .pure (by simpa using hid)
  · exact .pure (by simp)

theorem ifStatement_makes (rounds : Nat) : Makes src (ifStatement inner rounds) .statement := by
  refine .of_from fun q => .attempt (Idle.expectAs.bind fun keyword _ => ?_)
  refine (expression_makes rounds).bind fun condition q₁ _ hcondition => ?_
  refine hinner.bind fun consequent q₂ h₂ hconsequent => ?_
  refine (alternative_sorts hinner).bind fun other q₃ h₃ hother => Idle.spanOf.bind fun _ _ => ?_
  refine .alloc rfl (wellSorted_plain rfl ?_ (by simp))
  simpa using ⟨(h₂.trans h₃).is hcondition, h₃.is hconsequent, hother⟩

theorem whileStatement_makes (rounds : Nat) :
    Makes src (whileStatement inner rounds) .statement := by
  refine .of_from fun q => .attempt (Idle.expectAs.bind fun keyword _ => ?_)
  refine (expression_makes rounds).bind fun condition q₁ _ hcondition => ?_
  refine hinner.bind fun body q₂ h₂ hbody => Idle.spanOf.bind fun _ _ => ?_
  exact .alloc rfl (wellSorted_plain rfl (by simpa using ⟨h₂.is hcondition, hbody⟩) (by simp))

theorem deferStatement_makes : Makes src (deferStatement inner) .statement := by
  refine .of_from fun q => .attempt (Idle.expectAs.bind fun keyword _ => ?_)
  refine hinner.bind fun statement q₁ _ hstatement => Idle.spanOf.bind fun _ _ => ?_
  exact .alloc rfl (wellSorted_plain rfl (by simpa using hstatement) (by simp))

end

theorem returnStatement_makes (rounds : Nat) : Makes src (returnStatement rounds) .statement := by
  refine .of_from fun q => .attempt (Idle.expectAs.bind fun keyword _ => ?_)
  refine (optional_sorts (expression_makes rounds) .semicolon rounds).bind fun ids q₁ _ hids => ?_
  refine Idle.expectAs.bind fun semi _ => (EnsuresFrom.allocList hids).bind
    fun values q₂ _ hlists => ?_
  exact .alloc rfl (wellSorted_plain rfl (by simp) (by simpa using hlists))

theorem jumpStatement_makes {kind : NodeKind} (hw : ∀ q : Pool, q.WellSorted kind {})
    (hkind : kind.isNamed && .statement ∈ kind.categories) :
    Makes src (jumpStatement kind) .statement :=
  .of_from fun q => .attempt (Idle.eat.bind fun _ _ => Idle.expectAs.bind fun _ _ =>
  .alloc hkind (hw q))

/-! ### Statements that start with an expression -/

theorem Idle.startOf {ids : List NodeId} {otherwise : Nat} :
    Idle src (startOf ids otherwise) fun _ => True :=
  fun _ t _ h => (ensures_startOf h).mono fun _ _ h' => ⟨trivial, t, h'.1⟩

theorem assignment_makes (rounds : Nat) : Makes src (assignment rounds) .statement := by
  have hexprs := expressions_sorts (@expression_makes src rounds) rounds
  refine .of_from fun q => .attempt (hexprs.bind fun ids q₁ _ hids =>
    Idle.expectAs.bind fun _ _ => ?_)
  refine hexprs.bind fun ids' q₂ h₂ hids' => Idle.expectAs.bind fun semi _ =>
    Idle.startOf.bind fun start _ => ?_
  refine (EnsuresFrom.allocList fun id hid => h₂.is (hids id hid)).bind
    fun targets q₃ h₃ htargets => ?_
  refine (EnsuresFrom.allocList fun id hid => h₃.is (hids' id hid)).bind
    fun values q₄ h₄ hvalues => ?_
  refine .alloc rfl (wellSorted_plain rfl (by simp) ?_)
  simpa using ⟨h₄.lists_is htargets, hvalues⟩

theorem expressionStatement_makes (rounds : Nat) :
    Makes src (expressionStatement rounds) .statement := by
  refine .of_from fun q => .attempt ((expression_makes rounds).bind fun expr q₁ _ hexpr => ?_)
  refine Idle.expectAs.bind fun semi _ => Idle.spanOf.bind fun _ _ => ?_
  exact .alloc rfl (wellSorted_plain rfl (by simpa using hexpr) (by simp))

/-! ### Statements and files -/

theorem statement_makes (depth : Nat) : Makes src (statement depth) .statement := by
  induction depth with
  | zero => exact .of_from fun _ => .stalled
  | succ depth ih =>
    have hblock := block_makes ih (depth + 1)
    have hdefinition : Makes src (definition (depth + 1)) .statement :=
      (definition_makes _).mono fun _ _ ⟨n, hn, hc⟩ => ⟨n, hn, (NodeKind.of_definition hc).2⟩
    have hothers :
      Makes src (firstOf [declaration (block (statement depth) (depth + 1)) (depth + 1),
        definition (depth + 1), assignment (depth + 1), expressionStatement (depth + 1)])
          .statement := by
      apply firstOf_sorts
      · simp only [List.forall_mem_cons]
        exact ⟨declaration_undoes _ _ _, definition_undoes _, assignment_undoes _,
          expressionStatement_undoes _, by simp⟩
      · simp only [List.forall_mem_cons]
        exact ⟨(declaration_sorts hblock (function_undoes _ _ _)).mono fun _ _ hboth => hboth.2,
          hdefinition, assignment_makes _, expressionStatement_makes _, by simp⟩
    refine .of_from fun q => Idle.peek.bind fun t _ => ?_
    split
    · exact (hblock.mono fun _ _ ⟨n, hn, hc⟩ => ⟨n, hn, NodeKind.statement_of_block hc⟩).from
    · exact (ifStatement_makes ih _).from
    · exact (whileStatement_makes ih _).from
    · exact (deferStatement_makes ih).from
    · exact (returnStatement_makes _).from
    · exact (jumpStatement_makes (fun _ => wellSorted_plain rfl (by simp) (by simp)) rfl).from
    · exact (jumpStatement_makes (fun _ => wellSorted_plain rfl (by simp) (by simp)) rfl).from
    · exact hdefinition.from
    · exact .orUnexpected hothers.from

theorem loadDirective_makes : Makes src loadDirective .item :=
  .of_from fun _ => .attempt (Idle.expectAs.bind fun _ _ => Idle.expectAs.bind fun _ _ =>
    Idle.expectAs.bind fun _ _ =>
    .alloc rfl (wellSorted_plain rfl (by simp) (by simp)))

theorem topLevel_makes (rounds : Nat) : Makes src (topLevel rounds) .item := by
  have hblock : Makes src (block (statement rounds) rounds) .block :=
    block_makes (statement_makes rounds) rounds
  have hothers : Makes src (firstOf [declaration (block (statement rounds) rounds) rounds,
    definition rounds])
      .item := by
    apply firstOf_sorts
    · simp only [List.forall_mem_cons]
      exact ⟨declaration_undoes _ _ _, definition_undoes _, by simp⟩
    · simp only [List.forall_mem_cons]
      exact ⟨(declaration_sorts hblock (function_undoes _ _ _)).mono fun _ _ hboth => hboth.1,
        (definition_makes _).mono fun _ _ ⟨n, hn, hc⟩ =>
        ⟨n, hn, (NodeKind.of_definition hc).1⟩, by simp⟩
  refine .of_from fun q => Idle.peek.bind fun t _ => ?_
  split
  · exact loadDirective_makes.from
  · exact .orUnexpected hothers.from

/-- The root of a file is a file node. -/
theorem file_sorts (size rounds : Nat) : Sorts src (file size rounds) fun q root =>
    ∃ n declarations, q.nodes[root.index]? = some n ∧ n.kind = .file declarations := by
  refine .of_from fun q => .attempt ((manyUntil_sorts (topLevel_makes rounds) .eof rounds).bind
    fun ids q₁ _ hids => ?_)
  refine (EnsuresFrom.allocList hids).bind fun declarations q₂ _ hlists => ?_
  intro st t h hsorted
  refine (ensures_alloc h).mono ?_
  rintro _ st' ⟨rfl, h'⟩
  have hw : q₂.WellSorted (.file declarations) {} :=
    wellSorted_plain rfl (by simp) (by simpa using hlists)
  exact ⟨t, _, h', hsorted.alloc _ hw (by simp), .of_extends (.alloc q₂ _ _), _, declarations,
    q₂.alloc_node _ _, rfl⟩

/-- In the tree of a file every place holds what it should. -/
theorem parsed_wellSorted (h : parseFile src fileIndex = .ok parsed) :
    (∃ n declarations, parsed.pool.nodes[parsed.root.index]? = some n ∧
      n.kind = .file declarations) ∧ ∀ (id : NodeId) n, parsed.pool.nodes[id.index]? = some n →
        parsed.pool.WellSorted n.kind n.flags ∧ n.kind.isNamed = true := by
  obtain ⟨st, hfile, hpool⟩ := run_eq_ok h
  have hempty : (Pool.empty fileIndex).Sorted [] := by
    intro id n hn
    simp [Pool.empty] at hn
  obtain ⟨t, q, hstands, hsorted, -, hroot⟩ := file_sorts _ _ (.start src _) hempty _ _ hfile
  rw [← hpool, hstands.pool]
  refine ⟨hroot, fun id n hn => ?_⟩
  obtain ⟨hw, hnamed⟩ := hsorted id n hn
  exact ⟨hw, hnamed (by simp)⟩

/-- A struct, a foreign function that takes any number of arguments, and a function with a group of
variables. -/
theorem parsed_wellSorted_kinds : ∃ parsed,
    parseFile
      (.ofString "S::struct{a:int;}f::func(x:*int,...)#foreign \"c\";g::func(){i,j:=(1+2),3;}") 0 =
      .ok parsed ∧ parsed.pool.size = 18 ∧
      (∃ n declarations, parsed.pool.nodes[parsed.root.index]? = some n ∧
        n.kind = .file declarations) ∧
      ∀ (id : NodeId) n, parsed.pool.nodes[id.index]? = some n →
        parsed.pool.WellSorted n.kind n.flags ∧ n.kind.isNamed = true := by
  have hsize :
    (parseFile
      (.ofString "S::struct{a:int;}f::func(x:*int,...)#foreign \"c\";g::func(){i,j:=(1+2),3;}")
      0).toOption.map (·.pool.size) = some 18 := by
    decide +kernel
  obtain ⟨parsed, hparsed, hnodes⟩ := Option.map_eq_some_iff.mp hsize
  rw [toOption_eq_some] at hparsed
  exact ⟨parsed, hparsed, hnodes, parsed_wellSorted hparsed⟩

end MicroCompiler.Grammar
