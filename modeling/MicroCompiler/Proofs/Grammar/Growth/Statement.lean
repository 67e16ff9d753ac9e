import MicroCompiler.Proofs.Grammar.Growth.Declaration

/-! The nodes that statements and the declarations of a file leave behind. -/

namespace MicroCompiler.Grammar

open Ast (NodeId NodeKind Pool)
open Production

variable {src : Source} {st : State} {t : Token} {pool : Pool} {inner : Production NodeId}

/-! ### Statements with a keyword -/

section

variable (hinner : Yields src inner fun id => [id])

include hinner

theorem block_yields (rounds : Nat) : Yields src (block inner rounds) fun id => [id] := by
  refine fun t pool => .attempt (.expectAs rfl fun t₁ _ hbrace hpast => manyUntil_then rounds hinner
    fun statements t₂ q hgrove hstop => .eat hstop rfl fun t₃ hclose hpast' => .allocList ?_)
  exact .closed [statements] hbrace hclose hgrove (by omega) hpast'.2 rfl (by simp) (by simp)

theorem alternative_yields : Yields src (alternative inner) fun slot => slot.toList := by
  refine fun t pool => .eatIf (fun t₁ _ hpast => ?_) (.grown (.nil src pool le_rfl))
  exact hinner.first fun _ _ _ hgrove => .grown (hgrove.weaken (by omega) le_rfl)

theorem ifStatement_yields (rounds : Nat) : Yields src (ifStatement inner rounds) fun id =>
    [id] := by
  refine fun t pool => .attempt (.expectAs rfl fun t₁ _ hkeyword hpast =>
    (expression_yields rounds).first
    fun condition t₂ q hgrove => hinner.bind hgrove fun consequent t₃ q' hgrove' _ =>
    (alternative_yields hinner).bind hgrove' fun other t₄ q'' hgrove'' _ => .spanOf fun n hn => ?_)
  cases other with
  | none =>
    rw [Option.toList_none, List.append_nil] at hgrove''
    exact .led [condition] hkeyword hgrove'' hpast.2 hn rfl rfl
  | some id =>
    exact .led [condition, consequent] hkeyword hgrove'' hpast.2 hn rfl rfl

theorem whileStatement_yields (rounds : Nat) :
    Yields src (whileStatement inner rounds) fun id => [id] := by
  refine fun t pool => .attempt (.expectAs rfl fun t₁ _ hkeyword hpast =>
    (expression_yields rounds).first
    fun condition t₂ q hgrove => hinner.bind hgrove fun body t₃ q' hgrove' _ =>
    .spanOf fun n hn => ?_)
  exact .led [condition] hkeyword hgrove' hpast.2 hn rfl rfl

theorem deferStatement_yields : Yields src (deferStatement inner) fun id => [id] := by
  refine fun t pool => .attempt (.expectAs rfl fun t₁ _ hkeyword hpast => hinner.first
    fun statement t₂ q hgrove => .spanOf fun n hn => ?_)
  exact .led [] hkeyword hgrove hpast.2 hn rfl rfl

end

theorem returnValues_yields (rounds : Nat) : Yields src (returnValues rounds) fun ids => ids := by
  refine fun t pool => .check ?_
  split
  · exact .grown (.nil src pool le_rfl)
  · exact @expressions_yields _ _ (expression_yields rounds) rounds t pool

theorem returnStatement_yields (rounds : Nat) : Yields src (returnStatement rounds) fun id =>
    [id] := by
  refine fun t pool => .attempt (.expectAs rfl fun t₁ _ hkeyword hpast =>
    (returnValues_yields rounds).first
    fun values t₂ q hgrove => .expectAs rfl fun t₃ _ hsemi hpast' => .allocList ?_)
  exact .closed [values] hkeyword hsemi hgrove (by omega) hpast'.2 rfl (by simp) (by simp)

/-- A keyword that is a statement by itself is a keyword that the caller has seen. -/
theorem jumpStatement_grows {kind : NodeKind} (hsolid : t.Solid src)
    (hkind : kind.refers? = some ([], [])) (htexts : kind.spans = []) :
    EnsuresAt src t pool (jumpStatement kind) (Grown src pool t.span.start fun id => [id]) := by
  refine .attempt (.eatAny fun t₁ hpast => .expectAs rfl fun t₂ _ hsemi hpast' => ?_)
  refine .closed [] hsolid hsemi (.nil src pool le_rfl) (by omega) hpast'.2 hkind (.refl _) ?_
  rw [htexts]
  exact fun _ hs => absurd hs List.not_mem_nil

/-! ### Statements that start with an expression -/

theorem ensures_startOf {ids : List NodeId} {otherwise : Nat} :
    EnsuresAt src t pool (startOf ids otherwise) fun start st' => Stands src st' t pool ∧
      ∀ first ∈ ids.head?, ∃ n, pool.nodes[first.index]? = some n ∧ n.span.start = start := by
  cases ids with
  | nil => exact .pure fun _ hst => ⟨hst, by simp⟩
  | cons first rest =>
    refine .spanOf fun n hn => .pure fun _ hst => ⟨hst, ?_⟩
    rintro _ ⟨⟩
    exact ⟨n, hn, rfl⟩

theorem expressions_ne_nil {expr : Production NodeId} {rounds : Nat} :
    EnsuresAt src t pool (expressions expr rounds) fun ids _ => ids ≠ [] :=
  .attempt fun _ _ => ensures_true.bind fun first _ _ => ensures_true.bind fun rest _ _ =>
    ensures_pure (List.cons_ne_nil first rest)

theorem assignment_yields (rounds : Nat) : Yields src (assignment rounds) fun id => [id] := by
  have hexprs : Yields src (expressions (expression rounds) rounds) fun ids => ids :=
    expressions_yields (expression_yields rounds) rounds
  refine fun t pool => .attempt fun st hst => ((expressions_ne_nil hst).and (hexprs hst)).bind ?_
  rintro targets st₁ ⟨hne, t₁, q, hst₁, hgrove⟩
  refine hst₁.ensures (.expectAs rfl fun t₂ _ _ hpast =>
    hexprs.bind (hgrove.weaken le_rfl (by omega)) fun values t₃ r hgrove' _ =>
    .expectAs rfl fun t₄ _ hsemi hpast' st₂ hst₂ => (ensures_startOf hst₂).bind ?_)
  rintro start st₃ ⟨hst₃, hstart⟩
  obtain ⟨first, rest, rfl⟩ := List.exists_cons_of_ne_nil hne
  obtain ⟨n, hn, rfl⟩ := hstart first rfl
  refine hst₃.ensures (.allocList (.allocList ?_))
  exact .suffix [first :: rest, values] hsemi hpast'.2 hgrove' hn rfl (by simp) (by simp)

theorem expressionStatement_yields (rounds : Nat) :
    Yields src (expressionStatement rounds) fun id => [id] := by
  refine fun t pool => .attempt ((expression_yields rounds).first fun expr t₁ q hgrove =>
    .expectAs rfl fun t₂ _ hsemi hpast => .spanOf fun n hn => ?_)
  exact .suffix [] hsemi hpast.2 hgrove hn rfl (by simp) (by simp)

/-! ### Statements and files -/

theorem statement_yields (depth : Nat) : Yields src (statement depth) fun id => [id] := by
  induction depth with
  | zero => exact fun _ _ => .stalled
  | succ depth ih =>
    have hblock := block_yields ih (depth + 1)
    have hothers :
      Yields src (firstOf [declaration (block (statement depth) (depth + 1)) (depth + 1),
        definition (depth + 1), assignment (depth + 1), expressionStatement (depth + 1)])
        fun id => [id] := by
      apply firstOf_yields
      · simp only [List.forall_mem_cons]
        exact ⟨declaration_undoes _ _ _, definition_undoes _, assignment_undoes _,
          expressionStatement_undoes _, by simp⟩
      · simp only [List.forall_mem_cons]
        exact ⟨declaration_yields hblock (function_undoes _ _ _), definition_yields _,
          assignment_yields _, expressionStatement_yields _, by simp⟩
    refine fun t pool => .peek fun st hst => ?_
    split
    · exact hblock hst
    · exact ifStatement_yields ih _ hst
    · exact whileStatement_yields ih _ hst
    · exact deferStatement_yields ih hst
    · exact returnStatement_yields _ hst
    next hkind =>
      exact jumpStatement_grows (hst.solid_of hkind rfl) rfl rfl hst
    next hkind =>
      exact jumpStatement_grows (hst.solid_of hkind rfl) rfl rfl hst
    · exact definition_yields _ hst
    · exact ensures_orUnexpected (hothers hst)

theorem loadDirective_yields : Yields src loadDirective fun id => [id] := by
  refine fun t pool => .attempt (.expectAs rfl fun t₁ _ hdirective hpast st hst => hst.ensures
    (.expectAs rfl fun t₂ hpath _ hpast' => .expectAs rfl fun t₃ _ hclose hpast'' => ?_))
  have hquotes := hst.string hpath
  refine .closed [] hdirective hclose (.nil src pool le_rfl) (by omega) hpast''.2 rfl
    (.refl _) ?_
  simp only [NodeKind.spans, List.mem_singleton, forall_eq, Span.Within, Span.unquoted]
  omega

theorem topLevel_yields (rounds : Nat) : Yields src (topLevel rounds) fun id => [id] := by
  have hblock : Yields src (block (statement rounds) rounds) fun id => [id] :=
    block_yields (statement_yields rounds) rounds
  have hothers : Yields src (firstOf [declaration (block (statement rounds) rounds) rounds,
      definition rounds]) fun id => [id] := by
    apply firstOf_yields
    · simp only [List.forall_mem_cons]
      exact ⟨declaration_undoes _ _ _, definition_undoes _, by simp⟩
    · simp only [List.forall_mem_cons]
      exact ⟨declaration_yields hblock (function_undoes _ _ _), definition_yields _, by simp⟩
  refine fun t pool => .peek fun st hst => ?_
  split
  · exact loadDirective_yields hst
  · exact ensures_orUnexpected (hothers hst)

end MicroCompiler.Grammar
