import MicroCompiler.Proofs.Layout.Independence
import MicroCompiler.Proofs.Safety.Declaration

/-! Statements and whole texts are safe. A statement is paid for with a keyword, a brace or its
semicolon. The node of a file has no token of its own, but each declaration in front of it has one
to spare. -/

namespace MicroCompiler.Grammar

open Ast (NodeId NodeKind Pool Slot)
open Token (Kind)
open Production

variable {src : Source} {st : State} {t : Token} {c d : Nat} {inner : Production NodeId}

/-! ### Statements with a keyword -/

section

variable (hyields : Yields src inner fun id => [id]) (hinner : SpendsOne src inner 0)

include hyields hinner

theorem block_spends (rounds : Nat) : SpendsOne src (block inner rounds) 0 := by
  refine SpendsOne.attempt (block_yields hyields rounds) fun c d base => .expect rfl fun _ =>
    manyUntil_eat_from hyields hinner rfl fun statements _ => ?_
  exact .allocList d (by simp) fun _ => .alloc (by omega)

omit hyields in
theorem alternative_spends : Spends src (alternative inner) (fun _ => 0) fun slot =>
    slot.toList.length := by
  refine .of_from fun c d R => .eatIf rfl (fun _ _ => ?_) (.pure le_rfl le_rfl)
  exact hinner.andThen fun _ => .pure (by omega) le_rfl

theorem ifStatement_spends (rounds : Nat) : SpendsOne src (ifStatement inner rounds) 0 := by
  refine SpendsOne.attempt (ifStatement_yields hyields rounds) fun c d base => .expect rfl fun _ =>
    (expression_spends rounds).andThen fun _ => hinner.andThen fun _ =>
    (alternative_spends hinner).andThen fun _ => ?_
  exact .spanOf fun _ _ => .alloc (by omega)

theorem whileStatement_spends (rounds : Nat) : SpendsOne src (whileStatement inner rounds) 0 := by
  refine SpendsOne.attempt (whileStatement_yields hyields rounds) fun c d base =>
    .expect rfl fun _ =>
    (expression_spends rounds).andThen fun _ => hinner.andThen fun _ => ?_
  exact .spanOf fun _ _ => .alloc (by omega)

theorem deferStatement_spends : SpendsOne src (deferStatement inner) 0 := by
  refine SpendsOne.attempt (deferStatement_yields hyields) fun c d base =>
    .expect rfl fun _ => ?_
  exact hinner.andThen fun _ => .spanOf fun _ _ => .alloc (by omega)

end

theorem returnValues_spend (rounds : Nat) :
    Spends src (returnValues rounds) (fun _ => 0) List.length := by
  refine .of_from fun c d R => .check fun stop => ?_
  split
  · exact .pure le_rfl le_rfl
  · exact fun _ _ h => expressions_spends (expression_spends rounds) rounds h R

theorem returnStatement_spends (rounds : Nat) : SpendsOne src (returnStatement rounds) 0 := by
  refine SpendsOne.attempt (returnStatement_yields rounds) fun c d base => .expect rfl fun _ =>
    (returnValues_spend rounds).andThen fun values => .expect rfl fun _ => ?_
  exact .allocList d le_rfl fun _ => .alloc (by omega)

/-- A keyword that is a statement by itself is a keyword that the caller has seen. -/
theorem sure_jumpStatement {kind : NodeKind} {k : Kind} (h : Ready src st t c d) (hk : t.kind = k)
    (hproper : isProper k) (hkind : kind.refers? = some ([], [])) (htexts : kind.spans = [])
    {R : NodeId → State → Prop} : Sure src (jumpStatement kind) st R fun _ st' => ∃ t',
    Ready src st' t' (c + 0) (d + 1) := by
  have hrooted : (jumpStatement kind).Ensures src st (Rooted src st.pool) :=
    (jumpStatement_grows (h.stands.solid_of hk hproper) hkind htexts h.stands).mono
      fun _ _ hgrown => hgrown.rooted
  refine .knowing hrooted (sure_attempt h fun st₁ h₁ _ => SureAt.eat hk
    (bne_iff_ne.mpr (isProper_iff.mp hproper).2) ?_ h₁)
  exact .expect rfl fun _ => .alloc (by omega)

/-! ### Statements that start with an expression -/

theorem startOf_spends (ids : List NodeId) (otherwise : Nat) :
    Spends src (startOf ids otherwise) (fun _ => 0) fun _ => 0 := by
  cases ids with
  | nil => exact .of_from fun _ _ _ => .pure le_rfl le_rfl
  | cons first rest =>
    exact .of_from fun _ _ _ => .spanOf fun _ _ => .pure le_rfl le_rfl

theorem assignment_spends (rounds : Nat) : SpendsOne src (assignment rounds) 0 := by
  have hexprs := expressions_spends (@expression_spends src rounds) rounds
  refine SpendsOne.attempt (assignment_yields rounds) fun c d base => hexprs.andThen fun targets =>
    .expect rfl fun _ => hexprs.andThen fun values => .expect rfl fun _ => ?_
  exact (startOf_spends _ _).andThen fun _ => .allocList (d + values.length) (by omega) fun _ =>
    .allocList d le_rfl fun _ => .alloc (by omega)

theorem expressionStatement_spends (rounds : Nat) :
    SpendsOne src (expressionStatement rounds) 0 := by
  refine SpendsOne.attempt (expressionStatement_yields rounds) fun c d base =>
    (expression_spends rounds).andThen fun _ => ?_
  exact .expect rfl fun _ => .spanOf fun _ _ => .alloc (by omega)

/-! ### Statements and files -/

theorem statement_spends (depth : Nat) : SpendsOne src (statement depth) 0 := by
  induction depth with
  | zero => exact fun _ _ _ _ _ _ => .stalled
  | succ depth ih =>
    have hyields : Yields src (statement depth) fun id => [id] := statement_yields depth
    have hblock := block_spends hyields ih (depth + 1)
    have hothers :
      SpendsOne src (firstOf [declaration (block (statement depth) (depth + 1)) (depth + 1),
        definition (depth + 1), assignment (depth + 1), expressionStatement (depth + 1)]) 0 := by
      apply firstOf_spends
      · simp only [List.forall_mem_cons]
        exact ⟨declaration_undoes _ _ _, definition_undoes _, assignment_undoes _,
          expressionStatement_undoes _, by simp⟩
      · simp only [List.forall_mem_cons]
        exact ⟨(declaration_spends hblock (block_yields hyields _) (function_undoes _ _ _)).less,
          (definition_spends _).less, assignment_spends _, expressionStatement_spends _, by simp⟩
    intro st t c d h R
    refine (sure_peek h).bind ?_
    rintro t st₁ - ⟨rfl, h₁⟩
    split
    · exact hblock h₁ R
    · exact ifStatement_spends hyields ih _ h₁ R
    · exact whileStatement_spends hyields ih _ h₁ R
    · exact deferStatement_spends hyields ih h₁ R
    · exact returnStatement_spends _ h₁ R
    next hkind =>
      exact sure_jumpStatement h₁ hkind rfl rfl rfl
    next hkind =>
      exact sure_jumpStatement h₁ hkind rfl rfl rfl
    · exact (definition_spends _).less h₁ R
    · exact .orUnexpected h₁.token_fits (hothers h₁ R)

theorem loadDirective_spends : SpendsOne src loadDirective 1 := by
  refine SpendsOne.attempt loadDirective_yields fun c d base => .expect rfl fun _ =>
    .expect rfl fun _ => ?_
  exact .expect rfl fun _ => .alloc (by omega)

theorem topLevel_spends (rounds : Nat) : SpendsOne src (topLevel rounds) 1 := by
  have hyields : Yields src (statement rounds) fun id => [id] := statement_yields rounds
  have hblock := block_spends hyields (statement_spends rounds) rounds
  have hothers : SpendsOne src (firstOf [declaration (block (statement rounds) rounds) rounds,
      definition rounds]) 1 := by
    apply firstOf_spends
    · simp only [List.forall_mem_cons]
      exact ⟨declaration_undoes _ _ _, definition_undoes _, by simp⟩
    · simp only [List.forall_mem_cons]
      exact ⟨declaration_spends hblock (block_yields hyields _) (function_undoes _ _ _),
        definition_spends _, by simp⟩
  intro st t c d h R
  refine (sure_peek h).bind ?_
  rintro t st₁ - ⟨rfl, h₁⟩
  split
  · exact loadDirective_spends h₁ R
  · exact .orUnexpected h₁.token_fits (hothers h₁ R)

theorem manyUntil_nil {item : Production NodeId} {stop : Kind} {rounds : Nat} {pool : Pool}
    (h : Stands src st t pool) : (manyUntil stop item rounds).Ensures src st fun ids st' =>
    ids = [] → st'.pool = pool := by
  cases rounds with
  | zero => exact ensures_stalled
  | succ rounds =>
    refine (ensures_check h).bind ?_
    rintro found st₁ ⟨-, h₁⟩
    split
    · exact ensures_pure fun _ => h₁.pool
    · exact ensures_true.bind fun a st₂ _ => ensures_true.bind fun rest st₃ _ =>
        ensures_pure (by simp)

theorem file_sure (hshort : src.size < Span.limit) (fileIndex rounds : Nat)
    {R : NodeId → State → Prop} : Sure src (file src.size rounds) (initial fileIndex) R anyhow := by
  refine sure_attempt (.start hshort fileIndex) fun st₁ h₁ hpool => ?_
  refine (manyUntil_spends (topLevel_spends rounds) .eof rounds h₁ _).bind ?_
  rintro ids st₂ ho ⟨t₂, h₂⟩
  have hnone := manyUntil_nil h₁.stands ids st₂ ho
  refine (sure_allocList 0 h₂ (by simp)).bind fun range st₃ ho' h₃ => ?_
  have hsame : st₃.pool.size = st₂.pool.size := by
    cases ho'
    rfl
  -- Each declaration has a token to spare, and where there is no declaration there is no node.
  have hroom : st₃.pool.size < Slot.emptyIndex := by
    cases ids with
    | nil =>
      rw [hsame, hnone rfl, hpool]
      exact Nat.zero_lt_succ _
    | cons id ids =>
      have hspare : Ready src st₃ t₂ (0 + 1) 0 := h₃.mono (by simp) le_rfl
      exact hspare.room
  refine fun _ _ => ⟨.alloc hroom ⟨⟨Nat.zero_le _, hshort⟩, by simp⟩, ?_, by rintro _ _ ⟨⟩⟩
  rintro _ _ ⟨⟩
  exact ⟨.of_extends (.alloc _ _ _), trivial⟩

theorem wholeExpression_sure (hshort : src.size < Span.limit) (fileIndex rounds : Nat)
    {R : NodeId → State → Prop} :
    Sure src (wholeExpression rounds) (initial fileIndex) R anyhow := by
  refine (expression_spends rounds (.start hshort fileIndex) _).bind ?_
  rintro root st₁ - ⟨t₁, h₁⟩
  have hend : Sure src (expect .eof) st₁ anyhow anyhow := by
    refine (sure_peek h₁).bind ?_
    rintro t st₂ - ⟨rfl, h₂⟩
    split_ifs
    · exact (sure_eat h₂).mono fun _ _ _ _ => trivial
    · exact .unexpected h₂.token_fits
  exact hend.bind fun _ _ _ _ => .pure trivial

/-! ### Whole texts -/

/-- A text shorter than the limit on offsets is read to its end without a fault. Every step of both
runs keeps to the rules; the outcome is a tree or a complaint; and the bound on the number of steps
does not matter, so that every loop and every recursion ends by itself. -/
theorem parse_total {src : Source} (hshort : src.size < Span.limit) (fileIndex : Nat) :
    Safe src (file src.size (budget src)) (initial fileIndex) ∧
      Safe src (wholeExpression (budget src)) (initial fileIndex) ∧
      ((∃ parsed, parseFile src fileIndex = .ok parsed) ∨ ∃ d, parseFile src fileIndex =
        .error (.rejected d)) ∧
      ((∃ parsed, parseExpression src fileIndex = .ok parsed) ∨
        ∃ d, parseExpression src fileIndex = .error (.rejected d)) ∧
      ∀ rounds, budget src ≤ rounds → run (file src.size rounds) src fileIndex =
        parseFile src fileIndex ∧ run (wholeExpression rounds) src fileIndex =
        parseExpression src fileIndex := by
  have hfile := file_ne_broken src fileIndex
  have hexpr := wholeExpression_ne_broken src fileIndex
  refine ⟨(file_sure hshort fileIndex _ hfile ensures_true).1,
    (wholeExpression_sure hshort fileIndex _ hexpr ensures_true).1, run_ok_or_rejected hfile,
    run_ok_or_rejected hexpr,
    fun rounds hle => ⟨?_, ?_⟩⟩
  · rw [parseFile, run, run, (file_below src.size hle).eq_of_ne_broken hfile]
  · rw [parseExpression, run, run, (wholeExpression_below hle).eq_of_ne_broken hexpr]

/-- The block of `f::func(){a(` is never closed. -/
theorem parse_total_unclosed :
    Safe ⟨[102, 58, 58, 102, 117, 110, 99, 40, 41, 123, 97, 40]⟩ (file 12 13) (initial 0) ∧
      ∃ d, parseFile ⟨[102, 58, 58, 102, 117, 110, 99, 40, 41, 123, 97, 40]⟩ 0 =
      .error (.rejected d) := by
  have hshort : (⟨[102, 58, 58, 102, 117, 110, 99, 40, 41, 123, 97, 40]⟩ : Source).size <
      Span.limit := by decide
  obtain ⟨hsafe, -, hend, -⟩ := parse_total hshort 0
  refine ⟨hsafe, ?_⟩
  have hfails : (parseFile ⟨[102, 58, 58, 102, 117, 110, 99, 40, 41, 123, 97, 40]⟩ 0).isOk =
      false := by decide +kernel
  rcases hend with ⟨parsed, hok⟩ | hrejected
  · rw [hok] at hfails
    cases hfails
  · exact hrejected

end MicroCompiler.Grammar
