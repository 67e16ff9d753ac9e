import MicroCompiler.Proofs.Grammar.Declaration

/-! What the productions of statements and files read. A statement is read to its end by a
production that may take as many steps as there are tokens to come; the statements within it are
shorter and take fewer. -/

namespace MicroCompiler.Grammar

open Ast (NodeId NodeKind Pool)
open Token (Kind)
open Production

variable {src : Source} {k : Kind} {ks xs : List Kind} {pool : Pool} {bound rounds : Nat}
  {inner : Production NodeId}

/-- What a production of statements leaves in the pool: a new node. -/
def StmtPost (part : StmtPart) (p : Pool) (id : NodeId) (q : Pool) (xs _ys : List Kind) : Prop :=
  New p q id ∧ IsStmt part xs

theorem IsStmt.statement_ne_nil (h : IsStmt .statement xs) : xs ≠ [] := by
  cases h with
  | nested h => cases h; simp
  | declared h => cases h <;> simp
  | defined h => exact h.ne_nil
  | _ => simp

theorem statements_of_repeated (h : Repeated (IsStmt .statement) xs) : IsStmt .statements xs := by
  induction h with
  | none => exact .noStatement
  | more h _ ih => exact .statements h ih

theorem block_reads (hinner : Reads src inner bound (StmtPost .statement))
    (hrounds : bound ≤ rounds) : Tries src (block inner rounds) (bound + 1) (StmtPost .block) := by
  have hitem : Reads src inner bound fun _ _ _ xs _ => IsStmt .statement xs ∧ xs ≠ [] :=
    hinner.imp fun _ _ _ _ _ h => ⟨h.2, h.2.statement_ne_nil⟩
  refine .of_on fun pool ks hlen => .expectAs rfl fun _ ks _ => ?_
  refine (manyUntil_reads rfl hitem rounds).bind (by omega) fun ids q xs ks _ _ h => ?_
  refine .eatStop h.2 rfl fun _ ks => .allocList fun range q _ => .alloc fun hext => ?_
  exact ⟨.after hext, .block (statements_of_repeated h.1)⟩

/-- Where an expression ends, a statement that follows stands apart from it. -/
theorem StandsApart.of_endsExpr {ys : List Kind} (h : EndsExpr (xs ++ ys)) : StandsApart xs := by
  cases xs with
  | nil => simp [StandsApart]
  | cons k xs =>
    rintro _ ⟨⟩ hk
    have hoperand := h.1 k rfl
    have hop := h.2 k rfl
    simp only [List.mem_cons, List.not_mem_nil, or_false] at hk
    rcases hk with rfl | rfl | rfl | rfl | rfl
    · simp at hoperand
    all_goals exact absurd hop (by decide)

section

variable (hinner : Reads src inner bound (StmtPost .statement))

include hinner

theorem alternative_reads : Reads src (alternative inner) bound fun _ slot q xs _ =>
      InPool q slot ∧ (xs = [] ∨ ∃ zs, xs = .kwElse :: zs ∧ IsStmt .statement zs) := by
  refine .of_on fun pool ks hlen => .eatIf rfl (fun _ ks _ => hinner.bind (by omega) ?_) fun _ => ?_
  · exact fun id q zs ks _ _ h => .pure ⟨h.1.inPool, .inr ⟨zs, rfl, h.2⟩⟩
  · exact .pure ⟨by simp [InPool], .inl rfl⟩

/-- A condition, and the statement behind it. -/
theorem condition_reads {α : Type} {f : NodeId → NodeId → Production α} {base : Pool}
    {Q : α → Pool → List Kind → List Kind → Prop} (hrounds : bound ≤ rounds)
    (hlen : ks.length ≤ bound)
      (hf : ∀ condition body q ys zs ks', ys.length + zs.length + ks'.length = ks.length →
      body.index < q.size → IsExpr .expr ys → IsStmt .statement zs → StandsApart zs →
      ReadsOn src base q (xs ++ ys ++ zs) ks' (f condition body) Q) :
    ReadsOn src base pool xs ks (do
      let condition ← expression rounds
      let body ← inner
      f condition body) Q := by
  refine (expression_reads rounds).bind (by omega) ?_
  rintro condition q ys ks hks - ⟨-, -, hcondition, hends, -⟩
  refine hinner.bind (by omega) fun body q' zs ks' hks' _ hbody => ?_
  rw [hks'.1] at hends
  exact hf condition body q' ys zs ks' (by omega) hbody.1.2 hcondition hbody.2 (.of_endsExpr hends)

theorem ifStatement_reads (hrounds : bound ≤ rounds) :
    Tries src (ifStatement inner rounds) (bound + 1) (StmtPost .statement) := by
  refine .of_on fun pool ks hlen => .expectAs rfl fun _ ks _ =>
    condition_reads hinner hrounds (by omega) ?_
  intro condition consequent q xs ys ks hks hconsequent hcondition hthen hapart
  refine (alternative_reads hinner).bind (by omega) fun slot q' zs ks _ hext ⟨hslot, helse⟩ => ?_
  have hlast : (slot.getD consequent).index < q'.size := by
    cases slot with
    | none => exact hconsequent.trans_le hext.size_le
    | some id => exact hslot id rfl
  refine .spanOf hlast fun _ => .alloc fun hext => ⟨.after hext, ?_⟩
  rcases helse with rfl | ⟨zs, rfl, helse⟩
  · simpa using IsStmt.ifThen hcondition hthen hapart
  · exact .ifElse hcondition hthen hapart helse

theorem whileStatement_reads (hrounds : bound ≤ rounds) :
    Tries src (whileStatement inner rounds) (bound + 1) (StmtPost .statement) := by
  refine .of_on fun pool ks hlen => .expectAs rfl fun _ ks _ =>
    condition_reads hinner hrounds (by omega) ?_
  intro condition body q xs ys ks _ hbody hcondition hphrase hapart
  exact .spanOf hbody fun _ => .alloc fun hext => ⟨.after hext, .whileDo hcondition hphrase hapart⟩

theorem deferStatement_reads :
    Tries src (deferStatement inner) (bound + 1) (StmtPost .statement) := by
  refine .of_on fun pool ks hlen => .expectAs rfl fun _ ks _ => ?_
  refine hinner.bind (by omega) fun body q xs ks _ _ h => .spanOf h.1.2 fun _ => ?_
  exact .alloc fun hext => ⟨.after hext, .deferred h.2⟩

end

theorem returnValues_reads (rounds : Nat) :
    Reads src (returnValues rounds) rounds fun _ _ _ xs _ =>
      IsStmt .statement (.kwReturn :: xs ++ [.semicolon]) :=
  .of_on fun _ _ hlen => .check rfl (fun _ => .pure .returnNone) fun _ =>
    ((exprs_reads rounds).here hlen).last fun _ _ _ _ _ h => .returnValues h.2.1

theorem returnStatement_reads (rounds : Nat) :
    Tries src (returnStatement rounds) rounds (StmtPost .statement) := by
  refine .of_on fun pool ks hlen => .expectAs rfl fun _ ks _ => ?_
  refine (returnValues_reads rounds).bind (by omega) fun values q xs ks _ _ hphrase => ?_
  exact .expectAs rfl fun _ ks _ => .allocList fun _ q _ =>
    .alloc fun hext => ⟨.after hext, hphrase⟩

theorem jumpStatement_reads {kind : NodeKind} (hk : k ≠ .eof)
    (hphrase : IsStmt .statement [k, .semicolon]) :
    ReadsOn src pool pool [] (k :: ks) (jumpStatement kind) (StmtPost .statement pool) :=
  .attempt (.eatAny hk fun _ => .expectAs rfl fun _ _ _ =>
    .alloc fun hext => ⟨.after hext, hphrase⟩)

theorem startOf_reads {ids : List NodeId} {otherwise : Nat}
    (hin : ∀ id ∈ ids, id.index < pool.size) :
    ReadsOn src pool pool [] ks (startOf ids otherwise) fun _ _ zs _ => zs = [] := by
  cases ids with
  | nil => exact .pure rfl
  | cons first rest => exact .spanOf (hin first (by simp)) fun _ => .pure rfl

theorem assignment_reads (rounds : Nat) :
    Tries src (assignment rounds) rounds fun p id q xs _ => New p q id ∧ ∃ m n ys zs,
      IsExpr (.exprs m) ys ∧ IsExpr (.exprs n) zs ∧ xs = ys ++ .equal :: zs ++ [.semicolon] := by
  refine .of_on fun pool ks hlen => (exprs_reads rounds).bind hlen fun targets q xs ks hks _ h => ?_
  refine .expectAs rfl fun _ ks _ => (exprs_reads rounds).bind (by omega)
    fun values q' ys ks _ hext h' => ?_
  refine .expectAs rfl fun _ ks _ => (startOf_reads fun id hid =>
    (h.1 id hid).trans_le hext.size_le).bind ?_
  rintro start q'' _ ks - - rfl
  refine .allocList fun _ q _ => .allocList fun _ q _ => .alloc fun hext => ⟨.after hext, ?_⟩
  exact ⟨_, _, xs, ys, h.2.1, h'.2.1, by simp⟩

theorem expressionStatement_reads (rounds : Nat) :
    Tries src (expressionStatement rounds) rounds (StmtPost .statement) := by
  refine .of_on fun pool ks hlen => (expression_reads rounds).bind hlen fun expr q xs ks _ _ h => ?_
  refine .expectAs rfl fun _ ks _ => .spanOf h.1.2 fun _ => .alloc fun hext => ⟨.after hext, ?_⟩
  exact .evaluated h.2.2.1

/-! ### All statements -/

theorem StmtPost.of_nodes {part : StmtPart} (p p' : Pool) (id : NodeId) (q : Pool)
    (xs ys : List Kind) (hn : p'.nodes = p.nodes) (h : StmtPost part p' id q xs ys) :
    StmtPost part p id q xs ys :=
  ⟨.of_nodes hn h.1, h.2⟩

theorem statementOf_reads (hinner : Reads src inner bound (StmtPost .statement))
    (hrounds : rounds = bound + 1) :
    Reads src (statementOf inner rounds) rounds (StmtPost .statement) := by
  subst hrounds
  have hblock := (block_reads hinner (Nat.le_succ bound)).reads
  have hdeclaration : Tries src (declaration (block inner (bound + 1)) (bound + 1)) (bound + 1)
      (StmtPost .statement) :=
    (declaration_reads hblock le_rfl).imp fun _ _ _ _ _ h => ⟨h.1, .declared h.2⟩
  have hdefinition : Tries src (definition (bound + 1)) (bound + 1) (StmtPost .statement) :=
    (definition_reads _).imp fun _ _ _ _ _ h => ⟨h.1, .defined h.2⟩
  have hassignment : Tries src (assignment (bound + 1)) (bound + 1) (StmtPost .statement) := by
    refine (assignment_reads _).imp ?_
    rintro _ _ _ _ _ ⟨hnew, m, n, ys, zs, hys, hzs, rfl⟩
    exact ⟨hnew, .assigned hys hzs⟩
  refine .of_on fun pool ks hlen => .peek ?_
  rintro start k ks ht rfl
  split
  · exact (hblock.imp fun _ _ _ _ _ h => ⟨h.1, .nested h.2⟩).here hlen
  · exact (ifStatement_reads hinner (Nat.le_succ bound)).reads.here hlen
  · exact (whileStatement_reads hinner (Nat.le_succ bound)).reads.here hlen
  · exact (deferStatement_reads hinner).reads.here hlen
  · exact (returnStatement_reads _).reads.here hlen
  next hkind =>
    obtain rfl := kind_of_symbol ht hkind rfl
    exact jumpStatement_reads (by decide) .leaveLoop
  next hkind =>
    obtain rfl := kind_of_symbol ht hkind rfl
    exact jumpStatement_reads (by decide) .nextRound
  · exact hdefinition.reads.here hlen
  · refine .orUnexpected ((Tries.firstOf .of_nodes ?_).reads.here hlen)
    simp only [List.forall_mem_cons, List.not_mem_nil, false_imp_iff, implies_true, and_true]
    exact ⟨hdeclaration, hdefinition, hassignment, expressionStatement_reads _⟩

theorem statement_reads (depth : Nat) :
    Reads src (statement depth) depth (StmtPost .statement) := by
  induction depth with
  | zero => exact .zero rfl
  | succ depth ih => exact statementOf_reads ih rfl

/-! ### Files -/

theorem loadDirective_reads (bound : Nat) :
    Tries src loadDirective bound fun p id q xs _ => New p q id ∧ IsItem xs :=
  .of_on fun _ _ _ => .expectAs rfl fun _ _ _ => .expectAs rfl fun _ _ _ =>
    .expectAs rfl fun _ _ _ => .alloc fun hext => ⟨.after hext, .load⟩

theorem topLevel_reads (rounds : Nat) :
    Reads src (topLevel rounds) rounds fun p id q xs _ => New p q id ∧ IsItem xs := by
  have hblock := (block_reads (@statement_reads src rounds) le_rfl).reads.of_le (Nat.le_succ rounds)
  have hfirst : Tries src (firstOf [declaration (block (statement rounds) rounds) rounds,
      definition rounds]) rounds fun p id q xs _ => New p q id ∧ IsItem xs := by
    refine .firstOf (fun _ _ _ _ _ _ hn h => ⟨.of_nodes hn h.1, h.2⟩) ?_
    simp only [List.forall_mem_cons, List.not_mem_nil, false_imp_iff, implies_true, and_true]
    constructor
    · exact (declaration_reads hblock le_rfl).imp fun _ _ _ _ _ h => ⟨h.1, .declared h.2⟩
    · exact (definition_reads rounds).imp fun _ _ _ _ _ h => ⟨h.1, .defined h.2⟩
  refine .of_on fun pool ks hlen => .peek fun _ _ _ _ _ => ?_
  split
  · exact (loadDirective_reads rounds).reads.here hlen
  · exact .orUnexpected (hfirst.reads.here hlen)

theorem IsItem.ne_nil (h : IsItem xs) : xs ≠ [] := by
  cases h with
  | load => simp
  | declared h => exact (IsStmt.declared h).statement_ne_nil
  | defined h => exact h.ne_nil

/-- A file is read to the end of the text. -/
theorem file_reads (size rounds : Nat) :
    Tries src (file size rounds) rounds fun p id q xs ys =>
      New p q id ∧ IsFile xs ∧ ys = [.eof] := by
  have hitem : Reads src (topLevel rounds) rounds fun _ _ _ xs _ => IsItem xs ∧ xs ≠ [] :=
    (topLevel_reads rounds).imp fun _ _ _ _ _ h => ⟨h.2, h.2.ne_nil⟩
  refine .of_on fun pool ks hlen => (manyUntil_reads rfl hitem rounds).bind (by omega) ?_
  rintro declarations q xs ys - - ⟨hfile, hstop⟩
  obtain ⟨ys, rfl⟩ := List.head?_eq_some_iff.mp hstop
  intro st h hext
  obtain rfl := h.eof
  refine ReadsOn.allocList (fun _ q _ => .alloc fun hext => ?_) h hext
  exact ⟨.after hext, hfile, rfl⟩

end MicroCompiler.Grammar
