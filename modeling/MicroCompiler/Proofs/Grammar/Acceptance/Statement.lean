import MicroCompiler.Proofs.Grammar.Acceptance.Declaration

/-! Which phrases the productions of statements and files accept. A statement that begins like an
expression may be one of four, and the first mark behind it tells which. -/

namespace MicroCompiler.Grammar

open Ast (BinaryOp NodeId NodeKind Pool)
open Token (Kind)
open Production

variable {src : Source} {k : Kind} {xs : List Kind} {bound rounds : Nat}
  {follow : List Kind → Prop} {blockOf : Production NodeId}

/-! ### Statements -/

/-- An open statement must not be followed by an `else`. -/
def AcceptsStmts (src : Source) (inner : Production NodeId) (bound : Nat) : Prop :=
  ∀ isOpen xs, Tied isOpen xs → AcceptsWithin src inner bound (fun ys => isOpen = true →
    ys.head? ≠ some .kwElse) xs

variable {inner : Production NodeId}

theorem repeated_of_statements {part : StmtPart} (h : IsStmt part xs) (hpart : part = .statements) :
    Repeated (IsStmt .statement) xs := by
  induction h with
  | noStatement => exact .none
  | statements h _ _ ih => exact .more h (ih rfl)
  | _ => simp at hpart

theorem block_accepts (hinner : AcceptsStmts src inner bound) (hxs : IsStmt .block xs) :
    AcceptsWithin src (block inner rounds) (bound + 1) (fun _ => True) xs := by
  obtain ⟨zs, rfl, hzs⟩ : ∃ zs, xs = .leftBrace :: zs ++ [.rightBrace] ∧ IsStmt .statements zs := by
    cases hxs with
    | block hzs => exact ⟨_, rfl, hzs⟩
  have hitem (xs : List Kind) (hxs : IsStmt .statement xs) :
      AcceptsWithin src inner bound (fun ys => ys.head? ≠ some .kwElse) xs := by
    obtain ⟨isOpen, htied⟩ := hxs.tied rfl
    exact (hinner isOpen xs htied).of_follow fun _ hys => ⟨hys.1, fun _ => hys.2⟩
  have hbegins (xs : List Kind) (hxs : IsStmt .statement xs) : Begins (· != .rightBrace) xs :=
    hxs.begins.mono fun k hk => by
      rw [bne_iff_ne]
      rintro rfl
      simp [startsStmt, startsExpr] at hk
  have hnext (xs ys : List Kind) (hxs : IsStmt .statement xs) : (xs ++ ys).head? ≠ some .kwElse :=
    hxs.begins.head?_ne rfl ys
  refine Accepts.attempt (.expect rfl fun brace => ?_)
  refine (manyUntil_accepts rfl hitem hbegins (by simp) hnext (repeated_of_statements hzs
    rfl) rounds).bind (fun ys hys => ⟨?_, rfl⟩) fun statements _ => ?_
  · simpa using hys.1
  · exact .eat rfl fun close => allocList_accepts.after fun _ _ => alloc_accepts

/-- A token that begins a statement goes on with an expression only if it also begins an
expression. -/
theorem ends_of_startsStmt : ∀ k, startsStmt k →
    k ∉ [Kind.leftParen, Kind.plus, Kind.minus, Kind.ampersand, Kind.star] →
    k ∉ [Kind.leftParen, Kind.leftBracket, Kind.dot] ∧ BinaryOp.ofToken? k = none := by
  intro k
  cases k <;> decide

theorem Tied.endsExpr {isOpen : Bool} {ys : List Kind} (h : Tied isOpen xs)
    (hapart : StandsApart xs) : EndsExpr (xs ++ ys) := by
  obtain ⟨k, zs, rfl, hk⟩ := h.begins
  have hends := ends_of_startsStmt k hk (hapart k rfl)
  exact endsExpr_cons hends.1 hends.2

theorem alternative_none (inner : Production NodeId) :
    Accepts src (alternative inner) [] (fun ys => ys.head? ≠ some .kwElse) fun _ => True :=
  .eatIf_no rfl (fun _ hys => hys) (.pure trivial)

theorem alternative_some (hxs : Accepts src inner xs follow fun _ => True) :
    Accepts src (alternative inner) (.kwElse :: xs) follow fun _ => True :=
  .eatIf_yes rfl fun _ => hxs.andThen fun _ _ => .pure trivial

/-- A condition, a statement and what may be an `else` with its own. -/
theorem ifStatement_accepts {cs ts es : List Kind} {follow follow' : List Kind → Prop}
    (hcs : IsExpr .expr cs) (hends : ∀ ys, EndsExpr (ts ++ ys))
    (hts : Accepts src inner ts follow' fun _ => True)
    (hes : Accepts src (alternative inner) es follow fun _ => True)
    (hfollow : ∀ ys, follow ys → follow' (es ++ ys)) :
    Accepts src (ifStatement inner rounds) (.kwIf :: cs ++ ts ++ es) follow fun _ => True := by
  rw [List.append_assoc]
  refine Accepts.attempt (.expect rfl fun keyword => ?_)
  refine (expression_accepts rounds cs hcs).bind (fun ys _ => ?_) fun condition _ =>
    hts.bind hfollow fun _ _ => ?_
  · rw [List.append_assoc]
    exact hends _
  · exact hes.andThen fun _ _ => spanOf_accepts.after fun _ _ => alloc_accepts

theorem whileStatement_accepts {cs ts : List Kind} (hcs : IsExpr .expr cs)
    (hends : ∀ ys, EndsExpr (ts ++ ys)) (hts : Accepts src inner ts follow fun _ => True) :
    Accepts src (whileStatement inner rounds) (.kwWhile :: cs ++ ts) follow fun _ => True := by
  refine Accepts.attempt (.expect rfl fun keyword => ?_)
  refine (expression_accepts rounds cs hcs).bind (fun ys _ => hends ys) fun condition _ =>
    hts.andThen fun _ _ => ?_
  exact spanOf_accepts.after fun _ _ => alloc_accepts

theorem deferStatement_accepts (hxs : Accepts src inner xs follow fun _ => True) :
    Accepts src (deferStatement inner) (.kwDefer :: xs) follow fun _ => True := by
  refine Accepts.attempt (.expect rfl fun keyword => hxs.andThen fun _ _ => ?_)
  exact spanOf_accepts.after fun _ _ => alloc_accepts

theorem returnStatement_accepts (rounds : Nat) (hxs : xs = [] ∨ ∃ n, IsExpr (.exprs n) xs) :
    Accepts src (returnStatement rounds) (.kwReturn :: xs ++ [.semicolon]) (fun _ => True) fun _ =>
    True := by
  have hvalues : Accepts src (returnValues rounds) xs (fun ys =>
      ys.head? = some .semicolon) fun _ => True :=
    optionalExpressions_accepts (expression_accepts rounds) rounds rfl rfl (fun _ =>
    endsExprs (by decide)) hxs
  refine Accepts.attempt (.expect rfl fun keyword => hvalues.bind (fun _ _ =>
    rfl) fun values _ => ?_)
  exact .expect rfl fun semi => allocList_accepts.after fun _ _ => alloc_accepts

theorem jumpStatement_accepts (kind : NodeKind) (hk : k != .eof) :
    Accepts src (jumpStatement kind) [k, .semicolon] (fun _ => True) fun _ => True :=
  Accepts.attempt (.eat hk fun _ => .expect rfl fun _ => alloc_accepts)

theorem assignment_accepts (rounds : Nat) {m n : Nat} {zs : List Kind} (hxs : IsExpr (.exprs m) xs)
    (hzs : IsExpr (.exprs n) zs) :
    Accepts src (assignment rounds) (xs ++ .equal :: zs ++ [.semicolon]) (fun _ => True) fun _ =>
    True := by
  have hexprs {n : Nat} {xs : List Kind} (hxs : IsExpr (.exprs n) xs) :=
    expressions_accepts (@expression_accepts src rounds) hxs rounds
  have hstart (targets : List NodeId) (otherwise : Nat) :
      Accepts src (startOf targets otherwise) [] (fun _ => True) fun _ => True := by
    cases targets with
    | nil => exact .pure trivial
    | cons first rest => exact spanOf_accepts.andThen fun _ _ => .pure trivial
  rw [List.append_assoc]
  refine Accepts.attempt ((hexprs hxs).bind (fun _ _ => endsExprs (by decide) rfl)
    fun targets _ => ?_)
  refine .expect rfl fun _ => (hexprs hzs).bind (fun _ _ => endsExprs (by decide) rfl)
    fun values _ => ?_
  refine .expect rfl fun semi => (hstart _ _).after fun _ _ => ?_
  exact allocList_accepts.after fun _ _ => allocList_accepts.after fun _ _ => alloc_accepts

theorem expressionStatement_accepts (rounds : Nat) (hxs : IsExpr .expr xs) :
    Accepts src (expressionStatement rounds) (xs ++ [.semicolon]) (fun _ => True) fun _ =>
    True := by
  have hexpr := @expression_accepts src rounds xs hxs
  refine Accepts.attempt (hexpr.bind (fun _ _ => endsExpr_cons (by decide) rfl)
    fun expr _ => ?_)
  exact .expect rfl fun semi => spanOf_accepts.after fun _ _ => alloc_accepts

/-! ### All statements -/

/-- Statements that no keyword announces. -/
inductive IsSimple : List Kind → Prop
  | declared {xs : List Kind} (h : IsStmt .declaration xs) : IsSimple xs
  | defined {xs : List Kind} (h : IsDefinition xs) : IsSimple xs
  | assigned {m n : Nat} {xs ys : List Kind} (targets : IsExpr (.exprs m) xs)
    (values : IsExpr (.exprs n) ys) : IsSimple (xs ++ .equal :: ys ++ [.semicolon])
  | evaluated {xs : List Kind} (h : IsExpr .expr xs) : IsSimple (xs ++ [.semicolon])

theorem declaration_refuses
    (hreads : Reads src blockOf bound fun p id q xs _ => New p q id ∧ IsStmt .block xs)
    (hrounds : bound ≤ rounds) (hlen : ∀ ys, follow ys → (xs ++ ys).length ≤ bound)
    (hmark : ∀ ys, firstMark (xs ++ ys) ≠ some .colonColon) :
    Refuses src (declaration blockOf rounds) xs follow := by
  refine (declaration_reads hreads hrounds).refuses hlen ?_
  rintro _ _ _ ys xs' ys' - hks ⟨-, hxs'⟩
  exact hmark ys (hks ▸ hxs'.firstMark_declaration ys')

theorem definition_refuses (hlen : ∀ ys, follow ys → (xs ++ ys).length ≤ rounds)
    (hmark : ∀ ys, firstMark (xs ++ ys) ∉ [some .kwVar, some .colon, some .colonEqual]) :
    Refuses src (definition rounds) xs follow := by
  refine (definition_reads rounds).refuses hlen ?_
  rintro _ _ _ ys xs' ys' - hks ⟨-, hxs'⟩
  exact hmark ys (hks ▸ hxs'.firstMark ys')

theorem assignment_refuses (hlen : ∀ ys, follow ys → (xs ++ ys).length ≤ rounds)
    (hmark : ∀ ys, firstMark (xs ++ ys) ≠ some .equal) :
    Refuses src (assignment rounds) xs follow := by
  refine (assignment_reads rounds).refuses hlen ?_
  rintro _ _ _ ys _ ys' - hks ⟨-, m, n, ts, vs, hts, -, rfl⟩
  rw [List.append_assoc, List.append_assoc] at hks
  exact hmark ys (hks ▸ firstMark_exprs hts rfl)

/-- The alternatives are told apart by the first mark. -/
theorem simple_accepts (hreads : Reads src blockOf bound fun p id q xs _ =>
      New p q id ∧ IsStmt .block xs)
    (hblock : ∀ xs, IsStmt .block xs → AcceptsWithin src blockOf bound (fun _ => True) xs)
    (hrounds : bound ≤ rounds) (hxs : IsSimple xs) :
    AcceptsWithin src (firstOf [declaration blockOf rounds, definition rounds, assignment rounds,
      expressionStatement rounds]) bound (fun _ => True) xs := by
  have hlen {xs : List Kind} (ys : List Kind) (hys : (xs ++ ys).length ≤ bound ∧ True) :
      (xs ++ ys).length ≤ rounds :=
    hys.1.trans hrounds
  cases hxs with
  | declared hxs => exact .firstOf (declaration_accepts hreads hblock hrounds hxs)
  | defined hxs =>
    refine .firstOf_next (declaration_refuses hreads hrounds (fun _ hys => hys.1) fun ys heq => ?_)
      fun _ => ?_
    · have hmark := hxs.firstMark ys
      simp [heq] at hmark
    · exact .orElse (definition_accepts rounds hxs).always
  | @assigned m n ts vs hts hvs =>
    have hmark (ys : List Kind) : firstMark (ts ++ .equal :: vs ++ [.semicolon] ++ ys) =
        some .equal := by
      rw [List.append_assoc, List.append_assoc]
      exact firstMark_exprs hts rfl
    refine .firstOf_next (declaration_refuses hreads hrounds (fun _ hys => hys.1)
      fun ys => by rw [hmark ys]; decide) fun _ => ?_
    refine .orElse_next (definition_refuses hlen fun ys => by rw [hmark ys]; decide) fun _ => ?_
    exact .orElse (assignment_accepts rounds hts hvs).always
  | @evaluated xs hxs =>
    have hmark (ys : List Kind) : firstMark (xs ++ [.semicolon] ++ ys) = some .semicolon := by
      rw [List.append_assoc]
      exact firstMark_exprs hxs rfl
    refine .firstOf_next (declaration_refuses hreads hrounds (fun _ hys => hys.1)
      fun ys => by rw [hmark ys]; decide) fun _ => ?_
    refine .orElse_next (definition_refuses hlen fun ys => by rw [hmark ys]; decide) fun _ => ?_
    refine .orElse_next (assignment_refuses hlen fun ys => by rw [hmark ys]; decide) fun _ => ?_
    exact .orElse (expressionStatement_accepts rounds hxs).always

/-- What begins as an expression is announced by no keyword. -/
theorem statementOf_accepts_simple {V : NodeId → Prop} (hbegins : Begins startsExpr xs)
    (h : Accepts src (firstOf [declaration (block inner rounds) rounds, definition rounds,
      assignment rounds, expressionStatement rounds]) xs follow V) :
      Accepts src (statementOf inner rounds) xs follow V := by
  refine .peek_symbol ?_
  rintro start ⟨ys, -, ht⟩
  have hkind {kind : Kind} (hplain : isPlain kind) (he : start.kind = kind) : startsExpr kind := by
    obtain ⟨k, zs, rfl, hk⟩ := hbegins
    rw [kind_eq_iff src hplain, ← Option.some.inj ht] at he
    exact he ▸ hk
  split
  iterate 8 next he => exact absurd (hkind rfl he) (by decide)
  next => exact .orUnexpected h

theorem statementOf_accepts (hreads : Reads src inner bound (StmtPost .statement))
    (hinner : AcceptsStmts src inner bound) :
    AcceptsStmts src (statementOf inner (bound + 1)) (bound + 1) := by
  intro isOpen xs hxs
  have hblockReads := (block_reads hreads (Nat.le_succ bound)).reads
  have hblock (xs : List Kind) (hxs : IsStmt .block xs) :
      AcceptsWithin src (block inner (bound + 1)) (bound + 1) (fun _ => True) xs :=
      block_accepts hinner hxs
  have hsimple {xs : List Kind} {follow : List Kind → Prop} (hxs : IsSimple xs)
      (hbegins : Begins startsExpr xs) :
      AcceptsWithin src (statementOf inner (bound + 1)) (bound + 1) follow xs :=
    statementOf_accepts_simple hbegins
      ((simple_accepts hblockReads hblock le_rfl hxs).of_follow fun _ hys => ⟨hys.1, trivial⟩)
  cases hxs with
  | plain hxs hhead =>
    cases hxs with
    | nested hxs =>
      obtain ⟨zs, rfl⟩ : ∃ zs, xs = .leftBrace :: zs := by
        cases hxs
        exact ⟨_, rfl⟩
      exact .peek rfl fun _ => (hblock _ hxs).of_follow fun _ hys => ⟨hys.1, trivial⟩
    | returnNone => exact .peek rfl fun _ => (returnStatement_accepts _ (.inl rfl)).always
    | returnValues hxs =>
      exact .peek rfl fun _ => (returnStatement_accepts _ (.inr ⟨_, hxs⟩)).always
    | leaveLoop | nextRound => exact .peek rfl fun _ => (jumpStatement_accepts _ rfl).always
    | declared hxs =>
      refine hsimple (.declared hxs) ?_
      cases hxs <;> exact ⟨_, _, rfl, rfl⟩
    | defined hxs =>
      obtain ⟨k, zs, rfl, rfl | rfl⟩ := hxs.begins
      · exact .peek rfl fun _ => (definition_accepts _ hxs).always
      · exact hsimple (.defined hxs) ⟨_, _, rfl, rfl⟩
    | assigned hts hvs => exact hsimple (.assigned hts hvs) (((hts.begins rfl).append _).append _)
    | evaluated hxs => exact hsimple (.evaluated hxs) ((hxs.begins rfl).append _)
    | ifThen => simp at hhead
    | ifElse => simp at hhead
    | whileDo => simp at hhead
    | deferred => simp at hhead
  | @ifThen isOpen' cs ts hcs hts hapart =>
    have halternative : Accepts src (alternative inner) []
        (fun ys => (ts ++ ys).length ≤ bound ∧ ys.head? ≠ some .kwElse) fun _ => True :=
      (alternative_none inner).of_follow fun _ hys => hys.2
    have hif := @ifStatement_accepts src (bound + 1) inner cs ts [] _ _ hcs (fun _ =>
      hts.endsExpr hapart) (hinner _ ts hts) halternative fun ys hys => ⟨hys.1, fun _ => hys.2⟩
    rw [List.append_nil] at hif
    refine .peek rfl fun _ => hif.of_follow fun ys hys => ⟨?_, hys.2 rfl⟩
    have := hys.1
    simp at this ⊢
    omega
  | @ifElse isOpen cs ts es hcs hts hapart hes =>
    have halternative : Accepts src (alternative inner) (.kwElse :: es) (fun ys =>
        (ts ++ .kwElse :: es ++ ys).length ≤ bound ∧ (isOpen = true →
          ys.head? ≠ some .kwElse)) fun _ => True := by
      refine (alternative_some (hinner isOpen es hes)).of_follow fun ys hys => ⟨?_, hys.2⟩
      have := hys.1
      simp at this ⊢
      omega
    refine .peek rfl fun _ => (ifStatement_accepts hcs (fun _ => hts.endsExpr hapart)
      (hinner _ ts hts) halternative fun ys hys => ⟨?_, by simp⟩).of_follow fun ys hys =>
      ⟨?_, hys.2⟩
    · rw [← List.append_assoc]
      exact hys.1
    · have := hys.1
      simp at this ⊢
      omega
  | @whileDo isOpen' cs ts hcs hts hapart =>
    have hwhile := @whileStatement_accepts src (bound + 1) _ inner cs ts hcs (fun _ =>
      hts.endsExpr hapart) (hinner isOpen ts hts)
    refine .peek rfl fun _ => hwhile.of_follow fun ys hys => ⟨?_, hys.2⟩
    have := hys.1
    simp at this ⊢
    omega
  | @deferred isOpen' zs hzs =>
    refine .peek rfl fun _ => (deferStatement_accepts (hinner isOpen zs hzs)).of_follow
      fun ys hys => ⟨?_, hys.2⟩
    have := hys.1
    simp at this ⊢
    omega

theorem statement_accepts (depth : Nat) : AcceptsStmts src (statement depth) depth := by
  induction depth with
  | zero => exact fun _ _ _ => .stalled
  | succ depth ih => exact statementOf_accepts (statement_reads depth) ih

/-! ### Files -/

theorem loadDirective_accepts :
    Accepts src loadDirective [.loadDirective, .string, .semicolon] (fun _ => True) fun _ => True :=
  Accepts.attempt (.expect rfl fun _ => .expect rfl fun _ =>
  .expect rfl fun _ => alloc_accepts)

theorem topLevel_accepts (rounds : Nat) (hxs : IsItem xs) :
    AcceptsWithin src (topLevel rounds) rounds (fun _ => True) xs := by
  have hreads := (block_reads (@statement_reads src rounds) le_rfl).reads.of_le (Nat.le_succ rounds)
  have hblock (xs : List Kind) (hxs : IsStmt .block xs) :
      AcceptsWithin src (block (statement rounds) rounds) rounds (fun _ => True) xs :=
    (block_accepts (statement_accepts rounds) hxs).of_follow fun _ hys =>
    ⟨Nat.le_succ_of_le hys.1, trivial⟩
  cases hxs with
  | load => exact .peek rfl fun _ => loadDirective_accepts.always
  | declared hxs =>
    obtain ⟨zs, rfl⟩ : ∃ zs, xs = .identifier :: zs := by cases hxs <;> exact ⟨_, rfl⟩
    exact .peek rfl fun _ => .orUnexpected (.firstOf (declaration_accepts hreads hblock le_rfl hxs))
  | defined hxs =>
    have hchoice : AcceptsWithin src (firstOf [declaration (block (statement rounds) rounds) rounds,
      definition rounds])
        rounds (fun _ => True) xs := by
      refine .firstOf_next (declaration_refuses hreads le_rfl (fun _ hys => hys.1) fun ys heq => ?_)
        fun _ => ?_
      · have hmark := hxs.firstMark ys
        simp [heq] at hmark
      · exact .orElse (definition_accepts rounds hxs).always
    obtain ⟨k, zs, rfl, rfl | rfl⟩ := hxs.begins
    · exact .peek rfl fun _ => .orUnexpected hchoice
    · exact .peek rfl fun _ => .orUnexpected hchoice

theorem IsItem.begins (h : IsItem xs) : Begins (· != .eof) xs := by
  cases h with
  | load => exact ⟨_, _, rfl, rfl⟩
  | declared h => cases h <;> exact ⟨_, _, rfl, rfl⟩
  | defined h =>
    obtain ⟨k, ys, rfl, rfl | rfl⟩ := h.begins <;> exact ⟨_, _, rfl, rfl⟩

theorem file_accepts (size rounds : Nat) (hxs : IsFile xs) :
    Accepts src (file size rounds) xs (fun ys => (xs ++ ys).length ≤ rounds ∧ ys.head? = some .eof)
    fun _ => True := by
  refine Accepts.attempt ((manyUntil_accepts rfl (fun _ => topLevel_accepts rounds)
    (fun _ => IsItem.begins) (fun _ => trivial) (fun _ _ _ => trivial) hxs rounds).andThen
    fun declarations _ => ?_)
  exact allocList_accepts.after fun _ _ => alloc_accepts

end MicroCompiler.Grammar
