import Mathlib.Tactic.Common
import MicroCompiler.Grammar.File

/-! More steps. Productions take a bound on the number of steps. One that is given more of them has
the outcome it had before, unless it was broken then; so what is known of a production with enough
steps for a text also holds of any outcome that fewer steps lead to. -/

namespace MicroCompiler.Grammar

open Ast (NodeId)
open Token (Kind)
open Production

variable {α β : Type} {p q : Production α}

namespace Production

/-- Wherever the first production is not broken, the second has the same outcome. -/
def Below (p q : Production α) : Prop := ∀ src st, p src st = q src st ∨ ∃ f, p src st = .broken f

theorem Below.refl (p : Production α) : p.Below p := fun _ _ => .inl rfl

theorem stalled_below (p : Production α) : stalled.Below p := fun _ _ => .inr ⟨_, rfl⟩

theorem Below.eq_of_failed (h : p.Below q) {src : Source} {st st' : State} {e : Diagnostic}
    (hp : p src st = .failed e st') : q src st = .failed e st' := by
  rcases h src st with heq | ⟨f, hbroken⟩
  · rw [← heq, hp]
  · simp [hp] at hbroken

/-! ### Sequences, attempts and alternatives -/

theorem Below.bind {f g : α → Production β} (h : p.Below q) (hf : ∀ a, (f a).Below (g a)) :
    (p >>= f).Below (q >>= g) := by
  intro src st
  simp only [Bind.bind, Production.bind]
  rcases h src st with heq | ⟨fault, hbroken⟩
  · rw [← heq]
    cases p src st with
    | ok a st' => exact hf a src st'
    | failed e st' => exact .inl rfl
    | broken fault => exact .inl rfl
  · rw [hbroken]
    exact .inr ⟨fault, rfl⟩

/-- What comes first need not depend on the bound. -/
theorem below_bind (p : Production α) {f g : α → Production β} (hf : ∀ a, (f a).Below (g a)) :
    (p >>= f).Below (p >>= g) := (Below.refl p).bind hf

/-- What comes afterwards need not depend on the bound. -/
theorem Below.andThen (h : p.Below q) (f : α → Production β) : (p >>= f).Below (q >>= f) :=
  h.bind fun a => .refl (f a)

theorem Below.attempt (h : p.Below q) : (attempt p).Below (attempt q) := by
  intro src st
  simp only [Production.attempt]
  rcases h src { st with cursor := (st.cursor.peek src).2 } with heq | ⟨fault, hbroken⟩
  · exact .inl (by rw [heq])
  · exact .inr ⟨fault, by rw [hbroken]⟩

theorem Below.orElse {ps qs : List (Production α)} (h : List.Forall₂ Below ps qs)
    (best : Diagnostic) : (orElse best ps).Below (orElse best qs) := by
  induction h generalizing best with
  | nil => exact .refl _
  | @cons p q ps qs hp _ ih =>
    intro src st
    simp only [Production.orElse]
    rcases hp src st with heq | ⟨fault, hbroken⟩
    · rw [← heq]
      cases p src st with
      | failed e st' => exact ih (best.furthest e) src st'
      | ok a st' => exact .inl rfl
      | broken fault => exact .inl rfl
    · rw [hbroken]
      exact .inr ⟨fault, rfl⟩

theorem Below.firstOf {ps qs : List (Production α)} (hp : p.Below q)
    (h : List.Forall₂ Below ps qs) : (firstOf (p :: ps)).Below (firstOf (q :: qs)) := by
  intro src st
  simp only [Production.firstOf]
  rcases hp src st with heq | ⟨fault, hbroken⟩
  · rw [← heq]
    cases p src st with
    | failed e st' => exact Below.orElse h e src st'
    | ok a st' => exact .inl rfl
    | broken fault => exact .inl rfl
  · rw [hbroken]
    exact .inr ⟨fault, rfl⟩

theorem Below.orUnexpected (h : p.Below q) (code : Diagnostic.Code) (wanted : String)
    (start : Token) :
    (orUnexpected code wanted start p).Below (orUnexpected code wanted start q) := by
  intro src st
  simp only [Production.orUnexpected]
  rcases h src st with heq | ⟨fault, hbroken⟩
  · exact .inl (by rw [heq])
  · exact .inr ⟨fault, by rw [hbroken]⟩

/-! ### Loops -/

variable {item item' : Production α} {m n : Nat}

/-- What is stalled without steps is compared one step after the other. -/
theorem below_of_step {F G : Nat → Production α} (hzero : F 0 = stalled)
    (hstep : ∀ m n, m ≤ n → (F m).Below (G n) → (F (m + 1)).Below (G (n + 1))) (h : m ≤ n) :
    (F m).Below (G n) := by
  induction m generalizing n with
  | zero =>
    rw [hzero]
    exact stalled_below _
  | succ m ih =>
    obtain ⟨n, rfl⟩ : ∃ k, n = k + 1 := ⟨n - 1, by omega⟩
    exact hstep m n (by omega) (ih (by omega))

theorem manyUntil_below (stop : Kind) (hitem : item.Below item') (h : m ≤ n) :
    (manyUntil stop item m).Below (manyUntil stop item' n) := by
  refine below_of_step rfl (fun m n _ ih => ?_) h
  apply below_bind
  intro stops
  split_ifs
  · exact .refl _
  · exact hitem.bind fun a => ih.andThen _

theorem commaTail_below (hitem : item.Below item') (h : m ≤ n) :
    (commaTail item m).Below (commaTail item' n) := by
  refine below_of_step rfl (fun m n _ ih => ?_) h
  apply below_bind
  intro comma
  split
  · exact .refl _
  · exact hitem.bind fun a => ih.andThen _

theorem commaSeparated_below (hitem : item.Below item') (h : m ≤ n) :
    (commaSeparated item m).Below (commaSeparated item' n) :=
  hitem.bind fun _ => (commaTail_below hitem h).andThen _

end Production

variable {m n : Nat} {expr expr' : Production NodeId}

/-! ### Types and expressions -/

theorem typeExpr_below (h : m ≤ n) : (typeExpr m).Below (typeExpr n) := by
  refine below_of_step rfl (fun m n _ ih => ?_) h
  apply Below.attempt
  apply below_bind
  intro t
  split
  · exact below_bind _ fun _ => ih.andThen _
  · exact .refl _
  · exact .refl _

theorem primary_below (hexpr : expr.Below expr') : (primary expr).Below (primary expr') := by
  apply Below.attempt
  apply below_bind
  intro t
  split
  case h_5 => exact below_bind _ fun _ => hexpr.andThen _
  all_goals exact .refl _

theorem expressions_below (hexpr : expr.Below expr') (h : m ≤ n) :
    (expressions expr m).Below (expressions expr' n) :=
  (commaSeparated_below hexpr h).attempt

theorem call_below (hexpr : expr.Below expr') (callee : NodeId) (h : m ≤ n) :
    (call expr callee m).Below (call expr' callee n) := by
  have harguments : (arguments expr m).Below (arguments expr' n) := by
    apply below_bind
    intro closes
    split_ifs
    · exact .refl _
    · exact expressions_below hexpr h
  exact (below_bind _ fun _ => harguments.andThen _).attempt

theorem subscript_below (hexpr : expr.Below expr') (container : NodeId) :
    (subscript expr container).Below (subscript expr' container) :=
  below_bind _ fun _ => below_bind _ fun _ => hexpr.andThen _

theorem selection_below (operand : NodeId) (h : m ≤ n) :
    (selection operand m).Below (selection operand n) := by
  apply below_bind
  intro head
  apply below_bind
  intro point
  apply below_bind
  intro parenthesis
  split
  · exact (typeExpr_below h).andThen _
  · exact .refl _

theorem suffixes_below (hexpr : expr.Below expr') (operand : NodeId) (h : m ≤ n) :
    (suffixes expr operand m).Below (suffixes expr' operand n) := by
  induction m generalizing n operand with
  | zero => exact stalled_below _
  | succ m ih =>
    obtain ⟨n, rfl⟩ : ∃ k, n = k + 1 := ⟨n - 1, by omega⟩
    apply below_bind
    intro t
    split
    · exact (call_below hexpr operand h).bind fun operand => ih operand (by omega)
    · exact (subscript_below hexpr operand).bind fun operand => ih operand (by omega)
    · exact (selection_below operand h).bind fun operand => ih operand (by omega)
    · exact .refl _

theorem unary_below (hexpr : expr.Below expr') {rounds rounds' : Nat} (hrounds : rounds ≤ rounds')
    (h : m ≤ n) : (unary expr rounds m).Below (unary expr' rounds' n) := by
  refine below_of_step rfl (fun m n _ ih => ?_) h
  apply Below.attempt
  apply below_bind
  intro t
  split
  · exact (primary_below hexpr).bind fun operand => suffixes_below hexpr operand hrounds
  · exact below_bind _ fun _ => ih.andThen _

theorem binaryTail_below {operand operand' : Production NodeId} (hoperand : operand.Below operand')
    (left : NodeId) (h : m ≤ n) :
    (binaryTail operand left m).Below (binaryTail operand' left n) := by
  induction m generalizing n left with
  | zero => exact stalled_below _
  | succ m ih =>
    obtain ⟨n, rfl⟩ : ∃ k, n = k + 1 := ⟨n - 1, by omega⟩
    apply below_bind
    intro t
    split
    · exact .refl _
    · exact below_bind _ fun _ => hoperand.bind fun right => below_bind _ fun left =>
        ih left (by omega)

theorem expression_below (h : m ≤ n) : (expression m).Below (expression n) := by
  refine below_of_step rfl (fun m n hle ih => ?_) h
  have h := Nat.succ_le_succ hle
  have hoperand := unary_below ih h h
  exact (hoperand.bind fun left => binaryTail_below hoperand left h).attempt

/-! ### Definitions and declarations -/

theorem definition_below (h : m ≤ n) : (definition m).Below (definition n) := by
  have hexprs := expressions_below (expression_below h) h
  have htype : (optionalType m).Below (optionalType n) := by
    apply below_bind
    intro begins
    split_ifs
    · exact (typeExpr_below h).andThen _
    · exact .refl _
  have hinits : (initializers m).Below (initializers n) := by
    apply below_bind
    intro equal
    split
    · exact hexprs
    · exact .refl _
  have hbody : (definitionBody m).Below (definitionBody n) := by
    apply below_bind
    intro inferred
    split
    · exact hexprs.andThen _
    · apply below_bind
      intro colon
      split_ifs
      · exact .refl _
      · exact below_bind _ fun _ => htype.bind fun _ => hinits.andThen _
  apply Below.attempt
  apply below_bind
  intro keyword
  exact (commaSeparated_below (.refl _) h).bind fun _ => hbody.andThen _

theorem paramGroup_below (h : m ≤ n) : (paramGroup m).Below (paramGroup n) :=
  (commaSeparated_below (.refl _) h).bind fun _ => below_bind _ fun _ => (typeExpr_below h).andThen
    _

theorem paramsTail_below (h : m ≤ n) {k l : Nat} (hl : k ≤ l) :
    (paramsTail m k).Below (paramsTail n l) := by
  induction k generalizing l with
  | zero => exact stalled_below _
  | succ k ih =>
    obtain ⟨l, rfl⟩ : ∃ j, l = j + 1 := ⟨l - 1, by omega⟩
    apply below_bind
    intro dots
    split
    · exact .refl _
    · apply (paramGroup_below h).bind
      intro group
      apply below_bind
      intro comma
      split
      · exact (ih (by omega)).andThen _
      · exact .refl _

theorem params_below (h : m ≤ n) : (params m).Below (params n) := by
  apply below_bind
  intro closes
  split
  · exact .refl _
  · exact paramsTail_below h h

theorem returns_below (h : m ≤ n) : (returns m).Below (returns n) := by
  apply below_bind
  intro opens
  split
  · apply below_bind
    intro closes
    split
    · exact .refl _
    · exact (commaSeparated_below (typeExpr_below h) h).andThen _
  · apply below_bind
    intro begins
    split_ifs
    · exact (typeExpr_below h).andThen _
    · exact .refl _

theorem struct_below (h : m ≤ n) : (struct m).Below (struct n) := by
  apply Below.attempt
  apply below_bind
  intro keyword
  apply below_bind
  intro brace
  exact (manyUntil_below _ (definition_below h) h).andThen _

variable {blockOf blockOf' inner inner' : Production NodeId}

theorem function_below (hblock : blockOf.Below blockOf') (h : m ≤ n) :
    (function blockOf m).Below (function blockOf' n) := by
  have hbody : (body blockOf).Below (body blockOf') := by
    apply below_bind
    intro foreign
    split
    · exact .refl _
    · apply below_bind
      intro t
      split_ifs
      · exact .refl _
      · exact hblock.andThen _
  apply Below.attempt
  apply below_bind
  intro keyword
  apply below_bind
  intro parenthesis
  exact (params_below h).bind fun _ => (returns_below h).bind fun _ => hbody.andThen _

theorem declaration_below (hblock : blockOf.Below blockOf') (h : m ≤ n) :
    (declaration blockOf m).Below (declaration blockOf' n) := by
  apply Below.attempt
  apply below_bind
  intro name
  apply below_bind
  intro colons
  exact (Below.firstOf (struct_below h) (.cons (function_below hblock h) (.cons (expression_below h)
    .nil))).andThen _

/-! ### Statements and files -/

theorem block_below (hinner : inner.Below inner') (h : m ≤ n) :
    (block inner m).Below (block inner' n) := by
  apply Below.attempt
  apply below_bind
  intro brace
  exact (manyUntil_below _ hinner h).andThen _

theorem ifStatement_below (hinner : inner.Below inner') (h : m ≤ n) :
    (ifStatement inner m).Below (ifStatement inner' n) := by
  have halternative : (alternative inner).Below (alternative inner') := by
    apply below_bind
    intro otherwise
    split
    · exact hinner.andThen _
    · exact .refl _
  apply Below.attempt
  apply below_bind
  intro keyword
  exact (expression_below h).bind fun _ => hinner.bind fun _ => halternative.andThen _

theorem whileStatement_below (hinner : inner.Below inner') (h : m ≤ n) :
    (whileStatement inner m).Below (whileStatement inner' n) := by
  apply Below.attempt
  apply below_bind
  intro keyword
  exact (expression_below h).bind fun _ => hinner.andThen _

theorem deferStatement_below (hinner : inner.Below inner') :
    (deferStatement inner).Below (deferStatement inner') :=
  (below_bind _ fun _ => hinner.andThen _).attempt

theorem returnStatement_below (h : m ≤ n) : (returnStatement m).Below (returnStatement n) := by
  have hvalues : (returnValues m).Below (returnValues n) := by
    apply below_bind
    intro ends
    split_ifs
    · exact .refl _
    · exact expressions_below (expression_below h) h
  exact (below_bind _ fun _ => hvalues.andThen _).attempt

theorem assignment_below (h : m ≤ n) : (assignment m).Below (assignment n) := by
  have hexprs := expressions_below (expression_below h) h
  exact (hexprs.bind fun _ => below_bind _ fun _ => hexprs.andThen _).attempt

theorem expressionStatement_below (h : m ≤ n) :
    (expressionStatement m).Below (expressionStatement n) :=
  ((expression_below h).andThen _).attempt

theorem statementOf_below (hinner : inner.Below inner') (h : m ≤ n) :
    (statementOf inner m).Below (statementOf inner' n) := by
  apply below_bind
  intro start
  split
  · exact block_below hinner h
  · exact ifStatement_below hinner h
  · exact whileStatement_below hinner h
  · exact deferStatement_below hinner
  · exact returnStatement_below h
  · exact .refl _
  · exact .refl _
  · exact definition_below h
  · apply Below.orUnexpected
    apply Below.firstOf (declaration_below (block_below hinner h) h)
    exact .cons (definition_below h) (.cons (assignment_below h)
      (.cons (expressionStatement_below h) .nil))

theorem statement_below (h : m ≤ n) : (statement m).Below (statement n) := by
  exact below_of_step rfl (fun m n hle ih => statementOf_below ih (Nat.succ_le_succ hle)) h

theorem topLevel_below (h : m ≤ n) : (topLevel m).Below (topLevel n) := by
  apply below_bind
  intro start
  split
  · exact .refl _
  · apply Below.orUnexpected
    apply Below.firstOf (declaration_below (block_below (statement_below h) h) h)
    exact .cons (definition_below h) .nil

theorem file_below (size : Nat) (h : m ≤ n) : (file size m).Below (file size n) :=
  ((manyUntil_below _ (topLevel_below h) h).andThen _).attempt

end MicroCompiler.Grammar
