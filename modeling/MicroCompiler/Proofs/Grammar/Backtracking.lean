import MicroCompiler.Proofs.Grammar.Completeness
import MicroCompiler.Proofs.Grammar.Steps

/-! Failed productions leave no trace. A rollback only cuts the tables back to their former sizes,
so it is exact only because no production changes a node that was there before it began: joining
operands, parentheses, the names of declarations and the flags of functions all change nodes in
place, but new ones only. The tokens to come are restored as well. What may differ is whether the
next token has been read ahead: a production looks at it to remember where it began, and so the
cursor then stands at that token and no longer before the gap in front of it. -/

namespace MicroCompiler.Grammar

open Ast (NodeId NodeKind Pool)
open Token (Cursor Kind)
open Production

variable {α : Type} {src : Source} {st st₁ st₂ : State} {e : Diagnostic} {ks : List Kind}
  {pool : Pool} {p : Production α}

/-- The second state has the tables of the first, and the next token of the first has been read
ahead. -/
structure Undone (src : Source) (st st' : State) : Prop where
  nodes : st'.pool.nodes = st.pool.nodes
  lists : st'.pool.lists = st.pool.lists
  cursor : st'.cursor = .reset (st.cursor.peek src).1

theorem Undone.trans (h : Undone src st st₁) (h' : Undone src st₁ st₂) : Undone src st st₂ where
  nodes := h'.nodes.trans h.nodes
  lists := h'.lists.trans h.lists
  cursor := by
    rw [h'.cursor, h.cursor]
    rfl

theorem Undone.sound (h : Undone src st st₁) (hst : st.cursor.Sound src) :
    st₁.cursor.Sound src := by
  rw [h.cursor]
  exact Cursor.sound_reset hst

/-- Reading a token ahead is no trace. -/
theorem Undone.of_peek (h : Undone src { st with cursor := (st.cursor.peek src).2 } st₁) :
    Undone src st st₁ where
  nodes := h.nodes
  lists := h.lists
  cursor := by
    rw [h.cursor]
    congr 1
    unfold Cursor.peek
    cases hahead : st.cursor.ahead <;> simp [hahead]

/-- What is never broken satisfies any judgement that asks more of broken outcomes. -/
theorem Production.Sat.of_false {Q : α → State → Prop} {E : State → Prop} {B : Prop}
    (h : p.Sat src st Q E False) : p.Sat src st Q E B := by
  unfold Production.Sat at h ⊢
  cases ho : p src st with
  | ok a st' => rwa [ho] at h
  | failed e st' => rwa [ho] at h
  | broken f =>
    rw [ho] at h
    exact h.elim

/-- Whenever the production fails, it has undone what it did. -/
def Undoes (src : Source) (p : Production α) : Prop :=
  ∀ ⦃st st' : State⦄ ⦃e : Diagnostic⦄, st.cursor.Sound src → p src st = .failed e st' →
    Undone src st st'

/-! ### Attempts and choices -/

/-- A failure of the production goes back to its first token. -/
def GoesBack (p : Production α) : Prop :=
  ∀ ⦃src : Source⦄ ⦃st st' : State⦄ ⦃e : Diagnostic⦄, p src st = .failed e st' →
    st'.cursor = .reset (st.cursor.peek src).1

theorem goesBack_stalled : GoesBack (stalled : Production α) := by
  intro src st st' e hfail
  cases hfail

theorem goesBack_attempt (p : Production α) : GoesBack (attempt p) := by
  intro src st st' e hfail
  simp only [attempt] at hfail
  split at hfail
  next => cases hfail; rfl
  next hother => exact absurd hfail (hother _ _)

/-- A failure of the production from this state gives the tables back; nothing is said of its other
outcomes. -/
def Restores (src : Source) (p : Production α) (st : State) : Prop :=
  p.Sat src st (fun _ _ => True) (fun st' => st'.pool.nodes = st.pool.nodes ∧ st'.pool.lists =
    st.pool.lists) True

/-- An attempt that fails in an extension of the pool gives its tables back. -/
theorem restores_attempt (h : At src st ks pool)
    (hp : ∀ st', At src st' ks pool → p.Sat src st' (fun _ _ => True) (fun st'' =>
      pool.Extends st''.pool) True) :
    Restores src (attempt p) st := by
  apply sat_attempt h hp
  intro st' st'' hext h''
  rw [h''.pool, h.pool]
  exact hext.rollback

theorem Tries.restores {bound : Nat} {post : Pool → α → Pool → List Kind → List Kind → Prop}
    (htries : Tries src p bound post) (h : At src st ks pool) (hlen : ks.length ≤ bound) :
    Restores src p st := by
  refine ((htries h hlen).of_false).mono (fun _ _ _ => trivial) ?_
  intro st' ⟨q, hat, hnodes, hlists⟩
  rw [hat.pool, h.pool]
  exact ⟨hnodes, hlists⟩

/-- Whether a failure gives the tables back may be decided with more steps than the production
takes. -/
theorem undoes_of_restores (hback : GoesBack p)
    (h : ∀ st ks pool, At src st ks pool → ∃ q : Production α, p.Below q ∧ Restores src q st) :
    Undoes src p := by
  intro st st' e hst hfail
  obtain ⟨q, hbelow, hsat⟩ := h st _ _ ⟨hst, rfl, rfl⟩
  rw [Restores, Production.Sat, hbelow.eq_of_failed hfail] at hsat
  exact ⟨hsat.1, hsat.2, hback hfail⟩

theorem undoes_of_steps {f : Nat → Production α}
    {post : Pool → α → Pool → List Kind → List Kind → Prop} (hback : GoesBack p) (least : Nat)
    (hbelow : ∀ n, least ≤ n → p.Below (f n)) (htries : ∀ n, Tries src (f n) n post) :
    Undoes src p := by
  apply undoes_of_restores hback
  intro st ks pool hat
  exact ⟨f (least + ks.length), hbelow _ (by omega), (htries _).restores hat (by omega)⟩

theorem undoes_orElse {ps : List (Production α)} (hps : ∀ p ∈ ps, Undoes src p) {best : Diagnostic}
    (h : Undone src st st₁) (hst : st.cursor.Sound src)
    (hfail : orElse best ps src st₁ = .failed e st₂) :
    Undone src st st₂ := by
  induction ps generalizing best st₁ with
  | nil =>
    cases hfail
    exact h
  | cons p ps ih =>
    simp only [orElse] at hfail
    split at hfail
    next e' st' hp =>
      have hundone := h.trans (hps p (by simp) (h.sound hst) hp)
      exact ih (fun q hq => hps q (by simp [hq])) hundone hfail
    next hother => exact absurd hfail (hother _ _)

theorem undoes_firstOf {ps : List (Production α)} (hp : Undoes src p)
    (hps : ∀ q ∈ ps, Undoes src q) : Undoes src (firstOf (p :: ps)) := by
  intro st st' e hst hfail
  simp only [firstOf] at hfail
  split at hfail
  next e' st₁ hfirst => exact undoes_orElse hps (hp hst hfirst) hst hfail
  next hother => exact absurd hfail (hother _ _)

theorem undoes_orUnexpected {code : Diagnostic.Code} {wanted : String} {start : Token}
    (hp : Undoes src p) : Undoes src (orUnexpected code wanted start p) := by
  intro st st' e hst hfail
  simp only [orUnexpected] at hfail
  split at hfail
  next e' st₁ hinner =>
    obtain rfl : st₁ = st' := by
      split_ifs at hfail <;> cases hfail <;> rfl
    exact hp hst hinner
  next hother => exact absurd hfail (hother _ _)

/-- A choice by the next token undoes what it did if every branch does. -/
theorem undoes_peek {f : Token → Production α} (hf : ∀ t, Undoes src (f t)) :
    Undoes src (peek >>= f) :=
  fun _ _ _ hst hfail => (hf _ (Cursor.sound_peek hst) hfail).of_peek

/-! ### Types and expressions -/

theorem typeExpr_undoes (depth : Nat) : Undoes src (typeExpr depth) := by
  refine undoes_of_steps ?_ depth (fun _ => typeExpr_below) typeExpr_reads
  cases depth with
  | zero => exact goesBack_stalled
  | succ depth => exact goesBack_attempt _

theorem expression_undoes (depth : Nat) : Undoes src (expression depth) := by
  refine undoes_of_steps ?_ depth (fun _ => expression_below) expression_reads
  cases depth with
  | zero => exact goesBack_stalled
  | succ depth => exact goesBack_attempt _

theorem expressions_undoes (depth rounds : Nat) :
    Undoes src (expressions (expression depth) rounds) := by
  refine undoes_of_steps (goesBack_attempt _) (max depth rounds) (fun n hn => ?_) fun n =>
    expressions_reads (expression_reads n).reads le_rfl
  exact expressions_below (expression_below (by omega)) (by omega)

theorem primary_undoes (depth : Nat) : Undoes src (primary (expression depth)) :=
  undoes_of_steps (goesBack_attempt _) depth (fun _ hn => primary_below (expression_below hn))
    fun n =>
    (primary_reads (expression_reads n).reads).of_le (by omega)

theorem unary_undoes (depth rounds levels : Nat) :
    Undoes src (unary (expression depth) rounds levels) := by
  refine undoes_of_steps ?_ (max depth (max rounds levels)) (fun n hn => ?_) fun n =>
    (unary_reads (expression_reads n).reads (le_refl (n + 1)) n).of_le (by omega)
  · cases levels with
    | zero => exact goesBack_stalled
    | succ levels => exact goesBack_attempt _
  · exact unary_below (expression_below (by omega)) (by omega) (by omega)

/-- A call reads no node but the callee, and changes none. -/
theorem call_undoes (depth rounds : Nat) (callee : NodeId) :
    Undoes src (call (expression depth) callee rounds) := by
  apply undoes_of_restores (goesBack_attempt _)
  intro st ks pool h
  have hbelow := call_below (expression_below (show depth ≤ depth + rounds + ks.length by omega))
    callee (show rounds ≤ depth + rounds + ks.length by omega)
  refine ⟨_, hbelow, restores_attempt h ?_⟩
  intro st₁ h₁
  obtain ⟨k, ks, rfl⟩ := h₁.exists_cons
  refine (sat_expectAs h₁ rfl fun _ _ hp => hp ▸ .refl _).andThen ?_
  rintro _ st₂ ⟨-, h₂⟩
  have hargs := arguments_reads (@expression_reads src (depth + rounds + (k :: ks).length)).reads
    le_rfl
  simp only [List.length_cons] at hargs ⊢
  refine ((hargs h₂ (by omega)).of_false).andThen ?_
  rintro args st₃ ⟨xs, ys, q, -, h₃, hext, -⟩
  obtain ⟨k, ys, rfl⟩ := h₃.exists_cons
  refine (sat_expectAs h₃ rfl fun _ _ hp => hp ▸ hext).andThen ?_
  rintro close st₄ ⟨-, h₄⟩
  refine (sat_allocList h₄).andThen ?_
  intro list st₅ h₅
  exact Sat.mono (Accepts.sat_nil (spanOf_accepts.after fun _ _ => alloc_accepts) h₅) (fun _ _ _ =>
    trivial) fun _ he => he

/-! ### Definitions and declarations -/

theorem definition_undoes (rounds : Nat) : Undoes src (definition rounds) :=
  undoes_of_steps (goesBack_attempt _) rounds (fun _ => definition_below) definition_reads

theorem struct_undoes (rounds : Nat) : Undoes src (struct rounds) :=
  undoes_of_steps (goesBack_attempt _) rounds (fun _ => struct_below) struct_reads

/-- With enough steps for a text, a block reads all of it. -/
theorem block_reads_all (steps : Nat) :
    Tries src (block (statement steps) steps) steps (StmtPost .block) :=
  (block_reads (statement_reads steps) le_rfl).of_le (by omega)

theorem function_undoes (depth rounds limit : Nat) :
    Undoes src (function (block (statement depth) rounds) limit) := by
  refine undoes_of_steps (goesBack_attempt _) (max depth (max rounds limit))
    (fun n hn => ?_) fun n =>
    function_reads (block_reads_all n).reads le_rfl
  exact function_below (block_below (statement_below (by omega)) (by omega)) (by omega)

theorem declaration_undoes (depth rounds limit : Nat) :
    Undoes src (declaration (block (statement depth) rounds) limit) := by
  refine undoes_of_steps (goesBack_attempt _) (max depth (max rounds limit))
    (fun n hn => ?_) fun n =>
    declaration_reads (block_reads_all n).reads le_rfl
  exact declaration_below (block_below (statement_below (by omega)) (by omega)) (by omega)

/-! ### Statements -/

theorem block_undoes (depth rounds : Nat) : Undoes src (block (statement depth) rounds) := by
  refine undoes_of_steps (goesBack_attempt _) (max depth rounds) (fun n hn => ?_) block_reads_all
  exact block_below (statement_below (by omega)) (by omega)

theorem ifStatement_undoes (depth rounds : Nat) :
    Undoes src (ifStatement (statement depth) rounds) := by
  refine undoes_of_steps (goesBack_attempt _) (max depth rounds) (fun n hn => ?_) fun n =>
    (ifStatement_reads (statement_reads n) le_rfl).of_le (by omega)
  exact ifStatement_below (statement_below (by omega)) (by omega)

theorem whileStatement_undoes (depth rounds : Nat) :
    Undoes src (whileStatement (statement depth) rounds) := by
  refine undoes_of_steps (goesBack_attempt _) (max depth rounds) (fun n hn => ?_) fun n =>
    (whileStatement_reads (statement_reads n) le_rfl).of_le (by omega)
  exact whileStatement_below (statement_below (by omega)) (by omega)

theorem deferStatement_undoes (depth : Nat) : Undoes src (deferStatement (statement depth)) :=
  undoes_of_steps (goesBack_attempt _) depth (fun _ hn => deferStatement_below (statement_below hn))
    fun n =>
    (deferStatement_reads (statement_reads n)).of_le (by omega)

theorem returnStatement_undoes (rounds : Nat) : Undoes src (returnStatement rounds) :=
  undoes_of_steps (goesBack_attempt _) rounds (fun _ => returnStatement_below) returnStatement_reads

/-- A keyword with its semicolon writes nothing before it has read both, even at the end of the
file. -/
theorem jumpStatement_undoes (kind : NodeKind) : Undoes src (jumpStatement kind) := by
  apply undoes_of_restores (goesBack_attempt _)
  intro st ks pool h
  refine ⟨_, .refl _, restores_attempt h ?_⟩
  intro st₁ h₁
  have heat : eat.Sat src st₁ (fun _ st₂ => ∃ k rest, At src st₂ (k :: rest) pool)
      (fun st₂ => pool.Extends st₂.pool) True := by
    have h₂ : At src { st₁ with cursor := (st₁.cursor.eat src).2 } _ pool :=
      ⟨Cursor.sound_eat _ _, rfl, h₁.pool⟩
    obtain ⟨k, rest, hrest⟩ := h₂.exists_cons
    exact ⟨k, rest, hrest ▸ h₂⟩
  refine heat.andThen ?_
  rintro keyword st₂ ⟨k, rest, h₂⟩
  refine (sat_expectAs h₂ rfl fun _ _ hp => hp ▸ .refl _).andThen ?_
  rintro semi st₃ ⟨-, h₃⟩
  exact (sat_alloc h₃).mono (fun _ _ _ => trivial) fun _ he => he

theorem assignment_undoes (rounds : Nat) : Undoes src (assignment rounds) :=
  undoes_of_steps (goesBack_attempt _) rounds (fun _ => assignment_below) assignment_reads

theorem expressionStatement_undoes (rounds : Nat) : Undoes src (expressionStatement rounds) :=
  undoes_of_steps (goesBack_attempt _) rounds (fun _ => expressionStatement_below)
    expressionStatement_reads

/-- A statement is no attempt itself: it looks at its first token and leaves the rest to one attempt
or several. -/
theorem statement_undoes (depth : Nat) : Undoes src (statement depth) := by
  cases depth with
  | zero =>
    intro st st' e _ hfail
    cases hfail
  | succ depth =>
    apply undoes_peek
    intro start
    split
    · exact block_undoes _ _
    · exact ifStatement_undoes _ _
    · exact whileStatement_undoes _ _
    · exact deferStatement_undoes _
    · exact returnStatement_undoes _
    · exact jumpStatement_undoes _
    · exact jumpStatement_undoes _
    · exact definition_undoes _
    · apply undoes_orUnexpected
      apply undoes_firstOf (declaration_undoes _ _ _)
      simp only [List.forall_mem_cons]
      exact ⟨definition_undoes _, assignment_undoes _, expressionStatement_undoes _, by simp⟩

/-! ### Files -/

theorem loadDirective_undoes : Undoes src loadDirective :=
  undoes_of_steps (goesBack_attempt _) 0 (fun _ _ => .refl _) loadDirective_reads

theorem topLevel_undoes (rounds : Nat) : Undoes src (topLevel rounds) := by
  apply undoes_peek
  intro start
  split
  · exact loadDirective_undoes
  · apply undoes_orUnexpected
    apply undoes_firstOf (declaration_undoes _ _ _)
    simp only [List.forall_mem_cons]
    exact ⟨definition_undoes _, by simp⟩

theorem file_undoes (size rounds : Nat) : Undoes src (file size rounds) :=
  undoes_of_steps (goesBack_attempt _) rounds (fun _ => file_below size) (file_reads size)

/-! ### No trace -/

/-- The cursors that reading a text leads to. -/
inductive Reached (src : Source) : Cursor → Prop
  | start : Reached src .start
  | peek {c : Cursor} (h : Reached src c) : Reached src (c.peek src).2
  | eat {c : Cursor} (h : Reached src c) : Reached src (c.eat src).2
  | reset {c : Cursor} (h : Reached src c) : Reached src (.reset (c.peek src).1)

theorem Reached.sound {c : Cursor} (h : Reached src c) : c.Sound src := by
  induction h with
  | start => exact Cursor.sound_start src
  | peek _ ih => exact Cursor.sound_peek ih
  | eat _ _ => exact Cursor.sound_eat _ src
  | reset _ ih => exact Cursor.sound_reset ih

/-- The productions that are alternatives somewhere in the grammar, or that consist of such
alternatives, with any bounds on the numbers of their steps. -/
inductive Alternative : {α : Type} → Production α → Prop
  | typeExpr (depth : Nat) : Alternative (typeExpr depth)
  | expression (depth : Nat) : Alternative (expression depth)
  | expressions (depth rounds : Nat) : Alternative (expressions (expression depth) rounds)
  | unary (depth rounds levels : Nat) : Alternative (unary (expression depth) rounds levels)
  | call (depth rounds : Nat) (callee : NodeId) : Alternative
    (call (expression depth) callee rounds)
  | primary (depth : Nat) : Alternative (primary (expression depth))
  | definition (rounds : Nat) : Alternative (definition rounds)
  | struct (rounds : Nat) : Alternative (struct rounds)
  | function (depth rounds limit : Nat) : Alternative
    (function (block (statement depth) rounds) limit)
  | declaration (depth rounds limit : Nat) : Alternative
    (declaration (block (statement depth) rounds) limit)
  | block (depth rounds : Nat) : Alternative (block (statement depth) rounds)
  | ifStatement (depth rounds : Nat) : Alternative (ifStatement (statement depth) rounds)
  | whileStatement (depth rounds : Nat) : Alternative (whileStatement (statement depth) rounds)
  | deferStatement (depth : Nat) : Alternative (deferStatement (statement depth))
  | returnStatement (rounds : Nat) : Alternative (returnStatement rounds)
  | jumpStatement (kind : NodeKind) : Alternative (jumpStatement kind)
  | assignment (rounds : Nat) : Alternative (assignment rounds)
  | expressionStatement (rounds : Nat) : Alternative (expressionStatement rounds)
  | statement (depth : Nat) : Alternative (statement depth)
  | loadDirective : Alternative loadDirective
  | topLevel (rounds : Nat) : Alternative (topLevel rounds)
  | file (size rounds : Nat) : Alternative (file size rounds)

theorem Alternative.undoes (h : Alternative p) : Undoes src p := by
  cases h with
  | typeExpr depth => exact typeExpr_undoes depth
  | expression depth => exact expression_undoes depth
  | expressions depth rounds => exact expressions_undoes depth rounds
  | unary depth rounds levels => exact unary_undoes depth rounds levels
  | call depth rounds callee => exact call_undoes depth rounds callee
  | primary depth => exact primary_undoes depth
  | definition rounds => exact definition_undoes rounds
  | struct rounds => exact struct_undoes rounds
  | function depth rounds limit => exact function_undoes depth rounds limit
  | declaration depth rounds limit => exact declaration_undoes depth rounds limit
  | block depth rounds => exact block_undoes depth rounds
  | ifStatement depth rounds => exact ifStatement_undoes depth rounds
  | whileStatement depth rounds => exact whileStatement_undoes depth rounds
  | deferStatement depth => exact deferStatement_undoes depth
  | returnStatement rounds => exact returnStatement_undoes rounds
  | jumpStatement kind => exact jumpStatement_undoes kind
  | assignment rounds => exact assignment_undoes rounds
  | expressionStatement rounds => exact expressionStatement_undoes rounds
  | statement depth => exact statement_undoes depth
  | loadDirective => exact loadDirective_undoes
  | topLevel rounds => exact topLevel_undoes rounds
  | file size rounds => exact file_undoes size rounds

/-- With its next token read ahead, a cursor is what going back to that token makes of it. -/
theorem reset_peek_of_ahead {c : Cursor} (h : c.Sound src) (hahead : c.ahead.isSome) :
    .reset (c.peek src).1 = c := by
  obtain ⟨t, ht⟩ := Option.isSome_iff_exists.mp hahead
  have hoffset := (h t ht).2
  obtain ⟨offset, ahead⟩ := c
  subst ht hoffset
  rfl

/-- A production that fails leaves the tables of the pool, the next token and all that follow it as
they were. The cursor is the same too if the next token had been read ahead, and else it now stands
at that token. -/
theorem failed_leaves_no_trace {p : Production α} (hp : Alternative p) {st' : State}
    (hst : Reached src st.cursor) (hfail : p src st = .failed e st') :
    st'.pool.nodes = st.pool.nodes ∧ st'.pool.lists = st.pool.lists ∧
      (st'.cursor.peek src).1 = (st.cursor.peek src).1 ∧ st'.cursor.rest src = st.cursor.rest src ∧
      st'.cursor.position = (st.cursor.peek src).1.span.start ∧
      (st.cursor.ahead.isSome → st'.cursor = st.cursor) := by
  have hundone := hp.undoes hst.sound hfail
  refine ⟨hundone.nodes, hundone.lists, ?_, ?_, ?_, ?_⟩
  · rw [hundone.cursor]
    rfl
  · rw [hundone.cursor, Cursor.rest_reset hst.sound]
  · rw [hundone.cursor]
    rfl
  · intro hahead
    rw [hundone.cursor, reset_peek_of_ahead hst.sound hahead]

/-- The state in which a failed outcome ends. -/
def Outcome.failure? : Outcome α → Option State
  | .failed _ st => some st
  | _ => none

theorem Outcome.exists_of_failure? {β : Type} {o : Outcome α} {f : State → β} {b : β}
    (h : o.failure?.map f = some b) : ∃ e st', o = .failed e st' ∧ f st' = b := by
  cases o with
  | failed e st' => exact ⟨e, st', rfl, by simpa [failure?] using h⟩
  | ok a st' => simp [failure?] at h
  | broken fault => simp [failure?] at h

/-- The text `a+b;` is no assignment. Three nodes were made and joined before that showed, and none
of them is left. -/
theorem failed_leaves_no_trace_sum :
    ∃ e st', assignment 5 ⟨[97, 43, 98, 59]⟩ ⟨.start, ((Pool.empty 0).alloc .nil ⟨0, 0⟩).2⟩ =
      .failed e st' ∧ st'.pool.made = 4 ∧
      st'.pool.nodes = ((Pool.empty 0).alloc .nil ⟨0, 0⟩).2.nodes := by
  have hmade : (assignment 5 ⟨[97, 43, 98, 59]⟩ ⟨.start, ((Pool.empty 0).alloc .nil ⟨0,
    0⟩).2⟩).failure?.map
      (·.pool.made) = some 4 := by
    decide +kernel
  obtain ⟨e, st', hfail, hmade⟩ := Outcome.exists_of_failure? hmade
  exact ⟨e, st', hfail, hmade, (failed_leaves_no_trace (.assignment 5) .start hfail).1⟩

/-- The position need not be the same: an expression that fails behind a blank leaves the cursor
behind it. -/
theorem failed_position_moves :
    ¬ ∀ (p : Production NodeId) (src : Source) (st st' : State) (e : Diagnostic), Alternative p →
      Reached src st.cursor → p src st = .failed e st' →
      st'.cursor.position = st.cursor.position := by
  intro hsame
  have hmoved : (expression 3 ⟨[32, 59]⟩ ⟨.start, .empty 0⟩).failure?.map (·.cursor.position) =
      some 1 := by
    decide +kernel
  obtain ⟨e, st', hfail, hposition⟩ := Outcome.exists_of_failure? hmoved
  have hstart := hsame _ _ _ _ _ (.expression 3) .start hfail
  rw [hposition] at hstart
  exact absurd hstart (by decide)

end MicroCompiler.Grammar
