import MicroCompiler.Proofs.Errors.Careful
import MicroCompiler.Proofs.Grammar.Recognizer
import MicroCompiler.Proofs.Layout.Independence

/-! Expressions fail at the first token that cannot be right. The productions of expressions walk
along with the recognizer: a production that succeeds has led it from one place to another, and a
production that fails points at the token on which it is stuck, however deep inside it failed. -/

namespace MicroCompiler

/-- The tokens up to the first malformed one, which is the last of them, or up to the end of the
file. -/
def Source.scanned (src : Source) : List Token :=
  src.tokens.takeWhile (!·.kind.isError) ++ src.firstError?.toList

/-- The token is not malformed, and as an integer it is below 2^64. -/
def Token.Fits (src : Source) (t : Token) : Prop :=
  t.kind.isError = false ∧
    (t.kind = .number → '.' ∉ (src.text t.span).toList → Ast.Number.ofDigits
    (src.text t.span).toList < 2 ^ 64)

namespace Source

variable {src : Source} {t : Token} {before after : List Token}

theorem scanned_eq_tokens (h : ∀ t ∈ src.tokens, t.kind.isError = false) :
    src.scanned = src.tokens := by
  have hfirst : src.firstError? = none := by simpa [firstError?] using h
  have htake : src.tokens.takeWhile (!·.kind.isError) = src.tokens :=
    List.takeWhile_eq_self_iff.mpr fun t ht => by simp [h t ht]
  rw [scanned, hfirst, htake, Option.toList_none, List.append_nil]

/-- If the end of the file is reached, no token is malformed. -/
theorem isError_of_scanned (h : src.scanned = before ++ [t]) (ht : t.kind = .eof) :
    ∀ u ∈ src.tokens, u.kind.isError = false := by
  cases hfirst : src.firstError? with
  | none => simpa [firstError?] using hfirst
  | some u =>
    have hu : u.kind.isError = true := by simpa using List.find?_some hfirst
    rw [scanned, hfirst, Option.toList_some] at h
    obtain ⟨-, hlast⟩ := List.append_inj' h rfl
    rw [List.singleton_inj.mp hlast, ht] at hu
    cases hu

/-- A token with no malformed ones before it is among those scanned, at its place. -/
theorem scanned_of_tokens (h : src.tokens = before ++ t :: after)
    (hbefore : ∀ u ∈ before, u.kind.isError = false) :
    ∃ rest, src.scanned = before ++ t :: rest := by
  have hall (u : Token) (hu : u ∈ before) : (!u.kind.isError) = true := by simp [hbefore u hu]
  have hnone : before.find? (·.kind.isError) = none := by simpa using hbefore
  rw [scanned, firstError?, h, List.takeWhile_append_of_pos hall, List.find?_append,
    hnone, Option.none_or]
  cases ht : t.kind.isError with
  | true => exact ⟨[], by simp [ht]⟩
  | false =>
    exact ⟨_, by simp only [List.takeWhile_cons, List.find?_cons, ht]; rw [List.append_assoc]; rfl⟩

end Source

namespace Grammar

open Ast (BinaryOp Node NodeId NodeKind Number Pool UnaryOp)
open Token (Cursor Kind)
open Production

variable {α β : Type} {src : Source} {st : State} {t : Token} {p : Production α} {e : Diagnostic}
  {r r' r'' : Recognizer} {opened : List Bracket} {f : α → Production β}

/-! ### Along with the recognizer -/

/-- The tokens consumed so far bring the recognizer to where the next token leads it the same way as
from `r`. -/
structure Follows (src : Source) (st : State) (r : Recognizer) : Prop where
  sound : st.cursor.Sound src
  path : ∃ before r₀, src.tokens = before ++ st.cursor.rest src ∧
    Recognizer.start.run (before.map (symbolOf src)) = some r₀ ∧
      r₀.step (symbolOf src (st.cursor.peek src).1) = r.step (symbolOf src (st.cursor.peek src).1)

/-- The diagnostic points at the token on which the recognizer is stuck. -/
def Stuck (src : Source) (e : Diagnostic) : Prop :=
  ∃ before t after r, src.tokens = before ++ t :: after ∧
    Recognizer.start.run (before.map (symbolOf src)) = some r ∧
    r.step (symbolOf src t) = none ∧ e.offset = t.span.start

namespace Follows

theorem start (src : Source) (pool : Pool) : Follows src ⟨.start, pool⟩ .start :=
  ⟨Cursor.sound_start src, [], _, rfl, rfl, rfl⟩

section

variable (h : Follows src st r)

include h

theorem stands : Stands src st (st.cursor.peek src).1 st.pool := ⟨h.sound, rfl, rfl⟩

theorem peek : Follows src { st with cursor := (st.cursor.peek src).2 } r := by
  refine ⟨Cursor.sound_peek h.sound, ?_⟩
  rw [Cursor.rest_peek, h.stands.peek.next]
  exact h.path

theorem setPool (q : Pool) : Follows src { st with pool := q } r := ⟨h.sound, h.path⟩

/-- Places that the next token does not tell apart. -/
theorem acts (hstep : r.step (symbolOf src (st.cursor.peek src).1) =
      r'.step (symbolOf src (st.cursor.peek src).1)) :
    Follows src st r' := by
  obtain ⟨before, r₀, htokens, hrun, hnext⟩ := h.path
  exact ⟨h.sound, before, r₀, htokens, hrun, hnext.trans hstep⟩

theorem eat (heof : (st.cursor.peek src).1.kind ≠ .eof)
    (hstep : r.step (symbolOf src (st.cursor.peek src).1) = some r') :
    Follows src { st with cursor := (st.cursor.eat src).2 } r' := by
  obtain ⟨before, r₀, htokens, hrun, hnext⟩ := h.path
  rw [Cursor.rest_eq, if_neg heof] at htokens
  refine ⟨Cursor.sound_eat _ _, before ++ [(st.cursor.peek src).1],
    r', by simpa using htokens, ?_, rfl⟩
  rw [List.map_append]
  exact Recognizer.run_trans hrun (Recognizer.run_step (hnext.trans hstep) rfl)

theorem stuck (hstep : r.step (symbolOf src (st.cursor.peek src).1) = none)
    (he : e.offset = (st.cursor.peek src).1.span.start) : Stuck src e := by
  obtain ⟨before, r₀, htokens, hrun, hnext⟩ := h.path
  rw [Cursor.rest_eq] at htokens
  split_ifs at htokens
  · exact ⟨before, _, _, r₀, htokens, hrun, hnext.trans hstep, he⟩
  · exact ⟨before, _, _, r₀, htokens, hrun, hnext.trans hstep, he⟩

/-- At the end of the file the recognizer has read all but the last token. -/
theorem run_tokens (heof : (st.cursor.peek src).1.kind = .eof) (hstep : r.step .eof = some r') :
    Recognizer.start.run (src.tokens.map (symbolOf src)) = some r' := by
  obtain ⟨before, r₀, htokens, hrun, hnext⟩ := h.path
  have hsymbol : symbolOf src (st.cursor.peek src).1 = .eof :=
    (kind_eq_iff src rfl).mp heof
  rw [hsymbol] at hnext
  rw [Cursor.rest_eq, if_pos heof] at htokens
  rw [htokens, List.map_append, List.map_singleton, hsymbol]
  exact Recognizer.run_trans hrun (Recognizer.run_step (hnext.trans hstep) rfl)

end

end Follows

/-! ### Outcomes -/

/-- A success has led the recognizer to `r`, and a failure points at where it is stuck. -/
def Outcome.LeadsTo (src : Source) (r : Recognizer) : Outcome α → Prop
  | .ok _ st => Follows src st r
  | .failed e _ => Stuck src e
  | .broken _ => True

/-- The production leads the recognizer from `r` to `r'`. -/
def Leads (src : Source) (r : Recognizer) (p : Production α) (r' : Recognizer) : Prop :=
  ∀ ⦃st : State⦄, Follows src st r → (p src st).LeadsTo src r'

/-- The same where a token is known to be next. -/
def LeadsAt (src : Source) (t : Token) (r : Recognizer) (p : Production α) (r' : Recognizer) :
    Prop :=
  ∀ ⦃st : State⦄, Follows src st r → (st.cursor.peek src).1 = t → (p src st).LeadsTo src r'

theorem Outcome.LeadsTo.bind (h : (p src st).LeadsTo src r') (hf : ∀ a, Leads src r' (f a) r'') :
    ((p >>= f) src st).LeadsTo src r'' := by
  simp only [Bind.bind, Production.bind]
  cases ho : p src st with
  | ok a st' =>
    rw [ho] at h
    exact hf a h
  | failed e st' =>
    rw [ho] at h
    exact h
  | broken f => trivial

/-- The production cannot fail, and the cursor stays where it is. -/
def Quiet (p : Production α) : Prop :=
  ∀ src st, (∃ a pool, p src st = .ok a { st with pool }) ∨ ∃ fault, p src st = .broken fault

theorem quiet_pure (a : α) : Quiet (pure a) := fun _ _ => .inl ⟨a, _, rfl⟩

theorem Quiet.bind (h : Quiet p) (hf : ∀ a, Quiet (f a)) : Quiet (p >>= f) := by
  intro src st
  simp only [Bind.bind, Production.bind]
  rcases h src st with ⟨a, pool, ho⟩ | ⟨fault, ho⟩
  · rw [ho]
    exact hf a src { st with pool }
  · rw [ho]
    exact .inr ⟨fault, rfl⟩

theorem quiet_alloc (kind : NodeKind) (span : Span) : Quiet (alloc kind span) :=
  fun _ _ => .inl ⟨_, _, rfl⟩

theorem quiet_allocList (ids : List NodeId) : Quiet (allocList ids) := fun _ _ => .inl ⟨_, _, rfl⟩

theorem quiet_node (id : NodeId) : Quiet (node id) := by
  intro src st
  simp only [node]
  cases st.pool.get (some id) with
  | ok n => exact .inl ⟨n, _, rfl⟩
  | error fault => exact .inr ⟨_, rfl⟩

theorem quiet_spanOf (id : NodeId) : Quiet (spanOf id) :=
  (quiet_node id).bind fun n => quiet_pure n.span

theorem quiet_update (id : NodeId) (f : Node → Node) : Quiet (update id f) := by
  intro src st
  simp only [update]
  cases st.pool.modify (some id) f with
  | ok pool => exact .inl ⟨(), pool, rfl⟩
  | error fault => exact .inr ⟨_, rfl⟩

theorem quiet_attach (left : NodeId) (op : BinaryOp) (right : NodeId) :
    Quiet (attach left op right) := by
  intro src st
  simp only [attach]
  cases st.pool.attachBinary left op right with
  | ok result => exact .inl ⟨_, result.2, rfl⟩
  | error fault => exact .inr ⟨_, rfl⟩

theorem Quiet.leads (h : Quiet p) : Leads src r p r := by
  intro st hst
  rcases h src st with ⟨a, pool, ho⟩ | ⟨fault, ho⟩
  · rw [ho]
    exact hst.setPool pool
  · rw [ho]
    trivial

/-! A number out of range is seen as a malformed token, which leads nowhere. So what a token leads
to is what its kind leads to, unless it is such a number. -/

theorem step_symbolOf_congr (h : r.step t.kind = r'.step t.kind) :
    r.step (symbolOf src t) = r'.step (symbolOf src t) := by
  unfold symbolOf
  split_ifs
  · rw [r.step_of_isError rfl, r'.step_of_isError rfl]
  · exact h

theorem step_symbolOf_eq_none (h : r.step t.kind = none) : r.step (symbolOf src t) = none := by
  unfold symbolOf
  split_ifs
  · exact r.step_of_isError rfl
  · exact h

namespace LeadsAt

theorem acts (hstep : r.step t.kind = r'.step t.kind) (h : LeadsAt src t r' p r'') :
    LeadsAt src t r p r'' := by
  rintro st hst rfl
  exact h (hst.acts (step_symbolOf_congr hstep)) rfl

theorem pure (hstep : r.step t.kind = r'.step t.kind) (a : α) :
    LeadsAt src t r (pure a : Production α) r' := by
  rintro st hst rfl
  exact hst.acts (step_symbolOf_congr hstep)

theorem bind (h : LeadsAt src t r p r') (hf : ∀ a, Leads src r' (f a) r'') :
    LeadsAt src t r (p >>= f) r'' := fun _ hst hnext => (h hst hnext).bind hf

theorem quiet_bind (h : Quiet p) (hf : ∀ a, LeadsAt src t r (f a) r') :
    LeadsAt src t r (p >>= f) r' := by
  intro st hst hnext
  simp only [Bind.bind, Production.bind]
  rcases h src st with ⟨a, pool, ho⟩ | ⟨fault, ho⟩
  · rw [ho]
    exact hf a (hst.setPool pool) hnext
  · rw [ho]
    trivial

theorem attempt (h : LeadsAt src t r p r') : LeadsAt src t r (attempt p) r' := by
  rintro st hst rfl
  have ho := h hst.peek hst.stands.peek.next
  simp only [Production.attempt]
  cases hp : p src { st with cursor := (st.cursor.peek src).2 } with
  | ok a st' =>
    rw [hp] at ho
    exact ho
  | failed e st' =>
    rw [hp] at ho
    exact ho
  | broken f => trivial

theorem peek {f : Token → Production α} (hf : LeadsAt src t r (f t) r') :
    LeadsAt src t r (Production.peek >>= f) r' := by
  rintro st hst rfl
  exact hf hst.peek hst.stands.peek.next

/-- The next token is consumed, and the recognizer goes with it. -/
theorem eat {k : Kind} {f : Token → Production α} (hkind : t.kind = k) (hk : isFixed k)
    (hstep : r.step k = some r') (hf : Leads src r' (f t) r'') :
    LeadsAt src t r (Production.eat >>= f) r'' := by
  subst hkind
  rintro st hst rfl
  exact hf (hst.eat (ne_eof_of_isFixed hk)
    (by rwa [(kind_eq_iff src (isPlain_of_isFixed hk)).mp rfl]))

theorem unexpected (hstep : r.step t.kind = none) (code : Diagnostic.Code) (wanted : String) :
    LeadsAt src t r (unexpected code wanted t : Production α) r' := by
  rintro st hst rfl
  exact hst.stuck (step_symbolOf_eq_none hstep) (Diagnostic.expected_offset _ _ _ _)

theorem expectAs {code : Diagnostic.Code} {k : Kind} (hk : isFixed k)
    (hstep : r.step k = some r') (hnone : t.kind ≠ k → r.step t.kind = none) :
    LeadsAt src t r (expectAs code k) r' := by
  refine peek ?_
  split_ifs with hkind
  · rintro st hst rfl
    subst hkind
    exact hst.eat (ne_eof_of_isFixed hk) (by rwa [(kind_eq_iff src (isPlain_of_isFixed hk)).mp rfl])
  · exact unexpected (hnone hkind) _ _

end LeadsAt

namespace Leads

theorem here (h : Leads src r p r') : LeadsAt src t r p r' := fun _ hst _ => h hst

theorem bind (h : Leads src r p r') (hf : ∀ a, Leads src r' (f a) r'') :
    Leads src r (p >>= f) r'' := fun _ hst => (h hst).bind hf

theorem stalled : Leads src r (stalled : Production α) r' := fun _ _ => trivial

theorem pure (a : α) : Leads src r (pure a : Production α) r := fun _ hst => hst

theorem attempt (h : Leads src r p r') : Leads src r (attempt p) r' :=
  fun _ hst => LeadsAt.attempt h.here hst rfl

theorem peek {f : Token → Production α} (hf : ∀ t, LeadsAt src t r (f t) r') :
    Leads src r (peek >>= f) r' :=
  fun _ hst => hf _ hst.peek hst.stands.peek.next

theorem check {k : Kind} {f : Bool → Production α}
    (hf : ∀ t, LeadsAt src t r (f (t.kind == k)) r') :
    Leads src r (check k >>= f) r' := fun _ hst => hf _ hst.peek hst.stands.peek.next

/-- Where only one kind of token may come, it is expected. -/
theorem expect {k : Kind} (hk : isFixed k) (hstep : r.step k = some r')
    (hnone : ∀ k' ≠ k, r.step k' = none) : Leads src r (expect k) r' :=
  fun _ hst => LeadsAt.expectAs hk hstep (hnone _) hst rfl

theorem eatIf_bind {k : Kind} {f : Option Token → Production α} (hk : isFixed k)
    (hstep : r.step k = some r') (hsome : ∀ t, Leads src r' (f (some t)) r'')
    (hnone : ∀ t, t.kind ≠ k → LeadsAt src t r (f none) r'') : Leads src r (eatIf k >>= f) r'' := by
  have heatIf : (eatIf k >>= f) = Production.check k >>= fun found =>
      if found then Production.eat >>= fun t => f (some t) else f none := by
    funext src st
    simp only [eatIf, Production.check, Production.peek, Bind.bind, Production.bind]
    cases (st.cursor.peek src).1.kind == k <;> rfl
  rw [heatIf]
  refine check fun t => ?_
  split_ifs with hkind
  · exact .eat (beq_iff_eq.mp hkind) hk hstep (hsome t)
  · exact hnone t (by simpa using hkind)

end Leads

/-! ### Types and expressions -/

variable {expr : Production NodeId}

theorem typeExpr_leads (depth : Nat) :
    Leads src ⟨.type, opened⟩ (typeExpr depth) ⟨.typeEnd, opened⟩ := by
  induction depth with
  | zero => exact .stalled
  | succ depth ih =>
    refine .attempt (.peek fun t => ?_)
    split
    next hkind =>
      refine .eat hkind rfl rfl (ih.bind fun pointee => ?_)
      exact ((quiet_spanOf pointee).bind fun inner => quiet_alloc _ _).leads
    next hkind => exact .eat hkind rfl rfl (quiet_alloc _ _).leads
    next hstar hname => exact .unexpected (Recognizer.step_type_eq_none hname hstar) _ _

/-- A number in range is an operand. One out of range is consumed all the same, and is then what the
failure points at. -/
theorem number_leads {f : Number → Production α} (hkind : t.kind = .number)
    (hf : ∀ value, Leads src ⟨.suffix, opened⟩ (f value) r) :
    LeadsAt src t ⟨.operand, opened⟩ (eat >>= fun _ => number t >>= f) r := by
  rintro st hst rfl
  cases hvalue : Number.ofText? (src.text (st.cursor.peek src).1.span) with
  | some value =>
    have hsymbol : symbolOf src (st.cursor.peek src).1 = .number := by
      simp [symbolOf, hkind, hvalue]
    have hnext : Follows src { st with cursor := (st.cursor.eat src).2 } ⟨.suffix, opened⟩ :=
      hst.eat (by simp [hkind]) (by rw [hsymbol]; rfl)
    simpa [eat, number, textOf, Bind.bind, Production.bind, hvalue, Pure.pure,
      Production.pure] using hf value hnext
  | none =>
    have hsymbol : symbolOf src (st.cursor.peek src).1 = .unexpected := by
      simp [symbolOf, hkind, hvalue]
    simp only [eat, number, textOf, Bind.bind, Production.bind, hvalue]
    exact hst.stuck (by rw [hsymbol]; rfl) rfl

section Parts

/-! The parts of an expression, when the expressions inside them are read as expressions are. -/

variable (hexpr : ∀ opened, Leads src ⟨.operand, opened⟩ expr ⟨.close, opened⟩)

include hexpr

theorem primary_leads (hunary : UnaryOp.ofToken? t.kind = none) :
    LeadsAt src t ⟨.operand, opened⟩ (primary expr) ⟨.suffix, opened⟩ := by
  refine .attempt (.peek ?_)
  split
  next hkind => exact .eat hkind rfl rfl (quiet_alloc _ _).leads
  next hkind => exact number_leads hkind fun value => (quiet_alloc _ _).leads
  next hkind => exact .eat hkind rfl rfl (quiet_alloc _ _).leads
  next hkind => exact .eat hkind rfl rfl (quiet_alloc _ _).leads
  next hkind =>
    refine .eat hkind rfl rfl ((hexpr (.group :: opened)).bind fun inner => ?_)
    refine (Leads.expect rfl rfl fun k => Recognizer.step_close_group_eq_none).bind
      fun close => ?_
    exact ((quiet_update inner _).bind fun _ => quiet_pure _).leads
  next hname hnumber hstring hnil hparen =>
    refine .unexpected (Recognizer.step_operand_eq_none hunary ?_ hparen) _ _
    unfold isAtom
    split <;> first | contradiction | rfl

/-- Behind the last expression no comma follows, so the parenthesis has to be closed. -/
theorem commaTail_leads (rounds : Nat) :
    Leads src ⟨.close, .call :: opened⟩ (commaTail expr rounds) ⟨.close, .group :: opened⟩ := by
  induction rounds with
  | zero => exact .stalled
  | succ rounds ih =>
    refine .eatIf_bind rfl rfl (fun _ => ?_) fun t hkind =>
      .pure (Recognizer.step_close_call hkind) _
    exact (hexpr _).bind fun id => ih.bind fun rest => .pure _

theorem expressions_leads (rounds : Nat) :
    Leads src ⟨.operand, .call :: opened⟩ (expressions expr rounds) ⟨.close, .group :: opened⟩ :=
  .attempt ((hexpr _).bind fun _ => (commaTail_leads hexpr rounds).bind fun _ => .pure _)

theorem arguments_leads (rounds : Nat) :
    Leads src ⟨.argument, opened⟩ (arguments expr rounds) ⟨.close, .group :: opened⟩ := by
  refine .check fun t => ?_
  split_ifs with hkind
  · exact .pure (by rw [beq_iff_eq.mp hkind]; rfl) _
  · exact .acts (Recognizer.step_argument (by simpa using hkind))
      (expressions_leads hexpr rounds).here

theorem call_leads (callee : NodeId) (rounds : Nat) (hkind : t.kind = .leftParen) :
    LeadsAt src t ⟨.suffix, opened⟩ (call expr callee rounds) ⟨.suffix, opened⟩ := by
  refine .attempt (.bind (.expectAs rfl rfl fun hne => absurd hkind hne) fun _ => ?_)
  refine (arguments_leads hexpr rounds).bind fun args => ?_
  refine (Leads.expect rfl rfl fun k => Recognizer.step_close_group_eq_none).bind
    fun close => ?_
  exact ((quiet_allocList args).bind fun _ => (quiet_spanOf callee).bind fun _ =>
    quiet_alloc _ _).leads

theorem subscript_leads (container : NodeId) (hkind : t.kind = .leftBracket) :
    LeadsAt src t ⟨.suffix, opened⟩ (subscript expr container) ⟨.suffix, opened⟩ := by
  refine .quiet_bind (quiet_spanOf container) fun head => .eat hkind rfl rfl
    ((hexpr _).bind fun index => ?_)
  refine (Leads.expect rfl rfl fun k => Recognizer.step_close_index_eq_none).bind
    fun close => ?_
  exact (quiet_alloc _ _).leads

omit hexpr in
theorem selection_leads (operand : NodeId) (rounds : Nat) (hkind : t.kind = .dot) :
    LeadsAt src t ⟨.suffix, opened⟩ (selection operand rounds) ⟨.suffix, opened⟩ := by
  refine .quiet_bind (quiet_spanOf operand) fun head => .eat hkind rfl rfl ?_
  refine .eatIf_bind rfl rfl (fun _ => ?_) fun t hparen => ?_
  · refine (typeExpr_leads rounds).bind fun type => ?_
    exact (Leads.expect rfl rfl fun k => Recognizer.step_typeEnd_eq_none).bind fun close =>
      (quiet_alloc _ _).leads
  · refine .bind (.expectAs rfl rfl fun hname => ?_) fun name => (quiet_alloc _ _).leads
    exact Recognizer.step_selection_eq_none hname hparen

theorem suffixes_leads (operand : NodeId) (rounds : Nat) :
    Leads src ⟨.suffix, opened⟩ (suffixes expr operand rounds) ⟨.operator, opened⟩ := by
  induction rounds generalizing operand with
  | zero => exact .stalled
  | succ rounds ih =>
    refine .peek fun t => ?_
    split
    next hkind => exact (call_leads hexpr operand _ hkind).bind ih
    next hkind => exact (subscript_leads hexpr operand hkind).bind ih
    next hkind => exact (selection_leads operand _ hkind).bind ih
    next hparen hbracket hdot => exact .pure (Recognizer.step_suffix hparen hbracket hdot) _

theorem unary_leads (rounds depth : Nat) :
    Leads src ⟨.operand, opened⟩ (unary expr rounds depth) ⟨.operator, opened⟩ := by
  induction depth with
  | zero => exact .stalled
  | succ depth ih =>
    refine .attempt (.peek fun t => ?_)
    split
    next hunary =>
      exact (primary_leads hexpr hunary).bind fun operand => suffixes_leads hexpr operand rounds
    next op hop =>
      have hkind := UnaryOp.token_of_ofToken? hop
      refine .eat hkind.symm (isFixed_unary op) (Recognizer.step_unary opened op)
        (ih.bind fun operand => ?_)
      exact ((quiet_spanOf operand).bind fun inner => quiet_alloc _ _).leads

end Parts

theorem binaryTail_leads {operand : Production NodeId}
    (hoperand : Leads src ⟨.operand, opened⟩ operand ⟨.operator, opened⟩)
    (left : NodeId) (rounds : Nat) :
    Leads src ⟨.operator, opened⟩ (binaryTail operand left rounds) ⟨.close, opened⟩ := by
  induction rounds generalizing left with
  | zero => exact .stalled
  | succ rounds ih =>
    refine .peek fun t => ?_
    split
    next hbinary => exact .pure (Recognizer.step_operator hbinary) _
    next op hop =>
      have hkind := BinaryOp.token_of_ofToken? hop
      refine .eat hkind.symm (isFixed_binary op)
        (Recognizer.step_operator_token opened op) ?_
      exact hoperand.bind fun right => (quiet_attach left op right).leads.bind ih

/-- Wherever an expression begins, it is read up to where it has to end, or the failure points at
the token on which the recognizer is stuck. -/
theorem expression_leads (opened : List Bracket) (depth : Nat) :
    Leads src ⟨.operand, opened⟩ (expression depth) ⟨.close, opened⟩ := by
  induction depth generalizing opened with
  | zero => exact .stalled
  | succ depth ih =>
    have hoperand : Leads src ⟨.operand, opened⟩ (unary (expression depth) (depth + 1) (depth + 1))
        ⟨.operator, opened⟩ :=
      unary_leads ih _ _
    exact .attempt (hoperand.bind fun left => binaryTail_leads hoperand left _)

/-! ### Whole texts -/

/-- A text is read to its end along with the recognizer, or it is rejected where that is stuck. -/
theorem parseExpression_leads (src : Source) (fileIndex : Nat) :
    (∃ parsed, parseExpression src fileIndex = .ok parsed) ∧
        Recognizer.start.run (src.tokens.map (symbolOf src)) = some ⟨.done, []⟩ ∨
      ∃ e, parseExpression src fileIndex = .error (.rejected e) ∧ Stuck src e := by
  have hleads := expression_leads [] (budget src) (Follows.start src (.empty fileIndex))
  have hne := wholeExpression_ne_broken src fileIndex
  simp only [parseExpression, run]
  simp only [wholeExpression, Bind.bind, Production.bind] at hne ⊢
  cases ho : expression (budget src) src (initial fileIndex) with
  | ok root st =>
    rw [ho] at hleads
    simp only [expect, expectAs, peek, Bind.bind, Production.bind]
    split_ifs with hkind
    · exact .inl ⟨⟨_, rfl⟩, hleads.run_tokens hkind rfl⟩
    · refine .inr ⟨_, rfl, hleads.stuck (step_symbolOf_eq_none ?_)
        (Diagnostic.expected_offset _ _ _ _)⟩
      exact Recognizer.step_close_nil_eq_none hkind
  | failed e st =>
    rw [ho] at hleads
    exact .inr ⟨e, rfl, hleads⟩
  | broken fault =>
    simp [ho] at hne

theorem fits_iff : t.Fits src ↔ (symbolOf src t).isError = false := by
  rw [symbolOf_isError_iff]
  constructor
  · rintro ⟨hproper, hrange⟩
    refine ⟨hproper, ?_, hrange⟩
    by_cases hnumber : t.kind = .number
    · obtain ⟨v, hv⟩ := Option.isSome_iff_exists.mp ((isSome_ofText?_iff _).mpr (hrange hnumber))
      simp [symbolOf, hnumber, hv]
    · exact symbolOf_eq hnumber
  · rintro ⟨hproper, -, hrange⟩
    exact ⟨hproper, hrange⟩

theorem map_symbolOf_of_fits {ts : List Token} (h : ∀ t ∈ ts, t.Fits src) :
    ts.map (symbolOf src) = ts.map (·.kind) :=
  List.map_congr_left fun t ht => (symbolOf_isError_iff.mp (fits_iff.mp (h t ht))).2.1

theorem fits_of_run {ts : List Token} (h : r.run (ts.map (symbolOf src)) = some r') :
    ∀ t ∈ ts, t.Fits src :=
  fun _ ht => fits_iff.mpr (Recognizer.isError_of_run h _ (List.mem_map_of_mem ht))

/-- Some expression with the end of the file behind it begins with these tokens. -/
def Viable (src : Source) (ts : List Token) : Prop :=
  (∀ t ∈ ts, t.Fits src) ∧ ∃ xs rest, IsExpr .expr xs ∧ xs ++ [.eof] = ts.map (·.kind) ++ rest

theorem viable_iff {ts : List Token} :
    Viable src ts ↔ (Recognizer.start.run (ts.map (symbolOf src))).isSome := by
  constructor
  · rintro ⟨hfits, hbegins⟩
    rw [map_symbolOf_of_fits hfits]
    exact Recognizer.run_isSome_iff.mpr hbegins
  · intro h
    obtain ⟨r, hr⟩ := Option.isSome_iff_exists.mp h
    have hfits := fits_of_run hr
    rw [map_symbolOf_of_fits hfits] at h
    exact ⟨hfits, Recognizer.run_isSome_iff.mp h⟩

/-- What begins a viable sequence is viable. -/
theorem Viable.of_append {ts us : List Token} (h : Viable src (ts ++ us)) : Viable src ts := by
  obtain ⟨hfits, xs, rest, hxs, heq⟩ := h
  refine ⟨fun t ht => hfits t (List.mem_append_left _ ht), xs, us.map (·.kind) ++ rest, hxs, ?_⟩
  rw [heq, List.map_append, List.append_assoc]

/-- The recognizer reads all the tokens just if they are scanned to the end of the file and are an
expression. -/
theorem run_tokens_iff :
    (∃ opened, Recognizer.start.run (src.tokens.map (symbolOf src)) = some ⟨.done, opened⟩) ↔
      ∃ ts last, src.scanned = ts ++ [last] ∧ last.kind = .eof ∧ (∀ t ∈ ts, t.Fits src) ∧
        IsExpr .expr (ts.map (·.kind)) := by
  constructor
  · intro h
    have hfits := fits_of_run h.choose_spec
    obtain ⟨xs, hxs, hmap⟩ := Recognizer.run_eq_done_iff.mp h
    rw [map_symbolOf_of_fits hfits, List.map_eq_append_iff] at hmap
    obtain ⟨ts, us, htokens, rfl, hus⟩ := hmap
    obtain ⟨last, rfl, hlast⟩ := List.map_eq_singleton_iff.mp hus
    rw [Source.scanned_eq_tokens fun t ht => (hfits t ht).1]
    refine ⟨ts, last, htokens, hlast, fun t ht => hfits t ?_, hxs⟩
    rw [htokens]
    exact List.mem_append_left _ ht
  · rintro ⟨ts, last, hscanned, hlast, hfits, hxs⟩
    have hproper := Source.isError_of_scanned hscanned hlast
    rw [← Source.scanned_eq_tokens hproper, hscanned, List.map_append, map_symbolOf_of_fits hfits]
    refine Recognizer.run_eq_done_iff.mpr ⟨_, hxs, ?_⟩
    rw [List.map_singleton, symbolOf_eq (by simp [hlast]), hlast]

theorem Stuck.run_tokens (h : Stuck src e) :
    Recognizer.start.run (src.tokens.map (symbolOf src)) = none := by
  obtain ⟨before, t, after, r, htokens, hrun, hstep, -⟩ := h
  rw [htokens, List.map_append, Recognizer.run_append, hrun]
  simp [hstep]

/-- Where the recognizer is stuck, an expression has become impossible. -/
theorem Stuck.exists_scanned (h : Stuck src e) :
    ∃ before t after, src.scanned = before ++ t :: after ∧ e.offset = t.span.start ∧
      (∀ ts, ts <+: before → Viable src ts) ∧ ¬ Viable src (before ++ [t]) := by
  obtain ⟨before, t, after, r, htokens, hrun, hstep, he⟩ := h
  have hviable : Viable src before := viable_iff.mpr (by rw [hrun]; rfl)
  obtain ⟨rest, hscanned⟩ := Source.scanned_of_tokens htokens fun u hu => (hviable.1 u hu).1
  refine ⟨before, t, rest, hscanned, he, ?_, ?_⟩
  · rintro ts ⟨us, rfl⟩
    exact hviable.of_append
  · rw [viable_iff, List.map_append, Recognizer.run_append, hrun]
    simp [hstep]

/-- A text is an expression just if its tokens are scanned to the end of the file and those before
the end are a phrase of the grammar. Any other text is rejected at the first token with which no
expression can begin. -/
theorem parseExpression_rejects_first_impossible (src : Source) (fileIndex : Nat) :
    ((∃ parsed, parseExpression src fileIndex = .ok parsed) ↔
      ∃ ts last, src.scanned = ts ++ [last] ∧ last.kind = .eof ∧ (∀ t ∈ ts, t.Fits src) ∧
        IsExpr .expr (ts.map (·.kind))) ∧
    ((∃ parsed, parseExpression src fileIndex = .ok parsed) ∨
      ∃ e before t after, parseExpression src fileIndex = .error (.rejected e) ∧
        src.scanned = before ++ t :: after ∧ e.offset = t.span.start ∧
        (∀ ts, ts <+: before → Viable src ts) ∧ ¬ Viable src (before ++ [t])) := by
  rw [← run_tokens_iff]
  rcases parseExpression_leads src fileIndex with ⟨hok, hrun⟩ | ⟨e, hrejected, hstuck⟩
  · exact ⟨iff_of_true hok ⟨[], hrun⟩, .inl hok⟩
  · obtain ⟨before, t, after, hfirst⟩ := hstuck.exists_scanned
    refine ⟨iff_of_false ?_ ?_, .inr ⟨e, before, t, after, hrejected, hfirst⟩⟩
    · simp [hrejected]
    · simp [hstuck.run_tokens]

end Grammar

end MicroCompiler
