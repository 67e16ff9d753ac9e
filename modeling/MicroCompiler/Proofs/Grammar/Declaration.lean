import MicroCompiler.Proofs.Grammar.Expression
import MicroCompiler.Proofs.Grammar.Lookahead

/-! What the productions of definitions, signatures and declarations read, as for expressions: a
phrase of their nonterminal, or they fail. The block of a function is read by an argument of theirs,
of which the same is assumed. -/

namespace MicroCompiler.Grammar

open Ast (NodeId NodeKind Pool Slot)
open Token (Kind)
open Production

variable {α : Type} {src : Source} {ks xs ys : List Kind} {pool : Pool} {bound rounds : Nat}
  {type init : Slot} {names : List Token} {inits : List NodeId}

/-- The slot is empty or names a node of the pool. -/
def InPool (q : Pool) (slot : Slot) : Prop := ∀ id ∈ slot, id.index < q.size

theorem InPool.extend {p q : Pool} {slot : Slot} (h : InPool p slot) (hext : p.Extends q) :
    InPool q slot := fun id hid => (h id hid).trans_le hext.size_le

theorem New.inPool {p q : Pool} {id : NodeId} (h : New p q id) : InPool q (some id) :=
  fun _ hid => Option.mem_some_iff.mp hid ▸ h.2

theorem IsExpr.exprs_ne_nil {ids : List NodeId} (h : IsExpr (.exprs ids.length) xs) : ids ≠ [] := by
  rintro rfl
  cases h

/-! ### Definitions -/

theorem identifier_reads (bound : Nat) :
    Reads src expectIdentifier bound fun _ _ _ xs _ => True ∧ Word .identifier xs ∧ True := by
  intro st ks pool h _
  obtain ⟨k, ks, rfl⟩ := h.exists_cons
  refine (sat_expectAs h rfl fun _ _ hp => hp ▸ .refl _).imp ?_
  rintro _ st₁ ⟨rfl, h₁⟩
  exact ⟨[.identifier], ks, pool, rfl, h₁, .refl _, trivial, rfl, trivial⟩

theorem names_reads (rounds : Nat) :
    Reads src (commaSeparated expectIdentifier rounds) rounds fun _ names _ xs ys =>
      IsNames names.length xs ∧ ys.head? ≠ some .comma := by
  have hitems := commaSeparated_reads (V := fun _ _ => True) (fun _ _ _ _ _ => trivial)
    (@identifier_reads src rounds) le_rfl
  refine hitems.imp ?_
  rintro p names q xs ys ⟨-, hnames, -, hcomma⟩
  exact ⟨hnames, hcomma⟩

theorem sat_atType {st : State} {k : Kind} {E : State → Prop} {B : Prop}
    (h : At src st (k :: ks) pool) :
    atType.Sat src st (fun b st' => b = startsType k ∧ At src st' (k :: ks) pool) E B := by
  refine (sat_peek h).andThen ?_
  rintro t st₁ ⟨rfl, h₁⟩
  refine sat_pure ⟨?_, h₁⟩
  rw [Bool.eq_iff_iff, startsType_iff]
  simp only [Bool.or_eq_true, beq_iff_eq]
  rw [kind_eq_iff src rfl, kind_eq_iff src rfl]

theorem ReadsOn.atType {base : Pool} {f : Bool → Production α}
    {Q : α → Pool → List Kind → List Kind → Prop} (hf : ∀ b, ReadsOn src base pool xs ks (f b) Q) :
    ReadsOn src base pool xs ks (Grammar.atType >>= f) Q := by
  intro st hat hext
  obtain ⟨k, ks, rfl⟩ := hat.exists_cons
  exact (sat_atType hat).andThen fun b _ h₁ => hf b h₁.2 hext

theorem optionalType_reads (rounds : Nat) :
    Reads src (optionalType rounds) rounds fun _ type q xs _ =>
      InPool q type ∧ (type = none ∧ xs = [] ∨ type.isSome ∧ IsType xs) := by
  refine .of_on fun pool ks hlen => .atType fun b => ?_
  split_ifs
  · refine (typeExpr_reads rounds).bind hlen fun type q zs ys _ _ htype => ?_
    exact .pure ⟨htype.1.inPool, .inr ⟨rfl, htype.2⟩⟩
  · exact .pure ⟨by simp [InPool], .inl ⟨rfl, rfl⟩⟩

theorem initializers_reads (rounds : Nat) :
    Reads src (initializers rounds) rounds fun _ inits q xs _ =>
      (∀ id ∈ inits, id.index < q.size) ∧ (inits = [] ∧ xs = [] ∨
        inits ≠ [] ∧ ∃ ys, xs = .equal :: ys ∧ IsExpr (.exprs inits.length) ys) := by
  refine .of_on fun pool ks hlen => .eatIf rfl (fun _ ys hys => ?_) fun _ => ?_
  · refine ((exprs_reads rounds).here (by omega)).last fun inits q zs ys _ ⟨hin, hphrase, _⟩ => ?_
    exact ⟨hin, .inr ⟨hphrase.exprs_ne_nil, zs, rfl, hphrase⟩⟩
  · exact .pure ⟨by simp, .inl ⟨rfl, rfl⟩⟩

/-- The body of a definition fits any number of names if it has no initializers, else as many as
these. -/
theorem definitionBody_reads (rounds : Nat) :
    Reads src (definitionBody rounds) rounds fun _ v q xs _ =>
      InPool q v.1 ∧ (∀ id ∈ v.2, id.index < q.size) ∧
        ∀ n, (v.2 = [] ∨ v.2.length = n) → IsDefinitionBody n xs := by
  refine .of_on fun pool ks hlen => .eatIf rfl (fun _ ys hys => ?_) fun _ => .peek ?_
  · refine (exprs_reads rounds).bind (by omega) fun inits q zs ys _ _ ⟨hin, hphrase, _⟩ => ?_
    refine .pure ⟨by simp [InPool], hin, ?_⟩
    rintro n (hnil | rfl)
    · exact absurd hnil hphrase.exprs_ne_nil
    · exact .inferred hphrase
  · rintro colon k ks hcolon rfl
    simp only [List.length_cons] at hlen
    split_ifs with hkind
    · exact .unexpected
    refine .eat hcolon (not_not.mp hkind) rfl fun _ =>
      (optionalType_reads rounds).bind (by omega) ?_
    intro type q zs ys hys _ ⟨htype, hphrase⟩
    refine (initializers_reads rounds).bind (by omega) fun inits q' zs' ys' _ hext' ⟨hin,
      hphrase'⟩ => ?_
    split_ifs with hmissing
    · exact .peek fun _ _ _ _ _ => .unexpected
    refine .pure ⟨htype.extend hext', hin, fun n hn => ?_⟩
    rcases hphrase' with ⟨rfl, rfl⟩ | ⟨hne, ws, rfl, hinits⟩
    · rcases hphrase with ⟨rfl, -⟩ | ⟨-, hphrase⟩
      · simp at hmissing
      · simpa using IsDefinitionBody.typed hphrase
    · obtain rfl : inits.length = n := hn.resolve_left hne
      refine .initialized ?_ hinits
      rcases hphrase with ⟨-, rfl⟩ | ⟨-, hphrase⟩
      · exact .inl rfl
      · exact .inr hphrase

theorem checkCount_reads (hin : ∀ id ∈ inits, id.index < pool.size) :
    ReadsOn src pool pool [] ks (checkCount names inits) fun _ _ zs _ =>
      zs = [] ∧ (inits = [] ∨ inits.length = names.length) := by
  cases inits with
  | nil => exact .pure ⟨rfl, .inl rfl⟩
  | cons first rest =>
    simp only [checkCount]
    split_ifs with hlen
    · exact .pure ⟨rfl, .inr hlen⟩
    have hlast : rest.getLastD first ∈ first :: rest := List.getLastD_mem_cons
    exact .spanOf (hin _ (by simp)) fun _ => .spanOf (hin _ hlast) fun _ => .fail

theorem variableStop_reads {name : Token} (htype : InPool pool type) (hinit : InPool pool init) :
    ReadsOn src pool pool [] ks (variableStop name type init) fun _ _ zs _ => zs = [] := by
  cases init with
  | some id => exact .spanOf (hinit id rfl) fun _ => .pure rfl
  | none =>
    cases type with
    | some id => exact .spanOf (htype id rfl) fun _ => .pure rfl
    | none => exact .pure rfl

theorem allocVariables_reads (htype : InPool pool type) (hin : ∀ id ∈ inits, id.index < pool.size) :
    ReadsOn src pool pool [] ks (allocVariables type names inits) fun _ _ zs _ => zs = [] := by
  induction names generalizing pool inits ks with
  | nil => exact .pure rfl
  | cons name names ih =>
    have hinit : InPool pool inits.head? := fun id hid => hin id (List.mem_of_mem_head? hid)
    refine (variableStop_reads htype hinit).bind fun stop q zs ys _ hext hzs =>
      .allocThen fun _ => ?_
    have hext := hext.trans (.alloc q (.var name.span type inits.head?) ⟨name.span.start, stop⟩)
    refine (ih (htype.extend hext) fun id hid => ?_).bind fun _ _ zs' ys' _ _ hzs' => ?_
    · exact (hin id (List.mem_of_mem_tail hid)).trans_le hext.size_le
    · exact .pure (by rw [hzs, hzs']; rfl)

theorem eatIf_reads {kind : Kind} (hkind : isFixed kind) (bound : Nat) :
    Reads src (eatIf kind) bound fun p _ q xs _ => q = p ∧ Optional (Word kind) xs := by
  intro st ks pool h _
  obtain ⟨k, ks, rfl⟩ := h.exists_cons
  refine (sat_eatIf h hkind).imp ?_
  rintro o st₁ (⟨rfl, -, h₁⟩ | ⟨-, -, h₁⟩)
  · exact ⟨[k], ks, pool, rfl, h₁, .refl _, rfl, .inr rfl⟩
  · exact ⟨[], k :: ks, pool, rfl, h₁, .refl _, rfl, .inl rfl⟩

theorem definition_reads (rounds : Nat) :
    Tries src (definition rounds) rounds fun p id q xs _ => New p q id ∧ IsDefinition xs := by
  refine .of_on fun pool ks hlen => (eatIf_reads rfl rounds).bind hlen ?_
  intro keyword q kw ks hks _ hkw
  refine (names_reads rounds).bind (by omega) fun names q xs ks hks _ hnames => ?_
  refine (definitionBody_reads rounds).bind (by omega) ?_
  rintro ⟨type, inits⟩ q ys ks - - ⟨htype, hin, hbody⟩
  refine (checkCount_reads hin).bind ?_
  rintro _ q _ ks - hext ⟨rfl, hcount⟩
  refine .expectAs rfl fun semi ks _ => (allocVariables_reads (htype.extend hext) ?_).bind ?_
  · exact fun id hid => (hin id hid).trans_le hext.size_le
  rintro vars q _ ks - - rfl
  refine .allocList fun range q _ => .alloc fun hext => ⟨.after hext, ?_⟩
  simpa using IsDefinition.mk hkw.2 hnames.1 (hbody _ hcount)

/-! ### Signatures -/

theorem paramGroup_reads (rounds : Nat) :
    Reads src (paramGroup rounds) rounds fun _ _ _ xs _ => IsGroup xs := by
  refine .of_on fun pool ks hlen =>
    (names_reads rounds).bind hlen fun names q xs ks hks _ hnames => ?_
  refine .expectAs rfl fun _ ks _ => (typeExpr_reads rounds).bind (by omega)
    fun type q ys ks _ _ htype => ?_
  refine (allocVariables_reads htype.1.inPool (by simp)).last ?_
  rintro vars q zs ks - rfl
  simpa using IsGroup.mk hnames.1 htype.2

/-- A group goes before any parameters. -/
theorem IsParams.cons (h : IsGroup xs) (hys : IsParams ys) (hne : ys ≠ []) :
    IsParams (xs ++ .comma :: ys) := by
  cases hys with
  | none => exact absurd rfl hne
  | groups hys => exact .groups (.more h hys)
  | variadic hys => simpa using IsParams.variadic (.more h hys)
  | ellipsis => exact .variadic (.one h)

theorem IsGroup.ne_nil (h : IsGroup xs) : xs ≠ [] := by
  cases h
  simp

theorem paramsTail_reads (rounds groups : Nat) :
    Reads src (paramsTail rounds groups) (min rounds groups) fun _ _ _ xs _ =>
      ∃ zs, xs = zs ++ [.rightParen] ∧ IsParams zs ∧ zs ≠ [] := by
  induction groups with
  | zero => exact .zero (by omega)
  | succ groups ih =>
    refine .of_on fun pool ks hlen => .eatIf rfl (fun _ ys _ => ?_) fun _ => ?_
    · refine .eatIf rfl (fun _ ys _ => ?_) fun _ => .fail
      exact .pure ⟨[.ellipsis], rfl, .ellipsis, by simp⟩
    refine (paramGroup_reads rounds).bind (by omega) fun group q xs ks hks _ hgroup => ?_
    have hshort := List.length_pos_of_ne_nil hgroup.ne_nil
    refine .eatIf rfl (fun _ ks _ => ih.bind (by omega) ?_) fun _ => ?_
    · rintro ⟨rest, variadic⟩ q _ ks - - ⟨ys, rfl, hys, hne⟩
      exact .pure ⟨xs ++ .comma :: ys, by simp, hys.cons hgroup hne, by simp⟩
    · exact .expectAs rfl fun _ ks _ => .pure ⟨xs, rfl, .groups (.one hgroup), hgroup.ne_nil⟩

theorem params_reads (rounds : Nat) :
    Reads src (params rounds) rounds fun _ _ _ xs _ =>
      ∃ zs, xs = zs ++ [.rightParen] ∧ IsParams zs := by
  refine .of_on fun pool ks hlen => .eatIf rfl (fun _ ys _ => .pure ⟨[], rfl, .none⟩) fun _ => ?_
  refine ((paramsTail_reads rounds rounds).here (by omega)).last ?_
  rintro v q xs ys - ⟨zs, rfl, hzs, -⟩
  exact ⟨zs, rfl, hzs⟩

theorem returns_reads (rounds : Nat) :
    Reads src (returns rounds) rounds fun _ _ _ xs _ => Optional IsReturns xs := by
  have hitem : Reads src (typeExpr rounds) rounds fun _ _ _ xs _ => True ∧ IsType xs ∧ True :=
    (typeExpr_reads rounds).reads.imp fun _ _ _ _ _ h => ⟨trivial, h.2, trivial⟩
  have htypes := commaSeparated_reads (V := fun _ _ => True) (fun _ _ _ _ _ => trivial) hitem le_rfl
  refine .of_on fun pool ks hlen => .eatIf rfl (fun _ ys _ => ?_) fun _ => .atType fun b => ?_
  · refine .eatIf rfl (fun _ ys _ => .pure (.inr .none)) fun _ => htypes.bind (by omega) ?_
    rintro types q zs ys - - ⟨-, hlist, -⟩
    exact .expectAs rfl fun _ ys _ => .pure (.inr (.list hlist))
  · split_ifs
    · exact (typeExpr_reads rounds).bind hlen fun _ _ _ _ _ _ h => .pure (.inr (.one h.2))
    · exact .pure (.inl rfl)

/-! ### Declarations -/

theorem manyUntil_reads {stop : Kind} {item : Production α} {P : List Kind → Prop}
    (hstop : isPlain stop) (hitem : Reads src item bound fun _ _ _ xs _ => P xs ∧ xs ≠ [])
    (rounds : Nat) : Reads src (manyUntil stop item rounds) (min bound rounds) fun _ _ _ xs ys =>
      Repeated P xs ∧ ys.head? = some stop := by
  induction rounds with
  | zero => exact .zero (by omega)
  | succ rounds ih =>
    refine .of_on fun pool ks hlen => .check hstop (fun hend => .pure ⟨.none, hend⟩) fun _ => ?_
    refine hitem.bind (by omega) fun a q xs ks hks _ ⟨hP, hne⟩ => ?_
    have := List.length_pos_of_ne_nil hne
    refine ih.bind (by omega) fun as q ys ks _ _ ⟨hrest, hend⟩ => ?_
    exact .pure ⟨.more hP hrest, hend⟩

/-- The node is a struct or a function, and takes its name from a declaration. -/
def Named (q : Pool) (id : NodeId) : Prop :=
  ∃ n, q.nodes[id.index]? = some n ∧ ∀ name, (n.kind.named? name).isSome

theorem Named.alloc {p : Pool} {kind : NodeKind} {span : Span}
    (h : ∀ name, (kind.named? name).isSome) : Named (p.alloc kind span).2 ⟨p.size⟩ :=
    ⟨_, Pool.alloc_node p kind span, h⟩

theorem Named.setFlags {q : Pool} {id : NodeId} (h : Named q id) (flags : Ast.Flags) :
    Named { q with nodes := q.nodes.modify id.index fun n => { n with flags } } id := by
  obtain ⟨n, hn, hname⟩ := h
  refine ⟨{ n with flags }, ?_, hname⟩
  simp only [Array.getElem?_modify, if_true, hn, Option.map_some]

theorem IsDefinition.ne_nil (h : IsDefinition xs) : xs ≠ [] := by
  cases h
  simp

/-- Behind as many items as there are comes the token that ends them. -/
theorem ReadsOn.eatStop {base : Pool} {stop : Kind} {f : Token → Production α}
    {Q : α → Pool → List Kind → List Kind → Prop} (hks : ks.head? = some stop)
    (hstop : isFixed stop) (hf : ∀ t ys, ReadsOn src base pool (xs ++ [stop]) ys (f t) Q) :
    ReadsOn src base pool xs ks (Production.eat >>= f) Q := by
  obtain ⟨ys, rfl⟩ := List.head?_eq_some_iff.mp hks
  exact .eatAny (ne_eof_of_isFixed hstop) fun t => hf t ys

theorem struct_reads (rounds : Nat) :
    Tries src (struct rounds) rounds fun p id q xs _ => New p q id ∧ Named q id ∧ IsStruct xs := by
  have hitem : Reads src (definition rounds) rounds fun _ _ _ xs _ => IsDefinition xs ∧ xs ≠ [] :=
    (definition_reads rounds).reads.imp fun _ _ _ _ _ h => ⟨h.2, h.2.ne_nil⟩
  refine .of_on fun pool ks hlen => .expectAs rfl fun _ ks _ => .expectAs rfl fun _ ks _ => ?_
  refine (manyUntil_reads rfl hitem rounds).bind (by omega) fun members q xs ks _ _ h => ?_
  refine .eatStop h.2 rfl fun _ ks => .allocList fun range q _ => .alloc fun hext => ?_
  exact ⟨.after hext, .alloc fun _ => rfl, .mk h.1⟩

variable {blockOf : Production NodeId}

section

variable (hblock : Reads src blockOf bound fun p id q xs _ => New p q id ∧ IsStmt .block xs)

include hblock

/-- The body of a function is its block, or says that the function is foreign. -/
theorem body_reads : Reads src (body blockOf) bound fun _ _ _ xs _ => IsStmt .block xs ∨
      ∃ zs, Optional (Word .string) zs ∧ xs = .foreignDirective :: zs ++ [.semicolon] := by
  refine .of_on fun pool ks hlen => .eatIf rfl (fun _ ks _ => ?_) fun _ => .peek fun t k _ _ _ => ?_
  · refine (eatIf_reads rfl _).bind le_rfl fun library q zs ks _ _ hlib => ?_
    exact .expectAs rfl fun _ ks _ => .pure (.inr ⟨zs, hlib.2, rfl⟩)
  · split_ifs
    · exact .unexpected
    refine hblock.bind hlen fun id q zs ks _ _ h => ?_
    exact .spanOf h.1.2 fun _ => .pure (.inl h.2)

theorem function_reads (hrounds : bound ≤ rounds) :
    Tries src (function blockOf rounds) bound fun p id q xs _ =>
      New p q id ∧ Named q id ∧ IsStmt .func xs := by
  refine .of_on fun pool ks hlen => .expectAs rfl fun _ ks _ => .expectAs rfl fun _ ks _ => ?_
  refine (params_reads rounds).bind (by omega) ?_
  rintro ⟨params, variadic⟩ q _ ks hks - ⟨xs, rfl, hparams⟩
  refine (returns_reads rounds).bind (by omega) fun returns q ys ks hks _ hreturns => ?_
  refine (body_reads hblock).bind (by omega) fun body q zs ks _ _ hbody => ?_
  refine .allocList fun _ q _ => .allocList fun _ q _ => .allocThen fun hext => ?_
  refine .update (.after hext) (.pure ⟨(New.after hext).modify _ _, .setFlags (.alloc fun _ =>
    rfl) _, ?_⟩)
  rcases hbody with hbody | ⟨library, hlib, rfl⟩
  · simpa using IsStmt.body hparams hreturns hbody
  · simpa using IsStmt.foreign hparams hreturns hlib

/-- The value of a declaration, whose node tells which it is. -/
theorem value_reads (hrounds : bound ≤ rounds) :
    Tries src (firstOf [struct rounds, function blockOf rounds, expression rounds]) bound
      fun p id q xs _ => New p q id ∧ (Named q id ∧ (IsStruct xs ∨ IsStmt .func xs) ∨
        Unnamed q id ∧ IsExpr .expr xs) := by
  refine .firstOf (fun p p' id q xs ys hn h => ⟨.of_nodes hn h.1, h.2⟩) ?_
  simp only [List.forall_mem_cons, List.not_mem_nil, false_imp_iff, implies_true, and_true]
  refine ⟨.of_le ((struct_reads rounds).imp ?_) hrounds, (function_reads hblock hrounds).imp ?_,
    .of_le ((expression_reads rounds).imp ?_) hrounds⟩
  · exact fun _ _ _ _ _ h => ⟨h.1, .inl ⟨h.2.1, .inl h.2.2⟩⟩
  · exact fun _ _ _ _ _ h => ⟨h.1, .inl ⟨h.2.1, .inr h.2.2⟩⟩
  · exact fun _ _ _ _ _ h => ⟨h.1, .inr ⟨h.2.1, h.2.2.1⟩⟩

theorem declaration_reads (hrounds : bound ≤ rounds) :
    Tries src (declaration blockOf rounds) bound fun p id q xs _ =>
      New p q id ∧ IsStmt .declaration xs := by
  refine .of_on fun pool ks hlen => .expectAs rfl fun name ks _ => .expectAs rfl fun _ ks _ => ?_
  refine (value_reads hblock hrounds).bind (by omega) fun value q xs ks _ _ ⟨hnew, hkind⟩ => ?_
  refine .node hnew.2 fun n hn => ?_
  rcases hkind with ⟨⟨m, hm, hname⟩, hphrase⟩ | ⟨⟨m, hm, hname⟩, hphrase⟩
  · obtain rfl : n = m := by simpa [hn] using hm
    obtain ⟨kind, hkind⟩ := Option.isSome_iff_exists.mp (hname name.span)
    rw [hkind]
    exact .update hnew (.pure ⟨hnew.modify _ _, hphrase.elim .struct .function⟩)
  · obtain rfl : n = m := by simpa [hn] using hm
    rw [hname]
    exact .expectAs rfl fun _ ks _ => .alloc fun hext => ⟨.after hext, .const hphrase⟩

end

end MicroCompiler.Grammar
