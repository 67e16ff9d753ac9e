import MicroCompiler.Proofs.Grammar.Growth.Statement
import MicroCompiler.Proofs.Sorting.Expression

/-! Definitions and declarations are well-sorted. The variables of a group share one type, and they
have initializers together or not at all. A struct and a function are pending until their
declaration has named them. -/

namespace MicroCompiler.Grammar

open Ast (NodeId NodeKind Pool Slot)
open Ast.Pool (wellSorted_plain)

open Production

variable {src : Source} {st : State} {t : Token} {pool q : Pool} {ids inits : List NodeId}
  {type : Slot} {initialized : Bool}

/-! ### Types and initializers -/

theorem Idle.atType : Idle src atType fun _ => True :=
  fun _ t _ h => (ensures_atType h).mono fun _ _ h' => ⟨trivial, t, h'⟩

theorem optionalType_sorts (rounds : Nat) :
    Sorts src (optionalType rounds) fun q type => ∀ id ∈ type, q.Is id .type := by
  refine .of_from fun q => Idle.atType.bind fun found _ => ?_
  split
  · exact (typeExpr_makes rounds).bind fun type r _ htype => .pure (by simpa using htype)
  · exact .pure (by simp)

theorem initializers_sorts (rounds : Nat) :
    Sorts src (initializers rounds) fun q ids => ∀ id ∈ ids, q.Is id .expression := by
  refine .of_from fun q => Idle.eatIf.bind fun equal _ => ?_
  split
  · exact (expressions_sorts (expression_makes rounds) rounds).from
  · exact .pure (by simp)

theorem definitionBody_sorts (rounds : Nat) :
    Sorts src (definitionBody rounds) fun q (type, inits) =>
      (∀ id ∈ type, q.Is id .type) ∧ (∀ id ∈ inits, q.Is id .expression) ∧
        (type.isSome = true ∨ inits ≠ []) := by
  have hexprs : Sorts src (expressions (expression rounds) rounds) fun q ids =>
      ids ≠ [] ∧ ∀ id ∈ ids, q.Is id .expression := by
    intro st t pool h hsorted
    refine ((expressions_ne_nil h).and (expressions_sorts (expression_makes rounds)
      rounds h hsorted)).mono ?_
    rintro inits st' ⟨hne, t', q, h', hsorted', hsteady, hinits⟩
    exact ⟨t', q, h', hsorted', hsteady, hne, hinits⟩
  refine .of_from fun q => Idle.eatIf.bind fun sign _ => ?_
  split
  · exact hexprs.bind fun inits r _ hinits => .pure ⟨by simp, hinits.2, .inr hinits.1⟩
  · refine Idle.peek.bind fun colon _ => ?_
    split
    · exact .unexpected
    · refine Idle.eat.bind fun _ _ => (optionalType_sorts rounds).bind fun type q₁ _ htype => ?_
      refine (initializers_sorts rounds).bind fun inits q₂ h₂ hinits => ?_
      split_ifs with hnone
      · exact Idle.peek.bind fun _ _ => .unexpected
      · refine .pure ⟨fun id hid => h₂.is (htype id hid), hinits, ?_⟩
        rw [Option.isNone_iff_eq_none, List.isEmpty_iff, not_and_or] at hnone
        exact hnone.imp Option.isSome_iff_ne_none.mpr id

/-! ### Variables -/

theorem Idle.variableStop {name : Token} {init : Slot} :
    Idle src (variableStop name type init) fun _ => True :=
  fun _ t _ h => (ensures_variableStop h).mono fun _ _ h' => ⟨trivial, t, h'.1⟩

theorem Idle.checkCount {names : List Token} :
    Idle src (checkCount names inits) fun _ => inits = [] ∨ inits.length = names.length :=
  fun _ t _ h => (ensures_checkCount h).mono fun _ _ h' => ⟨h'.2, t, h'.1⟩

theorem Idle.names (rounds : Nat) : Idle src (commaSeparated expectIdentifier rounds) (· ≠ []) := by
  intro st t pool h
  refine (names_grow rounds h).mono ?_
  rintro names st' ⟨t', h', -, hhead⟩
  refine ⟨?_, t', h'⟩
  rintro rfl
  cases hhead

/-- A variable of the type, with an initializer if they have them. -/
theorem allocVariable_sorts {name : Token} {span : Span} {init : Slot}
    (htype : ∀ id ∈ type, q.Is id .type) (hinit : ∀ id ∈ init, q.Is id .expression)
    (hsome : init.isSome = initialized) :
    SortsFrom src q (alloc (.var name.span type init) span) fun r id =>
    r.IsVar type initialized id := by
  intro st t h hsorted
  have hw : q.WellSorted (.var name.span type init) {} :=
    wellSorted_plain rfl (by simpa using ⟨htype, hinit⟩) (by simp)
  refine (ensures_alloc h).mono ?_
  rintro _ st' ⟨rfl, h'⟩
  exact ⟨t, _, h', hsorted.alloc _ hw fun _ => rfl, .of_extends (.alloc q _ _), _, name.span, init,
    q.alloc_node _ _, rfl, hsome⟩

theorem allocVariables_sort {names : List Token} (htype : ∀ id ∈ type, q.Is id .type)
    (hinits : ∀ id ∈ inits, q.Is id .expression)
    (hcount : inits.length = if initialized then names.length else 0) :
    SortsFrom src q (allocVariables type names inits) fun r ids =>
      ids.length = names.length ∧ ∀ id ∈ ids, r.IsVar type initialized id := by
  induction names generalizing q inits with
  | nil => exact .pure ⟨rfl, by simp⟩
  | cons name names ih =>
    have hhead : inits.head?.isSome = initialized ∧
        inits.tail.length = if initialized then names.length else 0 := by
      cases inits <;> cases initialized <;> simp_all
    refine Idle.variableStop.bind fun stop _ => ?_
    refine (allocVariable_sorts htype (fun id hid => hinits id (List.mem_of_mem_head? hid))
      hhead.1).bind
      fun var q₁ h₁ hvar => ?_
    refine (ih (fun id hid => h₁.is (htype id hid)) (fun id hid =>
      h₁.is (hinits id (List.mem_of_mem_tail hid)))
      hhead.2).bind fun ids q₂ h₂ hids => .pure ⟨by simp [hids.1], ?_⟩
    exact List.forall_mem_cons.mpr ⟨h₂.isVar hvar, hids.2⟩

theorem isVar_is {id : NodeId} (h : q.IsVar type initialized id) : q.Is id .var := by
  obtain ⟨n, name, init, hn, hkind, -⟩ := h
  exact ⟨n, hn, by simp [hkind]⟩

/-- A list of variables that go together may be a definition. -/
theorem allocList_uniform (hne : ids ≠ []) (hids : ∀ id ∈ ids, q.IsVar type initialized id)
    (hsome : type.isSome = true ∨ initialized = true) :
    SortsFrom src q (allocList ids) fun r range => r.WellSorted (.definition range) {} := by
  intro st t h hsorted
  refine (ensures_allocList h).mono ?_
  rintro _ st' ⟨rfl, h'⟩
  have hsteady : q.Steady (q.allocList (ids.map some)).2 := .of_extends (.allocList q _)
  have hlist := q.list_allocList ids
  refine ⟨t, _, h', hsorted.allocList _, hsteady, by simp, by simp, ?_,
    ?_, by simp, by simp, by simp⟩
  · simpa using ⟨ids, hlist, fun id hid => hsteady.is (isVar_is (hids id hid))⟩
  · rintro _ ⟨⟩
    exact ⟨ids, type, initialized, hlist, hne, fun id hid => hsteady.isVar (hids id hid), hsome⟩

theorem definition_makes (rounds : Nat) : Makes src (definition rounds) .definition := by
  refine .of_from fun q => .attempt (Idle.eatIf.bind fun keyword _ =>
    (Idle.names rounds).bind fun names hnames => ?_)
  refine (definitionBody_sorts rounds).bind ?_
  rintro ⟨type, inits⟩ q₁ - ⟨htype, hinits, hsome⟩
  refine Idle.checkCount.bind fun _ hcount => Idle.expectAs.bind fun semi _ => ?_
  have hcount' : inits.length = if !inits.isEmpty then names.length else 0 := by
    rcases hcount with rfl | hcount
    · rfl
    · cases inits <;> simp_all
  refine (allocVariables_sort htype hinits hcount').bind fun vars q₂ _ hvars => ?_
  have hne : vars ≠ [] := by
    rintro rfl
    exact hnames (List.length_eq_zero_iff.mp hvars.1.symm)
  refine (allocList_uniform hne hvars.2 (by simpa using hsome)).bind fun range q₃ _ hw => ?_
  exact .alloc rfl hw

/-! ### Functions and structs -/

theorem paramGroup_sorts (rounds : Nat) : Sorts src (paramGroup rounds) fun q ids =>
    ∀ id ∈ ids, q.Is id .var := by
  refine .of_from fun q => (Idle.names rounds).bind fun names _ =>
    Idle.expectAs.bind fun colon _ => ?_
  refine (typeExpr_makes rounds).bind fun type q₁ _ htype => ?_
  refine (allocVariables_sort (by simpa using htype) (by simp) (show _ =
    if false then _ else 0 from rfl)).mono ?_
  exact fun r ids hids id hid => isVar_is (hids.2 id hid)

theorem paramsTail_sorts (rounds groups : Nat) :
    Sorts src (paramsTail rounds groups) fun q (ids, _) => ∀ id ∈ ids, q.Is id .var := by
  induction groups with
  | zero => exact .of_from fun _ => .stalled
  | succ groups ih =>
    refine .of_from fun q => Idle.eatIf.bind fun dots _ => ?_
    split
    · refine Idle.eatIf.bind fun close _ => ?_
      split
      · exact .pure (by simp)
      · exact .fail
    · refine (paramGroup_sorts rounds).bind fun ids q₁ _ hids => Idle.eatIf.bind fun comma _ => ?_
      split
      · refine ih.bind ?_
        rintro ⟨rest, variadic⟩ q₂ h₂ hrest
        exact .pure (List.forall_mem_append.mpr ⟨fun id hid => h₂.is (hids id hid), hrest⟩)
      · exact Idle.expectAs.bind fun _ _ => .pure hids

theorem params_sort (rounds : Nat) : Sorts src (params rounds) fun q (ids, _) =>
    ∀ id ∈ ids, q.Is id .var := by
  refine .of_from fun q => Idle.eatIf.bind fun close _ => ?_
  split
  · exact .pure (by simp)
  · exact (paramsTail_sorts rounds rounds).from

theorem returns_sort (rounds : Nat) : Sorts src (returns rounds) fun q ids => ∀ id ∈ ids,
    q.Is id .type := by
  refine .of_from fun q => Idle.eatIf.bind fun paren _ => ?_
  split
  · refine Idle.eatIf.bind fun close _ => ?_
    split
    · exact .pure (by simp)
    · refine (commaSeparated_sorts (typeExpr_makes rounds) rounds).bind fun types r _ htypes => ?_
      exact Idle.expectAs.bind fun _ _ => .pure htypes
  · refine Idle.atType.bind fun found _ => ?_
    split
    · exact (typeExpr_makes rounds).bind fun type r _ htype => .pure (by simpa using htype)
    · exact .pure (by simp)

/-- A body is a block, or else foreign, and only a foreign one may come from a library. -/
theorem body_sorts {block : Production NodeId} (hblock : Makes src block .block) :
    Sorts src (body block) fun q b =>
      (∀ id ∈ b.block, q.Is id .block) ∧ (b.block = none ↔ b.foreign = true) ∧
        (b.library ≠ none → b.foreign = true) := by
  refine .of_from fun q => Idle.eatIf.bind fun directive _ => ?_
  split
  · exact Idle.eatIf.bind fun library _ => Idle.expectAs.bind fun semi _ => .pure (by simp)
  · refine Idle.peek.bind fun t _ => ?_
    split
    · exact .unexpected
    · exact hblock.bind fun id r _ hid => Idle.spanOf.bind fun _ _ =>
        .pure ⟨by simpa using hid, by simp, by simp⟩

/-- What a declaration gives a name to: an expression, or a node that waits for the name. -/
abbrev Nameable (src : Source) (before : Pool) (id : NodeId) (st : State) : Prop :=
  ∃ t q n, Stands src st t q ∧ q.Sorted [id] ∧ before.Steady q ∧ q.nodes[id.index]? = some n ∧
    (.expression ∈ n.kind.categories ∨ ∀ name, (n.kind.named? name).isSome = true)

theorem Nameable.since {id : NodeId} {r : Pool} (hsteady : q.Steady r) (h : Nameable src r id st) :
    Nameable src q id st := by
  obtain ⟨t, q', n, hstands, hsorted, hsteady', hn, hkind⟩ := h
  exact ⟨t, q', n, hstands, hsorted, hsteady.trans hsteady', hn, hkind⟩

theorem function_nameable {block : Production NodeId} (hblock : Makes src block .block)
    (rounds : Nat) : EnsuresFrom src q (function block rounds) (Nameable src q) := by
  refine .attempt (Idle.expectAs.bind fun keyword _ => Idle.expectAs.bind fun _ _ => ?_)
  refine (params_sort rounds).from.bind_since .since ?_
  rintro ⟨ids, variadic⟩ q₁ - hparams
  refine (returns_sort rounds).from.bind_since .since fun rets q₂ h₂ hrets => ?_
  refine (body_sorts hblock).from.bind_since .since ?_
  rintro b q₃ h₃ ⟨hbody, hforeign, hlibrary⟩
  have hparams' := fun id hid => (h₂.trans h₃).is (hparams id hid)
  refine (EnsuresFrom.allocList hparams').bind_since .since fun params q₄ h₄ hlists => ?_
  have hrets' := fun id hid => (h₃.trans h₄).is (hrets id hid)
  refine (EnsuresFrom.allocList hrets').bind_since .since fun returns q₅ h₅ hlists' => ?_
  have hw : q₅.WellSorted (.function none params returns b.block b.library) ⟨false,
      b.foreign, variadic⟩ := by
    refine ⟨by simp, ?_, ?_, by simp, ?_, by simp, fun _ => ⟨_, _, _, _, _, rfl⟩⟩
    · simpa using fun id hid => (h₄.trans h₅).is (hbody id hid)
    · simpa using ⟨h₅.lists_is hlists, hlists'⟩
    · rintro _ _ _ _ _ ⟨⟩
      exact ⟨hforeign, hlibrary⟩
  intro st t h hsorted
  refine (ensures_alloc h).bind ?_
  rintro _ st₁ ⟨rfl, h₁⟩
  refine (ensures_update h₁).bind fun _ st₂ h₂ => ?_
  obtain ⟨hsorted', hsteady⟩ := hsorted.allocFlagged ⟨keyword.span.start, b.stop⟩ hw (by simp)
    (show ⟨q₅.size⟩ ∉ [(⟨q₅.size⟩ : NodeId)] → _ by simp)
  exact ensures_pure ⟨t, _, _, h₂, hsorted', hsteady, Pool.change_node_self (q₅.alloc_node _ _) _,
    .inr fun _ => rfl⟩

theorem struct_nameable (rounds : Nat) : EnsuresFrom src q (struct rounds) (Nameable src q) := by
  refine .attempt (Idle.expectAs.bind fun keyword _ => Idle.expectAs.bind fun _ _ => ?_)
  refine (manyUntil_sorts (definition_makes rounds) .rightBrace rounds).from.bind_since .since
    fun ids q₁ _ hids => ?_
  refine Idle.eat.bind fun close _ => (EnsuresFrom.allocList hids).bind_since .since
    fun members q₂ _ hlists => ?_
  have hw : q₂.WellSorted (.struct none members) {} :=
    wellSorted_plain rfl (by simp) (by simpa using hlists)
  intro st t h hsorted
  refine (ensures_alloc h).mono ?_
  rintro _ st' ⟨rfl, h'⟩
  exact ⟨t, _, _, h', hsorted.alloc _ hw (by simp), .of_extends (.alloc q₂ _ _), q₂.alloc_node _ _,
    .inr fun _ => rfl⟩

theorem expression_nameable (rounds : Nat) :
    EnsuresFrom src q (expression rounds) (Nameable src q) := by
  intro st t h hsorted
  refine (expression_makes rounds h hsorted).mono ?_
  rintro id st' ⟨t', r, h', hsorted', hsteady, n, hn, hexpr⟩
  refine ⟨t', r, n, h', fun i m hm => ?_, hsteady, hn, .inl hexpr⟩
  obtain ⟨hw, hnamed⟩ := hsorted' i m hm
  exact ⟨hw, fun _ => hnamed (by simp)⟩

/-! ### Declarations -/

theorem declaration_sorts {block : Production NodeId} {rounds : Nat}
    (hblock : Makes src block .block) (hundoes : Undoes src (function block rounds)) :
    Sorts src (declaration block rounds) fun q id => q.Is id .item ∧ q.Is id .statement := by
  refine .of_from fun q => .attempt (Idle.expectAs.bind fun name _ =>
    Idle.expectAs.bind fun _ _ => ?_)
  intro st t h hsorted
  have hvalue : (firstOf [struct rounds, function block rounds, expression rounds]).Ensures src st
      (Nameable src q) := by
    have hall : ∀ p ∈ [struct rounds, function block rounds, expression rounds], ∀ q,
        EnsuresFrom src q p (Nameable src q) := by
      simp only [List.forall_mem_cons]
      exact ⟨fun _ => struct_nameable rounds, fun _ => function_nameable hblock rounds, fun _ =>
        expression_nameable rounds, by simp⟩
    refine ensures_firstOf h ?_ fun p hp st' r h' hnodes hlists => ?_
    · simp only [List.forall_mem_cons]
      exact ⟨struct_undoes rounds, hundoes, expression_undoes rounds, by simp⟩
    · refine (hall p hp r h' (hsorted.of_tables hnodes hlists)).mono fun _ _ => Nameable.since ?_
      exact .of_extends (.of_tables hnodes hlists)
  refine hvalue.bind ?_
  rintro value st₃ ⟨t₃, r, n, h₃, hsorted₃, hsteady₃, hn, hkind⟩
  refine (ensures_node h₃).bind ?_
  rintro _ st₄ ⟨hn', h₄⟩
  obtain rfl := Option.some.inj (hn.symm.trans hn')
  have hw := (hsorted₃ value n hn).1
  split
  next kind hnamed =>
    obtain ⟨hcategories, hdeclared, hisNamed⟩ := NodeKind.categories_of_named? hnamed
    have hvar : .var ∉ n.kind.categories := by
      rw [hdeclared]
      decide
    have hboth : .item ∈ kind.categories ∧ .statement ∈ kind.categories := by
      rw [hcategories, hdeclared]
      decide
    refine (ensures_update h₄).bind fun _ st₅ h₅ => ?_
    refine ensures_pure ⟨t₃, _, h₅, ?_, hsteady₃.trans (Pool.steady_change hn _ hcategories hvar),
      ?_⟩
    · exact hsorted₃.change hn _ hcategories hvar (hw.named hnamed) (fun _ => hisNamed) (by simp)
    · have hself := Pool.change_node_self hn fun n =>
        { n with kind, span := ⟨name.span.start, n.span.stop⟩ }
      exact ⟨⟨_, hself, hboth.1⟩, _, hself, hboth.2⟩
  next hnamed =>
    have hexpr : .expression ∈ n.kind.categories := by
      refine hkind.resolve_right fun hsome => ?_
      have hname := hsome name.span
      rw [hnamed] at hname
      cases hname
    have hsorted₄ := hsorted₃.settle hn (NodeKind.isNamed_of_named? hnamed)
    refine (ensures_expectAs h₄).bind ?_
    rintro semi st₅ ⟨-, -, t₅, -, h₅⟩
    have hw' : r.WellSorted (.const name.span value) {} :=
      wellSorted_plain rfl (by simpa using ⟨n, hn, hexpr⟩) (by simp)
    refine (ensures_alloc h₅).mono ?_
    rintro _ st₆ ⟨rfl, h₆⟩
    exact ⟨t₅, _, h₆, hsorted₄.alloc _ hw' (by simp), hsteady₃.trans (.of_extends (.alloc r _ _)),
      ⟨_, r.alloc_node _ _, by simp⟩, _, r.alloc_node _ _, by simp⟩

end MicroCompiler.Grammar
