import MicroCompiler.Proofs.Safety.Expression

/-! Definitions and declarations are safe. A variable is paid for with its name, and what holds the
variables with a semicolon or a keyword. A definition and a declaration have a token to spare. -/

namespace MicroCompiler.Grammar

open Ast (Forest Lies NodeId Pool Slot)

open Production

variable {src : Source} {st : State} {t : Token} {c d : Nat} {base : Pool}
  {inits roots : List NodeId} {lo mid mid' hi : Nat}

/-! ### Names, types and initializers -/

theorem names_spend (rounds : Nat) :
    Spends src (commaSeparated expectIdentifier rounds) List.length fun _ => 0 := by
  have hname : Spends src expectIdentifier (fun _ => 1) fun _ => 0 := fun st t c d h R =>
    (sure_expectAs h (by decide)).mono fun _ _ _ ⟨_, _, h'⟩ => h'
  intro st t c d h R
  refine (commaSeparated_spends hname rounds h R).mono ?_
  rintro names st₁ - ⟨t₁, h₁⟩
  exact ⟨t₁, by simpa using h₁⟩

theorem atType_spends : Spends src atType (fun _ => 0) fun _ => 0 :=
  .of_from fun _ _ _ => .peek fun _ _ => SureFrom.here (.pure le_rfl le_rfl)

theorem optionalType_spends (rounds : Nat) :
    Spends src (optionalType rounds) (fun _ => 0) fun type => type.toList.length := by
  refine .of_from fun c d R => atType_spends.andThen fun found => ?_
  split
  · exact (typeExpr_spends rounds).andThen fun _ => .pure le_rfl le_rfl
  · exact .pure le_rfl le_rfl

theorem initializers_spends (rounds : Nat) :
    Spends src (initializers rounds) (fun _ => 0) List.length := by
  refine .of_from fun c d R => .eatIf rfl (fun _ _ t st h => ?_) (.pure le_rfl le_rfl)
  refine (expressions_spends (expression_spends rounds) rounds h R).mono ?_
  rintro inits st₁ - ⟨t₁, h₁⟩
  exact ⟨t₁, h₁.mono (by omega) le_rfl⟩

/-- The sign between the names and the rest is to spare. -/
theorem definitionBody_spends (rounds : Nat) :
    Spends src (definitionBody rounds) (fun _ => 1) fun (type, inits) =>
    type.toList.length + inits.length := by
  refine .of_from fun c d R => .eatIf rfl (fun _ _ => ?_) (.peek fun colon hcolon => ?_)
  · exact (expressions_spends (expression_spends rounds) rounds).andThen fun _ =>
      .pure (by simp) (by simp)
  · split_ifs with hkind
    · exact fun _ _ => .unexpected hcolon
    · refine .eat (not_not.mp hkind) rfl ((optionalType_spends rounds).andThen fun type =>
        (initializers_spends rounds).andThen fun inits => ?_)
      split
      · exact .peek fun _ hfound _ _ => .unexpected hfound
      · exact .pure (by simp) (by simp only; omega)

theorem sure_checkCount {names : List Token} (h : Ready src st t c d) {R : Unit → State → Prop} :
    Sure src (checkCount names inits) st R fun _ st' => Ready src st' t c d := by
  cases inits with
  | nil => exact .pure h
  | cons first rest =>
    unfold checkCount
    split_ifs
    · exact .pure h
    · refine (sure_spanOf h).bind ?_
      rintro head st₁ - ⟨hhead, h₁⟩
      refine (sure_spanOf h₁).bind ?_
      rintro last st₂ - ⟨hlast, -⟩
      exact .fail (hhead.merge hlast)

/-! ### Variables -/

theorem sure_variableStop {name : Token} {type init : Slot} (h : Ready src st t c d)
    {R : Nat → State → Prop} : Sure src (variableStop name type init) st R fun _ st' =>
    Ready src st' t c d := by
  have hstop : ∀ id, Sure src (spanOf id >>= fun span => pure span.stop) st R fun _ st' =>
      Ready src st' t c d := by
    intro id
    refine (sure_spanOf h).bind ?_
    rintro span st₁ - ⟨-, h₁⟩
    exact .pure h₁
  cases init with
  | some id => exact hstop id
  | none =>
    cases type with
    | some id => exact hstop id
    | none => exact .pure h

theorem sure_allocVariables {type : Slot} {names : List Token} {vars : List NodeId}
    (h : Ready src st t (c + names.length) d)
    (hforest : Forest src base st.pool (inits ++ roots) (awaiting type vars))
    (hnames : Spelled src names lo mid) (htype : ∀ id ∈ type, Lies st.pool id mid mid')
    (hinits : ∀ id ∈ inits, Lies st.pool id mid' hi) (hmid : mid ≤ mid')
    (hhi : mid' ≤ hi) (hcount : inits = [] ∨ inits.length = names.length)
    {R : List NodeId → State → Prop} :
    Sure src (allocVariables type names inits) st R fun ids st' =>
    Ready src st' t c (d + ids.length) := by
  induction names generalizing st d inits roots vars R with
  | nil => exact .pure h
  | cons name names ih =>
    obtain ⟨hname, hstart, hend⟩ := hnames name (by simp)
    refine (sure_variableStop h).bind fun stop st₁ ho h₁ => ?_
    obtain ⟨hstands, hstop⟩ := ensures_variableStop h.stands _ _ ho
    have hgrown := Ast.build_extends st.pool [] (.var name.span type inits.head?)
      ⟨name.span.start, stop⟩
    have hroots : (inits ++ roots).Perm (inits.head?.toList ++ (inits.tail ++ roots)) := by
      cases inits <;> simp
    obtain ⟨hforest', -, -⟩ := var_grows hforest hroots hname hend htype
      (fun id hid => hinits id (List.mem_of_mem_head? hid)) hmid hhi hstop
    obtain ⟨n, hn, hkind, hspan⟩ := Ast.build_node st.pool [] (.var name.span type inits.head?)
      ⟨name.span.start, stop⟩
    have hsited := (hforest'.settled _ n hforest.grown.size_le hn).sited
    rw [hkind, hspan] at hsited
    refine (sure_alloc h₁ (nodeFits_of_sited h.short hsited)).bind fun var st₂ ho' h₂ => ?_
    obtain ⟨rfl, hstands'⟩ := ensures_alloc hstands _ _ ho'
    rw [← hstands'.pool] at hforest' hgrown
    refine (ih h₂ (hforest'.perm List.perm_middle.symm) (fun u hu => hnames u (by simp [hu]))
      (fun id hid => (htype id hid).grow hgrown)
      (fun id hid => (hinits id (List.mem_of_mem_tail hid)).grow hgrown)
      (initializers_tail hcount)).bind ?_
    rintro ids st₃ - h₃
    exact .pure (h₃.mono le_rfl (by simp only [List.length_cons]; omega))

theorem definition_spends (rounds : Nat) : SpendsOne src (definition rounds) 1 := by
  refine SpendsOne.attempt (definition_yields rounds) fun c d base t st h => ?_
  refine (sure_eatIf h (by decide)).bind fun keyword st₁ _ h₁ => ?_
  obtain ⟨t₁, h₁⟩ : ∃ t₁, Ready src st₁ t₁ c d := by
    rcases h₁ with ⟨-, -, t₁, h₁⟩ | ⟨-, h₁⟩
    · exact ⟨t₁, h₁.mono (by omega) le_rfl⟩
    · exact ⟨t, h₁⟩
  refine (names_spend rounds h₁ _).bind ?_
  rintro names st₂ hnames ⟨t₂, h₂⟩
  obtain ⟨u₂, hstands₂, hspelled, -⟩ := names_grow rounds h₁.stands _ _ hnames
  obtain rfl : t₂ = u₂ := h₂.next.symm.trans hstands₂.next
  refine (definitionBody_spends rounds h₂ _).bind ?_
  rintro ⟨type, inits⟩ st₃ hbody ⟨t₃, h₃⟩
  obtain ⟨u₃, q, hstands₃, hgrove, htype⟩ := definitionBody_grows rounds h₂.stands _ _ hbody
  refine (sure_checkCount h₃).bind fun _ st₄ hcheck h₄ => ?_
  obtain ⟨hstands₄, hcount⟩ := ensures_checkCount hstands₃ _ _ hcheck
  refine (sure_expectAs h₄ (by decide)).bind ?_
  rintro semi st₅ hsemi ⟨-, -, t₅, h₅⟩
  obtain ⟨-, -, u₅, -, hstands₅⟩ := ensures_expectAs hstands₄ _ _ hsemi
  rw [← hstands₅.pool] at hgrove htype
  obtain ⟨mid, hrow, hrow'⟩ := hgrove.row.split
  have hforest := awaits hgrove.forest htype
  rw [← List.append_nil inits] at hforest
  have h₅ : Ready src st₅ t₅ (c + 2 + names.length) (d + (type.toList.length + inits.length)) :=
    h₅.mono (by simp only; omega) le_rfl
  refine (sure_allocVariables h₅ hforest hspelled (fun id hid => hrow.lies (Option.mem_toList.mpr
    hid)) (fun id hid => hrow'.lies hid) hrow.le hrow'.le hcount).bind fun vars st₆ _ h₆ => ?_
  refine (sure_allocList d h₆ (by omega)).bind fun range st₇ _ h₇ => ?_
  exact sure_alloc_rooted h₇ (by omega) (by omega)

/-! ### Functions and structs -/

theorem paramGroup_spends (rounds : Nat) :
    Spends src (paramGroup rounds) (fun _ => 0) List.length := by
  intro st t c d h R
  refine (names_spend rounds h _).bind ?_
  rintro names st₁ hnames ⟨t₁, h₁⟩
  obtain ⟨u₁, hstands₁, hspelled, -⟩ := names_grow rounds h.stands _ _ hnames
  obtain rfl : t₁ = u₁ := h₁.next.symm.trans hstands₁.next
  have hle := h₁.stands.le
  refine (sure_expectAs h₁ (by decide)).bind ?_
  rintro colon st₂ hcolon ⟨rfl, -, t₂, h₂⟩
  obtain ⟨-, -, u₂, hpast, hstands₂⟩ := ensures_expectAs h₁.stands _ _ hcolon
  obtain rfl : t₂ = u₂ := h₂.next.symm.trans hstands₂.next
  refine (typeExpr_spends rounds h₂ _).bind ?_
  rintro type st₃ htype ⟨t₃, h₃⟩
  obtain ⟨u₃, q, hstands₃, hgrove, n, hn, hkind⟩ := typeExpr_grows rounds h₂.stands _ _ htype
  rw [← hstands₃.pool] at hgrove hn
  have hforest : Forest src st₂.pool st₃.pool ([] ++ []) (awaiting (some type) []) :=
    hgrove.forest.await hn hkind
  have hrow := hgrove.row.le
  have hready : Ready src st₃ t₃ (c + names.length) d := h₃.mono (by omega) (by omega)
  refine (sure_allocVariables hready hforest hspelled ?_ (by simp) (show colon.span.start ≤
    u₃.span.start by omega) le_rfl (.inl rfl)).mono fun vars st₄ _ h₄ => ⟨t₃, h₄⟩
  rintro id ⟨⟩
  exact (hgrove.row.lies (by simp)).weaken (by omega) le_rfl

theorem paramsTail_spends (rounds groups : Nat) :
    Spends src (paramsTail rounds groups) (fun _ => 0) fun (ids, _) => ids.length := by
  induction groups with
  | zero => exact fun _ _ _ _ _ _ => .stalled
  | succ groups ih =>
    refine .of_from fun c d R => .eatIf rfl (fun _ hdots => ?_) ?_
    · refine .eatIf rfl (fun _ _ => ?_) fun _ _ _ => .fail hdots
      exact .pure (by omega) le_rfl
    · refine (paramGroup_spends rounds).andThen fun ids => .eatIf rfl (fun _ _ => ?_) ?_
      · exact ih.andThen fun _ => .pure (by omega) (by simp only [List.length_append]; omega)
      · exact .expect rfl fun _ => .pure (by omega) le_rfl

theorem params_spend (rounds : Nat) : Spends src (params rounds) (fun _ => 0) fun (ids, _) =>
    ids.length := by
  refine .of_from fun c d R => .eatIf rfl (fun _ _ => ?_) fun _ _ h =>
    paramsTail_spends rounds rounds h R
  exact .pure (by omega) le_rfl

theorem returns_spend (rounds : Nat) : Spends src (returns rounds) (fun _ => 0) List.length := by
  have htypes := commaSeparated_spends (@typeExpr_spends src rounds) rounds
  refine .of_from fun c d R => .eatIf rfl (fun _ _ => .eatIf rfl (fun _ _ => ?_) ?_)
    (atType_spends.andThen fun found => ?_)
  · exact .pure (by omega) le_rfl
  · exact htypes.andThen fun _ => .expect rfl fun _ => .pure (by omega) (by simp)
  · split
    · exact (typeExpr_spends rounds).andThen fun _ => .pure le_rfl le_rfl
    · exact .pure le_rfl le_rfl

section

variable {block : Production NodeId} (hblock : SpendsOne src block 0)

include hblock

theorem body_spends : Spends src (body block) (fun _ => 0) fun b => b.block.toList.length := by
  refine .of_from fun c d R => .eatIf rfl (fun _ _ => ?_) (.peek fun u hu => ?_)
  · refine .eatIf rfl (fun _ _ => .expect rfl fun _ => ?_) (.expect rfl fun _ => ?_)
    all_goals exact .pure (by omega) le_rfl
  · split_ifs
    · exact fun _ _ => .unexpected hu
    · exact SureFrom.here (hblock.andThen fun _ => .spanOf fun _ _ =>
        .pure le_rfl le_rfl)

theorem function_spends (hyields : Yields src block fun id => [id]) (rounds : Nat) :
    SpendsOne src (function block rounds) 0 := by
  refine SpendsOne.attempt (function_yields hyields rounds) fun c d base => .expect rfl fun _ =>
    .expect rfl fun _ => (params_spend rounds).andThen ?_
  rintro ⟨ids, variadic⟩
  refine (returns_spend rounds).andThen fun rets => (body_spends hblock).andThen fun b =>
    .allocList (d + rets.length) (by simp only; omega) fun _ => .allocList d le_rfl
      fun _ => ?_
  exact fun _ _ h => sure_alloc_update_rooted (fun n => ⟨rfl, rfl⟩) h (by omega) (by omega)

end

theorem struct_spends (rounds : Nat) : SpendsOne src (struct rounds) 0 := by
  refine SpendsOne.attempt (struct_yields rounds) fun c d base => .expect rfl fun _ =>
    .expect rfl fun _ =>
    manyUntil_eat_from (definition_yields rounds) (definition_spends rounds) rfl
    fun members _ => ?_
  exact .allocList d (by simp) fun _ => .alloc (by omega)

/-! ### Declarations -/

/-- Of the name and the colons behind it, a constant uses up one and the other declarations none. -/
theorem declaration_spends {block : Production NodeId} {rounds : Nat}
    (hblock : SpendsOne src block 0) (hyields : Yields src block fun id => [id])
    (hundoes : Undoes src (function block rounds)) :
    SpendsOne src (declaration block rounds) 1 := by
  have hvalue : SpendsOne src (firstOf [struct rounds, function block rounds,
      expression rounds]) 0 := by
    apply firstOf_spends
    · simp only [List.forall_mem_cons]
      exact ⟨struct_undoes rounds, hundoes, expression_undoes rounds, by simp⟩
    · simp only [List.forall_mem_cons]
      exact ⟨struct_spends rounds, function_spends hblock hyields rounds,
        expression_spends rounds, by simp⟩
  refine SpendsOne.attempt (declaration_yields hyields hundoes) fun c d base => .expect rfl fun _ =>
    .expect rfl fun _ => hvalue.andThen fun value t st h => (sure_node h).bind ?_
  rintro n st₁ - ⟨-, h₁⟩
  split
  · exact sure_update_rooted h₁ (by omega) (by omega)
  · exact SureFrom.expect rfl (fun _ => .alloc (by omega)) h₁

end MicroCompiler.Grammar
