import MicroCompiler.Proofs.Safety.Balance

/-! Types and expressions are safe. Every node is paid for with a token of its own: a name, a
literal, an operator, or the bracket or point in front of a suffix. -/

namespace MicroCompiler.Grammar

open Ast (BinaryOp Grove NodeId Pool)
open Token (Kind)
open Production

variable {α : Type} {src : Source} {st : State} {t : Token} {c d : Nat} {item : Production α}
  {expr : Production NodeId}

/-! ### Types and lists -/

theorem typeExpr_spends (depth : Nat) : SpendsOne src (typeExpr depth) 0 := by
  induction depth with
  | zero => exact fun _ _ _ _ _ _ => .stalled
  | succ depth ih =>
    refine SpendsOne.attempt (typeExpr_yields (depth + 1)) fun c d base => .peek fun t ht => ?_
    split
    next hkind =>
      exact .eat hkind rfl (ih.andThen fun _ => .spanOf fun _ _ => .alloc (by omega))
    next hkind => exact .eat hkind rfl (.alloc (by omega))
    next => exact fun _ _ => .unexpected ht

section

variable {gain count : Nat} (hitem : Spends src item (fun _ => gain) fun _ => count)

include hitem

theorem commaTail_spends (rounds : Nat) :
    Spends src (commaTail item rounds) (fun as => gain * as.length) fun as =>
    count * as.length := by
  induction rounds with
  | zero => exact fun _ _ _ _ _ _ => .stalled
  | succ rounds ih =>
    refine .of_from fun c d R => .eatIf rfl (fun _ _ => ?_) (.pure le_rfl le_rfl)
    refine hitem.andThen fun a => ih.andThen fun rest => .pure ?_ ?_
    all_goals
      simp only [List.length_cons, Nat.mul_add, Nat.mul_one]
      omega

theorem commaSeparated_spends (rounds : Nat) :
    Spends src (commaSeparated item rounds) (fun as => gain * as.length) fun as =>
    count * as.length := by
  refine .of_from fun c d R => hitem.andThen fun a => (commaTail_spends hitem rounds).andThen
    fun rest => .pure ?_ ?_
  all_goals
    simp only [List.length_cons, Nat.mul_add, Nat.mul_one]
    omega

theorem manyUntil_spends (stop : Kind) (rounds : Nat) :
    Spends src (manyUntil stop item rounds) (fun as => gain * as.length) fun as =>
    count * as.length := by
  induction rounds with
  | zero => exact fun _ _ _ _ _ _ => .stalled
  | succ rounds ih =>
    refine .of_from fun c d R => .check fun found => ?_
    split_ifs
    · exact .pure le_rfl le_rfl
    · refine hitem.andThen fun a => ih.andThen fun rest => .pure ?_ ?_
      all_goals
        simp only [List.length_cons, Nat.mul_add, Nat.mul_one]
        omega

end

/-- The items up to a token, and the token itself. -/
theorem manyUntil_eat_from {item : Production NodeId} {gain : Nat} {stop : Kind} {rounds : Nat}
    {f : List NodeId → Token → Production α} {R Q : α → State → Prop}
    (hyields : Yields src item fun id => [id]) (hitem : SpendsOne src item gain)
    (hstop : stop != .eof)
    (hf : ∀ ids u, SureFrom src (c + gain * ids.length + 1) (d + 1 * ids.length) (f ids u) R Q) :
    SureFrom src c d (manyUntil stop item rounds >>= fun ids => eat >>= f ids) R Q := by
  intro t st h
  refine (manyUntil_spends hitem stop rounds h _).bind ?_
  rintro ids st₁ ho ⟨t₁, h₁⟩
  obtain ⟨u, q, hstands, -, hfound⟩ := manyUntil_grows hyields stop rounds h.stands _ _ ho
  obtain rfl : t₁ = u := h₁.next.symm.trans hstands.next
  exact SureAt.eat hfound hstop (hf ids _) h₁

theorem expressions_spends (hexpr : SpendsOne src expr 0) (rounds : Nat) :
    Spends src (expressions expr rounds) (fun _ => 0) List.length := by
  intro st t c d h R
  refine sure_attempt h fun st₁ h₁ _ => ?_
  refine (commaSeparated_spends hexpr rounds h₁ R).mono ?_
  rintro ids st₂ - ⟨t₂, h₂⟩
  simp only [Nat.zero_mul, Nat.one_mul] at h₂
  exact ⟨t₂, h₂⟩

/-! ### Operands -/

theorem number_spends {u : Token} (hu : u.span.Fits) : Spends src (number u) (fun _ => 0) fun _ =>
    0 := by
  intro st t c d h R
  have htext : Sure src (textOf u.span) st anyhow fun _ st' => Ready src st' t c d := fun _ _ =>
    ⟨.textOf _, by rintro _ _ ⟨⟩; exact ⟨.refl st, h⟩, by rintro _ _ ⟨⟩⟩
  refine htext.bind fun text st₁ _ h₁ => ?_
  split
  · exact .pure ⟨t, h₁⟩
  · exact .fail hu

theorem primary_spends (hyields : Yields src expr fun id => [id]) (hexpr : SpendsOne src expr 0) :
    SpendsOne src (primary expr) 0 := by
  refine SpendsOne.attempt (primary_yields hyields) fun c d base => .peek fun t ht => ?_
  -- Whatever the token is, it pays for the node.
  split
  next hkind => exact .eat hkind rfl (.alloc (by omega))
  next hkind =>
    exact .eat hkind rfl ((number_spends ht).andThen fun _ => .alloc (by omega))
  next hkind => exact .eat hkind rfl (.alloc (by omega))
  next hkind => exact .eat hkind rfl (.alloc (by omega))
  next hkind =>
    refine .eat hkind rfl (hexpr.andThen fun _ => .expect rfl fun _ => ?_)
    exact fun _ _ h => sure_update_rooted h (by omega) (by omega)
  next => exact fun _ _ => .unexpected ht

/-! ### Suffixes -/

/-- The production adds to the node in front of it, which was loose, and leaves one loose node. -/
def Uses (src : Source) (p : NodeId → Production NodeId) : Prop :=
  ∀ ⦃st : State⦄ ⦃t : Token⦄ ⦃c d : Nat⦄ ⦃base : Pool⦄ ⦃lo : Nat⦄ ⦃operand : NodeId⦄, Ready src st t
    c d → Grove src base st.pool [operand] lo t.span.start → ∀ R,
      Sure src (p operand) st R fun _ st' => ∃ t', Ready src st' t' c d

theorem Takes.rooted {p : NodeId → Production NodeId} (hp : Takes src p) (h : Ready src st t c d)
    {base : Pool} {lo : Nat} {operand : NodeId}
    (hgrove : Grove src base st.pool [operand] lo t.span.start) :
    (p operand).Ensures src st (Rooted src base) :=
  (hp hgrove h.stands).mono fun _ _ hgrown => hgrown.rooted

theorem arguments_spends (hexpr : SpendsOne src expr 0) (rounds : Nat) :
    Spends src (arguments expr rounds) (fun _ => 0) List.length := by
  refine .of_from fun c d R => .check fun stop => ?_
  split
  · exact .pure le_rfl le_rfl
  · exact fun _ _ h => expressions_spends hexpr rounds h R

section

variable (hyields : Yields src expr fun id => [id]) (hexpr : SpendsOne src expr 0)

include hyields hexpr

theorem call_uses (rounds : Nat) : Uses src fun callee => call expr callee rounds := by
  intro st t c d base lo callee h hgrove R
  refine .knowing ((call_takes hyields rounds).rooted h hgrove) (sure_attempt h fun _ h' _ =>
    SureFrom.expect rfl ?_ h')
  exact fun _ => (arguments_spends hexpr rounds).andThen fun _ => .expect rfl fun _ =>
    .allocList d le_rfl fun _ => .spanOf fun _ _ => .alloc (by omega)

theorem subscript_uses (hkind : t.kind = .leftBracket) {base : Pool} {lo : Nat} {container : NodeId}
    (h : Ready src st t c d) (hgrove : Grove src base st.pool [container] lo t.span.start)
    (R : NodeId → State → Prop) : Sure src (subscript expr container) st R fun _ st' => ∃ t',
    Ready src st' t' c d := by
  refine .knowing ((subscript_takes hyields).rooted h hgrove) ((sure_spanOf h).bind ?_)
  rintro head st₁ - ⟨-, h₁⟩
  refine SureAt.eat hkind rfl ?_ h₁
  exact hexpr.andThen fun _ => .expect rfl fun _ => .alloc (by omega)

end

theorem selection_uses (rounds : Nat) (hkind : t.kind = .dot) {base : Pool} {lo : Nat}
    {operand : NodeId} (h : Ready src st t c d)
    (hgrove : Grove src base st.pool [operand] lo t.span.start) (R : NodeId → State → Prop) :
    Sure src (selection operand rounds) st R fun _ st' => ∃ t', Ready src st' t' c d := by
  refine .knowing ((selection_takes rounds).rooted h hgrove) ((sure_spanOf h).bind ?_)
  rintro head st₁ - ⟨-, h₁⟩
  refine SureAt.eat hkind rfl (.eatIf rfl (fun _ _ => ?_) ?_) h₁
  · exact (typeExpr_spends rounds).andThen fun _ => .expect rfl fun _ => .alloc (by omega)
  · exact .expect rfl fun _ => .alloc (by omega)

/-- A production that has grown a grove leaves it in front of the token that is next. -/
theorem Ready.grove (h : Ready src st t c d) {base : Pool} {ids : List NodeId} {lo : Nat}
    (hgrown : ∃ t' q, Stands src st t' q ∧ Grove src base q ids lo t'.span.start) :
    Grove src base st.pool ids lo t.span.start := by
  obtain ⟨t', q, h', hgrove⟩ := hgrown
  rwa [← h.next, h'.next, h'.pool]

section

variable (hyields : Yields src expr fun id => [id]) (hexpr : SpendsOne src expr 0)

include hyields hexpr

theorem suffixes_uses (rounds : Nat) : Uses src fun operand => suffixes expr operand rounds := by
  induction rounds with
  | zero => exact fun _ _ _ _ _ _ _ _ _ _ => .stalled
  | succ rounds ih =>
    intro st t c d base lo operand h hgrove R
    refine (sure_peek h).bind ?_
    rintro t st₁ hpeek ⟨rfl, h₁⟩
    rw [← (ensures_peek h.stands _ _ hpeek).2.pool] at hgrove
    have hmore : ∀ {p : NodeId → Production NodeId}, Takes src p →
        Sure src (p operand) st₁ anyhow (fun _ st' => ∃ t', Ready src st' t' c d) →
        Sure src (p operand >>= fun operand => suffixes expr operand rounds) st₁ R
          fun _ st' => ∃ t', Ready src st' t' c d := by
      intro p htakes hp
      refine hp.bind ?_
      rintro a st₂ ho ⟨t₂, h₂⟩
      exact ih h₂ (h₂.grove (htakes hgrove h₁.stands a st₂ ho)) R
    split
    next =>
      exact hmore (call_takes hyields (rounds + 1)) (call_uses hyields hexpr
        (rounds + 1) h₁ hgrove _)
    next hkind =>
      exact hmore (subscript_takes hyields) (subscript_uses hyields hexpr hkind h₁ hgrove _)
    next hkind =>
      exact hmore (selection_takes (rounds + 1)) (selection_uses (rounds + 1) hkind h₁ hgrove _)
    next => exact .pure ⟨t, h₁⟩

/-! ### Operators -/

theorem unary_spends (rounds depth : Nat) : SpendsOne src (unary expr rounds depth) 0 := by
  induction depth with
  | zero => exact fun _ _ _ _ _ _ => .stalled
  | succ depth ih =>
    intro st t c d h R
    refine .knowing ((unary_yields hyields rounds (depth + 1)).rooted h)
      (sure_attempt h fun st₁ h₁ _ => ?_)
    refine (sure_peek h₁).bind ?_
    rintro t st₂ - ⟨rfl, h₂⟩
    split
    next =>
      refine (primary_spends hyields hexpr h₂ _).bind ?_
      rintro operand st₃ ho ⟨t₃, h₃⟩
      exact suffixes_uses hyields hexpr rounds h₃
        (h₃.grove (primary_yields hyields h₂.stands operand st₃ ho)) _
    next op hop =>
      refine SureAt.eat rfl (bne_iff_ne.mpr (unaryToken_proper hop).2) ?_ h₂
      exact ih.andThen fun _ => .spanOf fun _ _ => .alloc (by omega)

end

theorem binaryTail_uses {operand : Production NodeId} (hyields : Yields src operand fun id => [id])
    (hoperand : SpendsOne src operand 0) (rounds : Nat) :
    Uses src fun left => binaryTail operand left rounds := by
  induction rounds with
  | zero => exact fun _ _ _ _ _ _ _ _ _ _ => .stalled
  | succ rounds ih =>
    intro st t c d base lo left h hgrove R
    refine (sure_peek h).bind ?_
    rintro t st₁ hpeek ⟨rfl, h₁⟩
    rw [← (ensures_peek h.stands _ _ hpeek).2.pool] at hgrove
    split
    next => exact .pure ⟨t, h₁⟩
    next op hop =>
      have hle := h₁.stands.le
      refine (sure_eat h₁).bind ?_
      rintro _ st₂ heat ⟨-, h₂⟩
      have hproper : t.kind ≠ .eof := by
        intro heof
        rw [heof, show BinaryOp.ofToken? .eof = none by decide] at hop
        cases hop
      obtain ⟨t₂, h₂⟩ := h₂ hproper
      obtain ⟨-, t', hpast, hstands⟩ := ensures_eat h₁.stands _ _ heat
      refine (hoperand h₂ _).bind ?_
      rintro right st₃ ho ⟨t₃, h₃⟩
      obtain ⟨t'', r, hstands', hgrove'⟩ := hyields hstands right st₃ ho
      have hgrove' : Grove src base st₃.pool [left, right] lo t₃.span.start :=
        h₃.grove ⟨t'', r, hstands', (hgrove.weaken le_rfl (by omega)).append hgrove'⟩
      refine (sure_attach h₃ hgrove').bind ?_
      rintro id st₄ - ⟨h₄, hgrove''⟩
      exact (ih h₄ hgrove'' R).mono fun _ _ _ ⟨t', h'⟩ => ⟨t', h'.mono (by omega) (by omega)⟩

theorem expression_spends (depth : Nat) : SpendsOne src (expression depth) 0 := by
  induction depth with
  | zero => exact fun _ _ _ _ _ _ => .stalled
  | succ depth ih =>
    have hyields : Yields src (unary (expression depth) (depth + 1) (depth + 1)) fun id => [id] :=
      unary_yields (expression_yields depth) (depth + 1) (depth + 1)
    have hoperand := unary_spends (expression_yields depth) ih (depth + 1) (depth + 1)
    intro st t c d h R
    refine sure_attempt h fun st₁ h₁ _ => ?_
    refine (hoperand h₁ _).bind ?_
    rintro left st₂ ho ⟨t₂, h₂⟩
    exact binaryTail_uses hyields hoperand (depth + 1) h₂
      (h₂.grove (hyields h₁.stands left st₂ ho)) R

end MicroCompiler.Grammar
