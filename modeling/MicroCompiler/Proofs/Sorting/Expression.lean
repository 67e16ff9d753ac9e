import MicroCompiler.Proofs.Grammar.Growth.Expression
import MicroCompiler.Proofs.Sorting.Category

/-! Types and expressions are well-sorted. From a pool whose nodes are all well-sorted and named, a
production that succeeds leads to such a pool again, and the nodes of the former one stay in their
categories. -/

namespace MicroCompiler

namespace Ast

variable {q r : Pool} {n : Node}

/-! ### Joining -/

/-- An operator may take another right operand, and other nodes are left alone. -/
theorem Pool.WellSorted.extendRight {j : NodeId} (hw : q.WellSorted n.kind n.flags)
    (hj : q.Is j .expression) (stop : Nat) :
    q.WellSorted (n.extendRight (some j) stop).kind (n.extendRight (some j) stop).flags := by
  unfold Node.extendRight
  cases hkind : n.kind with
  | binary op left right =>
    rw [hkind] at hw
    have hrequired := hw.required
    have hleft := hw.children (.expression, left) (by simp)
    refine ⟨?_, ?_, by simp, by simp, by simp, by simp, fun hflags => ?_⟩
    · simp only [NodeKind.required, NodeKind.slots, List.mem_cons] at hrequired ⊢
      tauto
    · simpa using ⟨by simpa using hleft, hj⟩
    · obtain ⟨name, params, returns, body, library, hfunction⟩ := hw.flagged hflags
      cases hfunction
  | _ => simpa [hkind] using hw

theorem Node.extendRight_categories (right : Slot) (stop : Nat) :
    (n.extendRight right stop).kind.categories = n.kind.categories ∧
      (n.extendRight right stop).kind.isNamed = n.kind.isNamed := by
  unfold Node.extendRight
  cases hkind : n.kind <;> simp

/-- Along the right spine every operator has expressions as its operands, and keeps having them. -/
theorem Pool.attachAt_sorted {op : BinaryOp} {left right : NodeId} {joined : Slot}
    {levels stop : Nat} (h : q.Sorted []) (hleft : q.Is left .expression)
    (hright : q.Is right .expression)
    (hattach : q.attachAt op right (some left) levels = .ok (joined, stop, r)) :
    ∃ j, joined = some j ∧ r.Sorted [] ∧ q.Steady r ∧ r.Is j .expression := by
  induction levels generalizing left joined stop r with
  | zero => cases hattach
  | succ levels ih =>
    obtain ⟨n, hn, hcategory⟩ := hleft
    obtain ⟨m, hm, hcategory'⟩ := hright
    rcases attachAt_cases hn hm hattach with
      hresult | ⟨lower, first, child, joined', stop', r', hkind, hbelow, hmodify, hresult⟩
    · obtain ⟨rfl, -, rfl⟩ : joined = some ⟨q.size⟩ ∧ _ ∧ r = _ := by simpa using hresult
      have hw : q.WellSorted (.binary op (some left) (some right)) {} :=
        wellSorted_plain rfl (by simpa using ⟨⟨n, hn, hcategory⟩, m, hm, hcategory'⟩) (by simp)
      exact ⟨_, rfl, h.alloc _ hw (by simp), .of_extends (.alloc q _ _), _,
        q.alloc_node _ _, by simp⟩
    · have hw := (h left n hn).1
      rw [hkind] at hw
      obtain ⟨c, rfl⟩ : ∃ c, child = some c := by
        cases child with
        | none => exact absurd (by simp) hw.required
        | some c => exact ⟨c, rfl⟩
      obtain ⟨j, rfl, hsorted, hsteady, hj⟩ :=
        ih (hw.children (.expression, some c) (by simp) c rfl) hbelow
      obtain ⟨k, hk, hsame, -⟩ := hsteady.nodes _ n hn
      have hvar : .var ∉ k.kind.categories := by
        rw [hsame, hkind]
        simp
      obtain ⟨hcategories, hnamed⟩ := k.extendRight_categories (some j) stop'
      have hlt : left.index < r'.size := (Array.getElem?_eq_some_iff.mp hk).1
      rw [modify_eq hlt] at hmodify
      obtain ⟨rfl, -⟩ : joined = some left ∧ stop = stop' := by simpa using hresult
      obtain rfl : r'.change left.index (·.extendRight (some j) stop') = r := Except.ok.inj hmodify
      refine ⟨left, rfl, ?_, hsteady.trans (steady_change hk _ hcategories hvar), _,
        change_node_self hk _, ?_⟩
      · obtain ⟨hw', hnamed'⟩ := hsorted left k hk
        exact hsorted.change hk _ hcategories hvar (hw'.extendRight hj stop')
          (fun _ => by rw [hnamed, hnamed' (by simp)]) (by simp)
      · rw [hcategories, hsame]
        exact hcategory

end Ast

namespace Grammar

open Ast (BinaryOp Category Node NodeId NodeKind Pool)
open Ast.Pool (wellSorted_plain)
open Token (Kind)
open Production

variable {α : Type} {src : Source} {st : State} {t : Token} {pool q : Pool} {c : Category}
  {expr : Production NodeId} {p : Production α} {post : Pool → α → Prop}

/-- The pool is well-sorted, what was in it before stays what it was, and `post` holds of the
value. -/
abbrev Kept (src : Source) (before : Pool) (post : Pool → α → Prop) (a : α) (st : State) : Prop :=
  ∃ t q, Stands src st t q ∧ q.Sorted [] ∧ before.Steady q ∧ post q a

/-- From a well-sorted pool the production leads to one again, with values of which `post` holds. -/
def Sorts (src : Source) (p : Production α) (post : Pool → α → Prop) : Prop :=
  ∀ ⦃st : State⦄ ⦃t : Token⦄ ⦃pool : Pool⦄, Stands src st t pool → pool.Sorted [] →
    p.Ensures src st (Kept src pool post)

/-- What stayed before a production stays behind it. -/
theorem Production.Ensures.since (h : p.Ensures src st (Kept src q post))
    (hsteady : pool.Steady q) : p.Ensures src st (Kept src pool post) :=
  h.mono fun _ _ ⟨t', r, h', hsorted, hsteady', hpost⟩ => ⟨t', r, h', hsorted,
  hsteady.trans hsteady', hpost⟩

/-- The production makes a node that places for the category take. -/
abbrev Makes (src : Source) (p : Production NodeId) (c : Category) : Prop :=
  Sorts src p fun q id => q.Is id c

theorem firstOf_sorts {ps : List (Production α)} {post : Pool → α → Prop}
    (hundoes : ∀ p' ∈ p :: ps, Undoes src p') (hps : ∀ p' ∈ p :: ps, Sorts src p' post) :
    Sorts src (firstOf (p :: ps)) post := by
  intro st t pool h hsorted
  refine ensures_firstOf h hundoes fun p' hp' st' q h' hnodes hlists => ?_
  exact (hps p' hp' h' (hsorted.of_tables hnodes hlists)).since
    (.of_extends (.of_tables hnodes hlists))

/-- The production reads tokens and nodes, but leaves the pool as it is, and `V` holds of its
value. -/
def Idle (src : Source) (p : Production α) (V : α → Prop) : Prop :=
  ∀ ⦃st : State⦄ ⦃t : Token⦄ ⦃pool : Pool⦄, Stands src st t pool →
    p.Ensures src st fun a st' => V a ∧ ∃ t', Stands src st' t' pool

/-- From the pool `q`, if it is well-sorted, the production ensures `Q`. -/
def EnsuresFrom (src : Source) (q : Pool) (p : Production α) (Q : α → State → Prop) : Prop :=
  ∀ ⦃st : State⦄ ⦃t : Token⦄, Stands src st t q → q.Sorted [] → p.Ensures src st Q

/-- From the pool `q` the production leads to a well-sorted pool, with values of which `post`
holds. -/
abbrev SortsFrom (src : Source) (q : Pool) (p : Production α) (post : Pool → α → Prop) : Prop :=
  EnsuresFrom src q p (Kept src q post)

theorem Sorts.of_from (h : ∀ q, SortsFrom src q p post) : Sorts src p post := fun _ _ q => @h q _ _

theorem Sorts.from (h : Sorts src p post) : SortsFrom src q p post :=
  fun _ _ hstands hsorted => h hstands hsorted

namespace EnsuresFrom

variable {Q : α → State → Prop} {p : Production α}

theorem stalled : EnsuresFrom src q (stalled : Production α) Q := fun _ _ _ _ => ensures_stalled

theorem fail {e : Diagnostic} : EnsuresFrom src q (fail e : Production α) Q :=
  fun _ _ _ _ => ensures_fail

theorem unexpected {code : Diagnostic.Code} {wanted : String} {found : Token} :
    EnsuresFrom src q (unexpected code wanted found : Production α) Q :=
    fun _ _ _ _ => ensures_unexpected

theorem attempt (h : EnsuresFrom src q p Q) : EnsuresFrom src q (attempt p) Q :=
  fun _ _ hstands hsorted => ensures_attempt hstands fun _ hstands' => h hstands' hsorted

theorem orUnexpected {code : Diagnostic.Code} {wanted : String} {start : Token}
    (h : EnsuresFrom src q p Q) : EnsuresFrom src q (orUnexpected code wanted start p) Q :=
  fun _ _ hstands hsorted => ensures_orUnexpected (h hstands hsorted)

variable {β : Type} {f : α → Production β} {V : Pool → α → Prop} {W : Pool → β → Prop}

/-- What holds since a later pool has to hold since an earlier one, too. -/
theorem bind_since {R : Pool → β → State → Prop}
    (hR : ∀ {q r b st}, q.Steady r → R r b st → R q b st)
    (h : SortsFrom src q p V) (hf : ∀ a r, q.Steady r → V r a → EnsuresFrom src r (f a) (R r)) :
    EnsuresFrom src q (p >>= f) (R q) := by
  intro st t hstands hsorted
  refine (h hstands hsorted).bind ?_
  rintro a st' ⟨t', r, hstands', hsorted', hsteady, ha⟩
  exact (hf a r hsteady ha hstands' hsorted').mono fun b st' => hR hsteady

theorem bind (h : SortsFrom src q p V) (hf : ∀ a r, q.Steady r → V r a → SortsFrom src r (f a) W) :
    SortsFrom src q (p >>= f) W := by
  refine h.bind_since ?_ hf
  rintro q r b st hsteady ⟨t', r', hstands', hsorted', hsteady', hb⟩
  exact ⟨t', r', hstands', hsorted', hsteady.trans hsteady', hb⟩

theorem pure {a : α} (h : V q a) : SortsFrom src q (pure a) V :=
  fun _ t hstands hsorted => ensures_pure ⟨t, q, hstands, hsorted, .refl q, h⟩

theorem mono {V' : Pool → α → Prop} (h : SortsFrom src q p V) (himp : ∀ r a, V r a → V' r a) :
    SortsFrom src q p V' := by
  intro st t hstands hsorted
  refine (h hstands hsorted).mono ?_
  rintro a st' ⟨t', r, hstands', hsorted', hsteady, ha⟩
  exact ⟨t', r, hstands', hsorted', hsteady, himp r a ha⟩

/-- A production may end with a new node. -/
theorem alloc {kind : NodeKind} {span : Span} (hc : kind.isNamed && c ∈ kind.categories)
    (hw : q.WellSorted kind {}) :
    SortsFrom src q (alloc kind span) fun r id => r.Is id c := by
  intro st t hstands hsorted
  rw [Bool.and_eq_true_iff, decide_eq_true_iff] at hc
  refine (ensures_alloc hstands).mono ?_
  rintro _ st' ⟨rfl, hstands'⟩
  exact ⟨t, _, hstands', hsorted.alloc span hw fun _ => hc.1, .of_extends (.alloc q kind span), _,
    q.alloc_node kind span, hc.2⟩

/-- A new list holds the nodes it was made of. -/
theorem allocList {ids : List NodeId} (hids : ∀ id ∈ ids, q.Is id c) :
    SortsFrom src q (allocList ids) fun r range => r.Lists range c := by
  intro st t hstands hsorted
  refine (ensures_allocList hstands).mono ?_
  rintro _ st' ⟨rfl, hstands'⟩
  have hsteady : q.Steady (q.allocList (ids.map some)).2 := .of_extends (.allocList q _)
  exact ⟨t, _, hstands', hsorted.allocList _, hsteady, ids, q.list_allocList ids, fun id hid =>
    hsteady.is (hids id hid)⟩

end EnsuresFrom

theorem Sorts.mono {post post' : Pool → α → Prop} (hp : Sorts src p post)
    (himp : ∀ q a, post q a → post' q a) : Sorts src p post' := .of_from fun _ => hp.from.mono himp

theorem Sorts.bind {β : Type} {f : α → Production β} {V : Pool → α → Prop} {W : Pool → β → Prop}
    (h : Sorts src p V) (hf : ∀ a r, q.Steady r → V r a → SortsFrom src r (f a) W) :
    SortsFrom src q (p >>= f) W :=
  h.from.bind hf

namespace Idle

theorem bind {β : Type} {f : α → Production β} {V : α → Prop} {Q : β → State → Prop}
    (h : Idle src p V) (hf : ∀ a, V a → EnsuresFrom src q (f a) Q) :
    EnsuresFrom src q (p >>= f) Q := by
  intro st t hstands hsorted
  refine (h hstands).bind ?_
  rintro a st' ⟨ha, t', hstands'⟩
  exact hf a ha hstands' hsorted

theorem peek : Idle src peek fun _ => True :=
  fun _ t _ h => (ensures_peek h).mono fun _ _ h' => ⟨trivial, t, h'.2⟩

theorem eat : Idle src eat fun _ => True := fun _ _ _ h =>
  (ensures_eat h).mono fun _ _ h' => ⟨trivial, h'.2.imp fun _ => And.right⟩

theorem check {kind : Kind} : Idle src (check kind) fun _ => True :=
  fun _ t _ h => (ensures_check h).mono fun _ _ h' => ⟨trivial, t, h'.2⟩

theorem eatIf {kind : Kind} : Idle src (eatIf kind) fun _ => True := by
  intro st t pool h
  refine (ensures_eatIf h).mono ?_
  rintro found st' (⟨-, -, t', -, h'⟩ | ⟨-, h'⟩)
  · exact ⟨trivial, t', h'⟩
  · exact ⟨trivial, t, h'⟩

theorem expectAs {code : Diagnostic.Code} {kind : Kind} : Idle src (expectAs code kind) fun _ =>
    True := fun _ _ _ h =>
  (ensures_expectAs h).mono fun _ _ h' => ⟨trivial, h'.2.2.imp fun _ => And.right⟩

theorem number {u : Token} : Idle src (number u) fun _ => True :=
  fun _ t _ h => (ensures_number h).mono fun _ _ h' => ⟨trivial, t, h'⟩

theorem spanOf {id : NodeId} : Idle src (spanOf id) fun _ => True :=
  fun _ t _ h => (ensures_spanOf h).mono fun _ _ h' => ⟨trivial, t, h'.2⟩

end Idle

/-! ### Types and lists -/

theorem typeExpr_makes (depth : Nat) : Makes src (typeExpr depth) .type := by
  induction depth with
  | zero => exact .of_from fun _ => .stalled
  | succ depth ih =>
    refine .of_from fun q => .attempt (Idle.peek.bind fun t _ => ?_)
    split
    · refine Idle.eat.bind fun _ _ => ih.bind fun pointee r _ hpointee =>
        Idle.spanOf.bind fun _ _ => ?_
      exact .alloc rfl (wellSorted_plain rfl (by simpa using hpointee) (by simp))
    · exact Idle.eat.bind fun _ _ => .alloc rfl (wellSorted_plain rfl (by simp) (by simp))
    · exact .unexpected

section

variable (hexpr : Makes src expr c)

include hexpr

/-- One more node before others. -/
theorem cons_sorts {rest : Production (List NodeId)}
    (hrest : Sorts src rest fun q ids => ∀ id ∈ ids, q.Is id c) :
    SortsFrom src q (do
      let a ← expr
      let rest ← rest
      pure (a :: rest)) fun q ids => ∀ id ∈ ids, q.Is id c :=
  hexpr.bind fun _ _ _ ha => hrest.bind fun _ _ hsteady hids =>
    .pure (List.forall_mem_cons.mpr ⟨hsteady.is ha, hids⟩)

theorem commaTail_sorts (rounds : Nat) : Sorts src (commaTail expr rounds) fun q ids =>
    ∀ id ∈ ids, q.Is id c := by
  induction rounds with
  | zero => exact .of_from fun _ => .stalled
  | succ rounds ih =>
    refine .of_from fun q => Idle.eatIf.bind fun comma _ => ?_
    split
    · exact .pure (by simp)
    · exact cons_sorts hexpr ih

theorem commaSeparated_sorts (rounds : Nat) :
    Sorts src (commaSeparated expr rounds) fun q ids => ∀ id ∈ ids, q.Is id c :=
  .of_from fun _ => cons_sorts hexpr (commaTail_sorts hexpr rounds)

theorem manyUntil_sorts (stop : Kind) (rounds : Nat) :
    Sorts src (manyUntil stop expr rounds) fun q ids => ∀ id ∈ ids, q.Is id c := by
  induction rounds with
  | zero => exact .of_from fun _ => .stalled
  | succ rounds ih =>
    refine .of_from fun q => Idle.check.bind fun found _ => ?_
    split
    · exact .pure (by simp)
    · exact cons_sorts hexpr ih

theorem expressions_sorts (rounds : Nat) : Sorts src (expressions expr rounds) fun q ids =>
    ∀ id ∈ ids, q.Is id c :=
  .of_from fun _ => .attempt (commaSeparated_sorts hexpr rounds).from

/-- Nodes that may be left out before a certain token. -/
theorem optional_sorts (stop : Kind) (rounds : Nat) : Sorts src (check stop >>= fun found =>
    if found = true then pure [] else expressions expr rounds) fun q ids =>
      ∀ id ∈ ids, q.Is id c := by
  refine .of_from fun q => Idle.check.bind fun found _ => ?_
  split
  · exact .pure (by simp)
  · exact (expressions_sorts hexpr rounds).from

end

/-! ### Operands -/

theorem primary_makes (hexpr : Makes src expr .expression) :
    Makes src (primary expr) .expression := by
  refine .of_from fun q => .attempt (Idle.peek.bind fun t _ => ?_)
  split
  · exact Idle.eat.bind fun _ _ => .alloc rfl (wellSorted_plain rfl (by simp) (by simp))
  · exact Idle.eat.bind fun _ _ => Idle.number.bind fun _ _ =>
      .alloc rfl (wellSorted_plain rfl (by simp) (by simp))
  · exact Idle.eat.bind fun _ _ => .alloc rfl (wellSorted_plain rfl (by simp) (by simp))
  · exact Idle.eat.bind fun _ _ => .alloc rfl (wellSorted_plain rfl (by simp) (by simp))
  · refine Idle.eat.bind fun _ _ => hexpr.bind fun inner r _ hinner =>
      Idle.expectAs.bind fun close _ => ?_
    intro st t h hsorted
    obtain ⟨n, hn, hc⟩ := hinner
    have hvar := NodeKind.not_var_of_expression hc
    obtain ⟨hw, hnamed⟩ := hsorted inner n hn
    refine (ensures_update h).bind fun _ st' h' => ?_
    exact ensures_pure ⟨t, _, h', hsorted.change hn _ rfl hvar (hw.paren hc) hnamed (by simp),
      Pool.steady_change hn _ rfl hvar, _, Pool.change_node_self hn _, hc⟩
  · exact .unexpected

/-! ### Suffixes -/

/-- The production makes a larger expression of the one in front of it. -/
def Enlarges (src : Source) (p : NodeId → Production NodeId) : Prop :=
  ∀ ⦃st : State⦄ ⦃t : Token⦄ ⦃pool : Pool⦄ ⦃operand : NodeId⦄, Stands src st t pool →
    pool.Sorted [] → pool.Is operand .expression →
    (p operand).Ensures src st (Kept src pool fun q id => q.Is id .expression)

theorem Enlarges.from {p : NodeId → Production NodeId} {operand : NodeId} (h : Enlarges src p)
    (hoperand : q.Is operand .expression) : SortsFrom src q (p operand) fun r id =>
    r.Is id .expression :=
  fun _ _ hstands hsorted => h hstands hsorted hoperand

theorem Enlarges.of_from {p : NodeId → Production NodeId}
    (h : ∀ q operand, q.Is operand .expression → SortsFrom src q (p operand) fun r id =>
      r.Is id .expression) : Enlarges src p :=
  fun _ _ q operand hstands hsorted hoperand => h q operand hoperand hstands hsorted

section

variable (hexpr : Makes src expr .expression)

include hexpr

theorem call_enlarges (rounds : Nat) : Enlarges src fun callee => call expr callee rounds := by
  refine .of_from fun q callee hcallee => .attempt (Idle.expectAs.bind fun _ _ => ?_)
  refine (optional_sorts hexpr .rightParen rounds).bind fun args q₁ h₁ hargs =>
    Idle.expectAs.bind fun close _ => ?_
  refine (EnsuresFrom.allocList hargs).bind fun range q₂ h₂ hrange =>
    Idle.spanOf.bind fun head _ => ?_
  have hcallee' := (h₁.trans h₂).is hcallee
  exact .alloc rfl (wellSorted_plain rfl (by simpa using hcallee') (by simpa using hrange))

theorem subscript_enlarges : Enlarges src (subscript expr) := by
  refine .of_from fun q container hcontainer => Idle.spanOf.bind fun head _ =>
    Idle.eat.bind fun _ _ => ?_
  refine hexpr.bind fun index q₁ h₁ hindex => Idle.expectAs.bind fun close _ => ?_
  exact .alloc rfl (wellSorted_plain rfl (by simpa using ⟨h₁.is hcontainer, hindex⟩) (by simp))

omit hexpr in
theorem selection_enlarges (rounds : Nat) :
    Enlarges src fun operand => selection operand rounds := by
  refine .of_from fun q operand hoperand => Idle.spanOf.bind fun head _ =>
    Idle.eat.bind fun _ _ => ?_
  refine Idle.eatIf.bind fun paren _ => ?_
  split
  · refine (typeExpr_makes rounds).bind fun type q₁ h₁ htype => Idle.expectAs.bind fun close _ => ?_
    exact .alloc rfl (wellSorted_plain rfl (by simpa using ⟨h₁.is hoperand, htype⟩) (by simp))
  · refine Idle.expectAs.bind fun name _ => ?_
    exact .alloc rfl (wellSorted_plain rfl (by simpa using hoperand) (by simp))

theorem suffixes_enlarge (rounds : Nat) :
    Enlarges src fun operand => suffixes expr operand rounds := by
  induction rounds with
  | zero => exact .of_from fun _ _ _ => .stalled
  | succ rounds ih =>
    refine .of_from fun q operand hoperand => Idle.peek.bind fun t _ => ?_
    split
    · exact ((call_enlarges hexpr (rounds + 1)).from hoperand).bind fun joined r _ hjoined =>
        ih.from hjoined
    · exact ((subscript_enlarges hexpr).from hoperand).bind fun joined r _ hjoined =>
        ih.from hjoined
    · exact ((selection_enlarges (rounds + 1)).from hoperand).bind fun joined r _ hjoined =>
        ih.from hjoined
    · exact .pure hoperand

/-! ### Operators -/

theorem unary_makes (rounds depth : Nat) : Makes src (unary expr rounds depth) .expression := by
  induction depth with
  | zero => exact .of_from fun _ => .stalled
  | succ depth ih =>
    refine .of_from fun q => .attempt (Idle.peek.bind fun t _ => ?_)
    split
    · exact (primary_makes hexpr).bind fun operand r _ hoperand =>
        (suffixes_enlarge hexpr rounds).from hoperand
    · refine Idle.eat.bind fun _ _ => ih.bind fun operand r _ hoperand =>
        Idle.spanOf.bind fun _ _ => ?_
      exact .alloc rfl (wellSorted_plain rfl (by simpa using hoperand) (by simp))

end

theorem attach_sorts {left right : NodeId} {op : BinaryOp} (hleft : q.Is left .expression)
    (hright : q.Is right .expression) : SortsFrom src q (attach left op right) fun r id =>
    r.Is id .expression := by
  intro st t h hsorted
  refine (ensures_attach h).mono ?_
  rintro _ st' ⟨joined, r, hattach, rfl, h'⟩
  rw [Pool.attachBinary] at hattach
  cases hwalk : q.attachAt op right (some left) (q.size + 1) with
  | error fault => simp [hwalk, Except.map] at hattach
  | ok walked =>
    obtain ⟨joined', stop, r'⟩ := walked
    obtain ⟨rfl, rfl⟩ : joined' = joined ∧ r' = r := by simpa [hwalk, Except.map] using hattach
    obtain ⟨j, rfl, hsorted', hsteady, hj⟩ := Pool.attachAt_sorted hsorted hleft hright hwalk
    exact ⟨t, r', h', hsorted', hsteady, hj⟩

theorem binaryTail_enlarges {operand : Production NodeId} (hoperand : Makes src operand .expression)
    (rounds : Nat) : Enlarges src fun left => binaryTail operand left rounds := by
  induction rounds with
  | zero => exact .of_from fun _ _ _ => .stalled
  | succ rounds ih =>
    refine .of_from fun q left hleft => Idle.peek.bind fun t _ => ?_
    split
    · exact .pure hleft
    · refine Idle.eat.bind fun _ _ => hoperand.bind fun right r h₁ hright => ?_
      exact (attach_sorts (h₁.is hleft) hright).bind fun joined r' _ hjoined => ih.from hjoined

theorem expression_makes (depth : Nat) : Makes src (expression depth) .expression := by
  induction depth with
  | zero => exact .of_from fun _ => .stalled
  | succ depth ih =>
    have hoperand := unary_makes ih (depth + 1) (depth + 1)
    refine .of_from fun q => .attempt (hoperand.bind fun left r _ hleft => ?_)
    exact (binaryTail_enlarges hoperand (depth + 1)).from hleft

end Grammar

end MicroCompiler
