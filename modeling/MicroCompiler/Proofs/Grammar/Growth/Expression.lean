import MicroCompiler.Proofs.Ast.Grove
import MicroCompiler.Proofs.Grammar.Position

/-! The nodes that types and expressions leave behind. From a state where a token is next, a
production that succeeds has grown a grove between the start of that token and the start of the
token that is next now. `EnsuresAt` follows the code from token to token. -/

namespace MicroCompiler.Grammar

open Ast (Grove Node NodeId NodeKind NodeRange Pool Sited Surrounds UnaryOp)
open Token (Kind)
open Production

variable {α : Type} {src : Source} {st : State} {t : Token} {pool base q : Pool} {ids : List NodeId}
  {lo hi : Nat} {roots : α → List NodeId} {p : Production α} {Q : α → State → Prop}

/-- Whether tokens of the kind are well-formed pieces of the text. -/
def isProper (kind : Kind) : Bool := !kind.isError && kind != .eof

theorem isProper_iff {kind : Kind} : isProper kind ↔ kind.isError = false ∧ kind ≠ .eof := by
  simp [isProper]

theorem Stands.solid_of (h : Stands src st t pool) {kind : Kind} (hkind : t.kind = kind)
    (hproper : isProper kind) : t.Solid src := by
  subst hkind
  exact h.solid (isProper_iff.mp hproper).1 (isProper_iff.mp hproper).2

/-! ### From token to token -/

/-- Wherever `t` is next and the pool is `q`, the production ensures `Q`. -/
def EnsuresAt (src : Source) (t : Token) (q : Pool) (p : Production α) (Q : α → State → Prop) :
    Prop :=
  ∀ ⦃st : State⦄, Stands src st t q → p.Ensures src st Q

theorem Stands.ensures (hst : Stands src st t q) (h : EnsuresAt src t q p Q) : p.Ensures src st Q :=
  h hst

/-- From `base` a grove with these roots has grown between `lo` and the token that is next. -/
def Grown (src : Source) (base : Pool) (lo : Nat) (roots : α → List NodeId) (a : α) (st : State) :
    Prop :=
  ∃ t q, Stands src st t q ∧ Grove src base q (roots a) lo t.span.start

/-- The production grows a grove with these roots in front of the token that is next afterwards. -/
def Yields (src : Source) (p : Production α) (roots : α → List NodeId) : Prop :=
  ∀ ⦃t : Token⦄ ⦃pool : Pool⦄, EnsuresAt src t pool p (Grown src pool t.span.start roots)

theorem Grown.weaken {lo' : Nat} {a : α} (h : Grown src base lo roots a st) (hlo : lo' ≤ lo) :
    Grown src base lo' roots a st := by
  obtain ⟨t, q, hst, hgrove⟩ := h
  exact ⟨t, q, hst, hgrove.weaken hlo le_rfl⟩

namespace EnsuresAt

theorem stalled : EnsuresAt src t q (stalled : Production α) Q := fun _ _ => ensures_stalled

theorem fail {e : Diagnostic} : EnsuresAt src t q (fail e : Production α) Q :=
  fun _ _ => ensures_fail

theorem unexpected {code : Diagnostic.Code} {wanted : String} {found : Token} :
    EnsuresAt src t q (unexpected code wanted found : Production α) Q :=
    fun _ _ => ensures_unexpected

theorem pure {a : α} (h : ∀ ⦃st⦄, Stands src st t q → Q a st) : EnsuresAt src t q (pure a) Q :=
  fun _ hst => ensures_pure (h hst)

/-- A production may end with what has grown. -/
theorem grown {a : α} (h : Grove src base q (roots a) lo t.span.start) :
    EnsuresAt src t q (Pure.pure a) (Grown src base lo roots) := .pure fun _ hst => ⟨t, q, hst, h⟩

theorem attempt (h : EnsuresAt src t q p Q) : EnsuresAt src t q (attempt p) Q :=
  fun _ hst => ensures_attempt hst h

theorem mono {Q' : α → State → Prop} (h : EnsuresAt src t q p Q')
    (himp : ∀ a st, Q' a st → Q a st) : EnsuresAt src t q p Q := fun _ hst => (h hst).mono himp

/-- A token that a string literal is has both its quotes. -/
theorem string (hkind : t.kind = .string)
    (h : t.span.start + 2 ≤ t.span.stop → EnsuresAt src t q p Q) : EnsuresAt src t q p Q :=
  fun _ hst => h (hst.string hkind) hst

theorem peek {f : Token → Production α} (h : EnsuresAt src t q (f t) Q) :
    EnsuresAt src t q (peek >>= f) Q := by
  intro st hst
  refine (ensures_peek hst).bind ?_
  rintro _ st' ⟨rfl, hst'⟩
  exact h hst'

theorem check {kind : Kind} {f : Bool → Production α}
    (h : EnsuresAt src t q (f (t.kind == kind)) Q) : EnsuresAt src t q (check kind >>= f) Q := by
  intro st hst
  refine (ensures_check hst).bind ?_
  rintro _ st' ⟨rfl, hst'⟩
  exact h hst'

theorem eatAny {f : Token → Production α}
    (h : ∀ t', t.span.start ≤ t.span.stop ∧ t.span.stop ≤ t'.span.start →
      EnsuresAt src t' q (f t) Q) : EnsuresAt src t q (eat >>= f) Q := by
  intro st hst
  refine (ensures_eat hst).bind ?_
  rintro _ st' ⟨rfl, t', hpast, hst'⟩
  exact h t' ⟨hst.le, hpast⟩ hst'

/-- The same for a token that was looked at before. -/
theorem eat {kind : Kind} {f : Token → Production α} (hkind : t.kind = kind)
    (hproper : isProper kind) (h : ∀ t', t.Solid src → t.span.start < t.span.stop ∧
      t.span.stop ≤ t'.span.start → EnsuresAt src t' q (f t) Q) :
    EnsuresAt src t q (eat >>= f) Q := by
  intro st hst
  have hsolid := hst.solid_of hkind hproper
  exact eatAny (fun t' hpast => h t' hsolid ⟨hsolid.nonempty, hpast.2⟩) hst

theorem expectAs {code : Diagnostic.Code} {kind : Kind} {f : Token → Production α}
    (hproper : isProper kind) (h : ∀ t', t.kind = kind → t.Solid src →
      t.span.start < t.span.stop ∧ t.span.stop ≤ t'.span.start → EnsuresAt src t' q (f t) Q) :
    EnsuresAt src t q (expectAs code kind >>= f) Q := by
  intro st hst
  refine (ensures_expectAs hst).bind ?_
  rintro _ st' ⟨rfl, hkind, t', hpast, hst'⟩
  have hsolid := hst.solid_of hkind hproper
  exact h t' hkind hsolid ⟨hsolid.nonempty, hpast⟩ hst'

theorem eatIf {kind : Kind} {f : Option Token → Production α}
    (hsome : ∀ t', t.kind = kind → t.span.start ≤ t.span.stop ∧ t.span.stop ≤ t'.span.start →
      EnsuresAt src t' q (f (some t)) Q) (hnone : EnsuresAt src t q (f none) Q) :
    EnsuresAt src t q (eatIf kind >>= f) Q := by
  intro st hst
  refine (ensures_eatIf hst).bind ?_
  rintro _ st' (⟨rfl, hkind, t', hpast, hst'⟩ | ⟨rfl, hst'⟩)
  · exact hsome t' hkind ⟨hst.le, hpast⟩ hst'
  · exact hnone hst'

theorem spanOf {id : NodeId} {f : Span → Production α}
    (h : ∀ n, q.nodes[id.index]? = some n → EnsuresAt src t q (f n.span) Q) :
    EnsuresAt src t q (spanOf id >>= f) Q := by
  intro st hst
  refine (ensures_spanOf hst).bind ?_
  rintro _ st' ⟨⟨n, hn, rfl⟩, hst'⟩
  exact h n hn hst'

theorem node {id : NodeId} {f : Node → Production α}
    (h : ∀ n, q.nodes[id.index]? = some n → EnsuresAt src t q (f n) Q) :
    EnsuresAt src t q (node id >>= f) Q := by
  intro st hst
  refine (ensures_node hst).bind ?_
  rintro n st' ⟨hn, hst'⟩
  exact h n hn hst'

theorem allocList {f : NodeRange → Production α}
    (h : EnsuresAt src t (q.allocList (ids.map some)).2 (f (q.allocList (ids.map some)).1) Q) :
    EnsuresAt src t q (allocList ids >>= f) Q := by
  intro st hst
  refine (ensures_allocList hst).bind ?_
  rintro _ st' ⟨rfl, hst'⟩
  exact h hst'

theorem update {id : NodeId} {f : Node → Node} {g : Unit → Production α}
    (h : EnsuresAt src t (q.change id.index f) (g ()) Q) :
    EnsuresAt src t q (update id f >>= g) Q := fun _ hst =>
  (ensures_update hst).bind fun _ _ hst' => h hst'

end EnsuresAt

/-! ### Nodes above a grove -/

/-- A production may end with a new node above a grove. The lists of the node were added before. -/
theorem EnsuresAt.above (lists : List (List NodeId)) {single : List NodeId} {kind : NodeKind}
    {span : Span} {first : Nat} (hgrove : Grove src base q ids lo hi) (hsited : Sited src kind span)
    (hspan : Surrounds span lo hi) (hnext : span.stop ≤ t.span.start) (hfirst : first ≤ span.start)
    (hroots : ids.Perm (single ++ lists.flatten))
    (hkind : kind.refers? = some (single, (q.allocLists lists).1)) :
    EnsuresAt src t (q.allocLists lists).2 (Production.alloc kind span)
      (Grown src base first fun id => [id]) := by
  intro st hst
  refine (ensures_alloc hst).mono ?_
  rintro _ st' ⟨rfl, hst'⟩
  have hnode := hgrove.node hkind hroots hsited hspan
  rw [Ast.allocLists_size]
  exact ⟨t, _, hst', hnode.weaken hfirst hnext⟩

/-- A node may reach from one token to another, with a grove between their starts. -/
theorem EnsuresAt.closed (lists : List (List NodeId)) {single : List NodeId} {opening close : Token}
    {kind : NodeKind} (hopening : opening.Solid src) (hclose : close.Solid src)
    (hgrove : Grove src base q ids lo close.span.start) (hlo : opening.span.start ≤ lo)
    (hnext : close.span.stop ≤ t.span.start)
    (hkind : kind.refers? = some (single, (q.allocLists lists).1))
    (hroots : ids.Perm (single ++ lists.flatten))
    (htexts : ∀ s ∈ kind.spans, s.Within ⟨opening.span.start, close.span.stop⟩) :
    EnsuresAt src t (q.allocLists lists).2
      (Production.alloc kind ⟨opening.span.start, close.span.stop⟩)
      (Grown src base opening.span.start fun id => [id]) := by
  have hpos := hclose.nonempty
  have hle := hgrove.row.le
  refine .above lists hgrove ?_ ⟨hlo, hpos.le, .inr hpos⟩ hnext le_rfl hroots hkind
  exact ⟨by simp only; omega, hclose.fits, hopening.starts, hclose.stops, htexts⟩

/-- A node may reach from a token to the end of its last child. -/
theorem EnsuresAt.led (ids : List NodeId) {opening : Token} {last : NodeId} {n : Node}
    {kind : NodeKind} (hopening : opening.Solid src)
    (hgrove : Grove src base q (ids ++ [last]) lo t.span.start)
    (hlo : opening.span.stop ≤ lo) (hn : q.nodes[last.index]? = some n)
    (hkind : kind.refers? = some (ids ++ [last], [])) (htexts : kind.spans = []) :
    EnsuresAt src t q (Production.alloc kind ⟨opening.span.start, n.span.stop⟩)
      (Grown src base opening.span.start fun id => [id]) := by
  have hpos := hopening.nonempty
  have hsited := hgrove.sited (by simp) hn
  have hspan := (hgrove.row.lies (by simp)).span hn
  refine .above [] ⟨hgrove.forest, hgrove.row.to_last hn⟩ ?_ ?_ hspan.2.2 le_rfl (by simp) hkind
  · refine ⟨by simp only; omega, hsited.fits, hopening.starts, hsited.stops, ?_⟩
    rw [htexts]
    exact fun _ hs => absurd hs List.not_mem_nil
  · exact ⟨by simp only; omega, le_rfl, .inl (by simp only; omega)⟩

/-- A token may be a node by itself. -/
theorem EnsuresAt.leaf {u : Token} {kind : NodeKind} (hsolid : u.Solid src)
    (hpast : u.span.stop ≤ t.span.start) (hkind : kind.refers? = some ([], []))
    (htexts : ∀ s ∈ kind.spans, s.Within u.span) :
    EnsuresAt src t q (Production.alloc kind u.span) (Grown src q u.span.start fun id => [id]) := by
  have hpos := hsolid.nonempty
  exact .above [] (.nil src q (Nat.le_refl u.span.stop))
    ⟨hpos, hsolid.fits, hsolid.starts, hsolid.stops, htexts⟩ ⟨hpos.le, le_rfl, .inl hpos⟩
    hpast le_rfl (.refl _) hkind

/-- A node with a suffix reaches from the start of its first child to the end of the token that
closes it. -/
theorem EnsuresAt.suffix (lists : List (List NodeId)) {single : List NodeId} {operand : NodeId}
    {n : Node} {close : Token} {kind : NodeKind} (hclose : close.Solid src)
    (hpast : close.span.stop ≤ t.span.start)
    (hgrove : Grove src base q (operand :: ids) lo close.span.start)
    (hn : q.nodes[operand.index]? = some n)
    (hkind : kind.refers? = some (single, (q.allocLists lists).1))
    (hroots : (operand :: ids).Perm (single ++ lists.flatten))
    (htexts : ∀ s ∈ kind.spans, s = close.span) :
    EnsuresAt src t (q.allocLists lists).2 (Production.alloc kind ⟨n.span.start, close.span.stop⟩)
      (Grown src base lo fun id => [id]) := by
  have hlies := (hgrove.row.lies List.mem_cons_self).span hn
  have hsited := hgrove.sited List.mem_cons_self hn
  have hpos := hclose.nonempty
  refine .above lists ⟨hgrove.forest, hgrove.row.from_first hn⟩ ?_ ⟨le_rfl, hpos.le,
    .inr hpos⟩ hpast hlies.1 hroots hkind
  refine ⟨by simp only; omega, hclose.fits, hsited.starts, hclose.stops, fun s hs => ?_⟩
  rw [htexts s hs]
  exact ⟨by simp only; omega, hpos.le, le_rfl⟩

/-! ### Sequences -/

variable {β : Type} {f : α → Production β} {R : β → State → Prop} {item expr : Production NodeId}

/-- A grove goes on with what the next production grows. -/
theorem Yields.bind (hp : Yields src p roots) (hgrove : Grove src base q ids lo t.span.start)
    (hf : ∀ a t' r, Grove src base r (ids ++ roots a) lo t'.span.start → q.Extends r →
      EnsuresAt src t' r (f a) R) : EnsuresAt src t q (p >>= f) R := by
  intro st hst
  refine (hp hst).bind ?_
  rintro a st' ⟨t', r, hst', hgrove'⟩
  exact hf a t' r (hgrove.append hgrove') hgrove'.forest.grown hst'

/-- A grove begins with what a production grows. -/
theorem Yields.first (hp : Yields src p roots)
    (hf : ∀ a t' r, Grove src q r (roots a) t.span.start t'.span.start →
      EnsuresAt src t' r (f a) R) :
    EnsuresAt src t q (p >>= f) R :=
  hp.bind (.nil src q le_rfl) fun a t' r hgrove _ => hf a t' r hgrove

theorem Yields.attempt (hp : Yields src p roots) : Yields src (attempt p) roots :=
  fun _ _ => EnsuresAt.attempt (@hp _ _)

/-- The first of several alternatives that succeeds starts where all of them do. -/
theorem firstOf_yields {ps : List (Production α)} (hundoes : ∀ p' ∈ p :: ps, Undoes src p')
    (hps : ∀ p' ∈ p :: ps, Yields src p' roots) : Yields src (firstOf (p :: ps)) roots := by
  intro t pool st hst
  refine ensures_firstOf hst hundoes fun p' hp' st' q hst' hnodes hlists => ?_
  refine (hps p' hp' hst').mono ?_
  rintro a st'' ⟨t', r, hst'', hgrove⟩
  exact ⟨t', r, hst'', hgrove.of_tables hnodes hlists⟩

/-- The items end in front of the token that stops them. -/
theorem manyUntil_grows (hitem : Yields src item fun id => [id]) (stop : Kind) (rounds : Nat)
    (hst : Stands src st t pool) :
    (manyUntil stop item rounds).Ensures src st fun ids st' => ∃ t' q, Stands src st' t' q ∧
      Grove src pool q ids t.span.start t'.span.start ∧ t'.kind = stop := by
  induction rounds generalizing st t pool with
  | zero => exact ensures_stalled
  | succ rounds ih =>
    refine EnsuresAt.check ?_ hst
    split_ifs with hkind
    · exact .pure fun _ hst => ⟨t, pool, hst, .nil src pool le_rfl, by simpa using hkind⟩
    · refine hitem.first fun a t' q hgrove st₁ hst₁ => (ih hst₁).bind ?_
      rintro rest st₂ ⟨t₂, r, hst₂, hgrove', hstop⟩
      exact ensures_pure ⟨t₂, r, hst₂, hgrove.append hgrove', hstop⟩

theorem manyUntil_then {stop : Kind} {f : List NodeId → Production β} (rounds : Nat)
    (hitem : Yields src item fun id => [id])
    (hf : ∀ ids t' q, Grove src pool q ids t.span.start t'.span.start → t'.kind = stop →
      EnsuresAt src t' q (f ids) R) :
      EnsuresAt src t pool (manyUntil stop item rounds >>= f) R := by
  intro st hst
  refine (manyUntil_grows hitem stop rounds hst).bind ?_
  rintro ids st' ⟨t', q, hst', hgrove, hstop⟩
  exact hf ids t' q hgrove hstop hst'

theorem commaTail_yields (hitem : Yields src item fun id => [id]) (rounds : Nat) :
    Yields src (commaTail item rounds) fun ids => ids := by
  induction rounds with
  | zero => exact fun _ _ => .stalled
  | succ rounds ih =>
    refine fun t pool => .eatIf (fun t₁ _ hpast => ?_) (.grown (.nil src pool le_rfl))
    refine hitem.first fun a t₂ q hgrove => ih.bind hgrove fun rest t₃ r hgrove' _ => .grown ?_
    exact hgrove'.weaken (by omega) le_rfl

theorem commaSeparated_yields (hitem : Yields src item fun id => [id]) (rounds : Nat) :
    Yields src (commaSeparated item rounds) fun ids => ids := fun _ _ =>
  hitem.first fun _ _ _ hgrove => (commaTail_yields hitem rounds).bind hgrove
    fun _ _ _ hgrove' _ => .grown hgrove'

theorem expressions_yields (hexpr : Yields src expr fun id => [id]) (rounds : Nat) :
    Yields src (expressions expr rounds) fun ids => ids :=
    (commaSeparated_yields hexpr rounds).attempt

/-! ### Types -/

theorem typeExpr_yields (depth : Nat) : Yields src (typeExpr depth) fun id => [id] := by
  induction depth with
  | zero => exact fun _ _ => .stalled
  | succ depth ih =>
    refine fun t pool => .attempt (.peek ?_)
    split
    next hkind =>
      refine .eat hkind rfl fun t₁ hstar hpast => ih.first fun pointee t₂ q hgrove =>
        .spanOf fun n hn => ?_
      exact .led [] hstar hgrove hpast.2 hn rfl rfl
    next hkind =>
      refine .eat hkind rfl fun t₁ hname hpast => .leaf hname hpast.2 rfl ?_
      simpa using ⟨le_rfl, hpast.1.le, le_rfl⟩
    next => exact .unexpected

theorem typeExpr_isType (depth : Nat) : EnsuresAt src t pool (typeExpr depth) fun id st' =>
    ∃ n, st'.pool.nodes[id.index]? = some n ∧ n.kind.isType = true := by
  have halloc : ∀ {st : State} {kind : NodeKind} {span : Span}, kind.isType = true →
      (alloc kind span).Ensures src st fun id st' =>
        ∃ n, st'.pool.nodes[id.index]? = some n ∧ n.kind.isType = true := by
    rintro st kind span htype _ _ ⟨⟩
    exact ⟨⟨kind, span, {}, st.pool.made⟩, by simp, htype⟩
  cases depth with
  | zero => exact .stalled
  | succ depth =>
    refine .attempt (.peek fun st hst => ?_)
    split
    · exact ensures_true.bind fun _ _ _ => ensures_true.bind fun _ _ _ =>
        ensures_true.bind fun _ _ _ => halloc rfl
    · exact ensures_true.bind fun _ _ _ => halloc rfl
    · exact ensures_unexpected

/-- A type expression grows one node, which is a type. -/
theorem typeExpr_grows (depth : Nat) : EnsuresAt src t pool (typeExpr depth) fun id st' =>
    ∃ t' q, Stands src st' t' q ∧ Grove src pool q [id] t.span.start t'.span.start ∧
      ∃ n, q.nodes[id.index]? = some n ∧ n.kind.isType = true := by
  intro st hst
  refine ((typeExpr_yields depth hst).and (typeExpr_isType depth hst)).mono ?_
  rintro id st' ⟨⟨t', q, hst', hgrove⟩, htype⟩
  exact ⟨t', q, hst', hgrove, hst'.pool ▸ htype⟩

/-! ### Operands -/

theorem ensures_number {u : Token} (hst : Stands src st t pool) :
    (number u).Ensures src st fun _ st' => Stands src st' t pool := by
  have htext : (textOf u.span).Ensures src st fun _ st' => Stands src st' t pool := by
    rintro _ _ ⟨⟩
    exact hst
  refine htext.bind fun text st' hst' => ?_
  split
  · exact ensures_pure hst'
  · exact ensures_fail

theorem primary_yields (hexpr : Yields src expr fun id => [id]) :
    Yields src (primary expr) fun id => [id] := by
  refine fun t pool => .attempt (.peek ?_)
  split
  next hkind =>
    refine .eat hkind rfl fun t₁ hname hpast => .leaf hname hpast.2 rfl ?_
    simpa using ⟨le_rfl, hpast.1.le, le_rfl⟩
  next hkind =>
    refine .eat hkind rfl fun t₁ hnumber hpast st hst =>
      (ensures_number hst).bind fun value st' hst' => ?_
    exact hst'.ensures (.leaf hnumber hpast.2 rfl (by simp))
  next hkind =>
    refine .string hkind fun hquotes => .eat hkind rfl fun t₁ hstring hpast => ?_
    refine .leaf hstring hpast.2 rfl ?_
    simp only [NodeKind.spans, List.mem_singleton, forall_eq, Span.Within, Span.unquoted]
    omega
  next hkind =>
    exact .eat hkind rfl fun t₁ hnil hpast => .leaf hnil hpast.2 rfl (by simp)
  next hkind =>
    -- The parentheses belong to the span of the expression inside, which is no new node.
    refine .eat hkind rfl fun t₁ hopen hpast => hexpr.first fun inner t₂ q hgrove => ?_
    refine .expectAs rfl fun t₃ _ hclosed hpast' => .update (.grown ?_)
    obtain ⟨n, hn, hspan⟩ := hgrove.row.lies (List.mem_singleton_self inner)
    have hinner := hgrove.sited (List.mem_singleton_self inner) hn
    refine (hgrove.change hn _ ?_ ?_ rfl rfl rfl rfl fun _ _ _ => id).weaken le_rfl hpast'.2
    · refine ⟨by simp only; omega, hclosed.fits, hopen.starts, hclosed.stops, fun s hs => ?_⟩
      have hwithin := hinner.texts s hs
      unfold Span.Within at hwithin ⊢
      simp only
      omega
    · unfold Span.Within
      simp only
      omega
  next => exact .unexpected

/-! ### Suffixes -/

/-- The production takes a node in front of it as a part of what it grows. -/
def Takes (src : Source) (p : NodeId → Production NodeId) : Prop :=
  ∀ ⦃t : Token⦄ ⦃base q : Pool⦄ ⦃lo : Nat⦄ ⦃operand : NodeId⦄,
    Grove src base q [operand] lo t.span.start →
    EnsuresAt src t q (p operand) (Grown src base lo fun id => [id])

theorem Takes.bind {p : NodeId → Production NodeId} {f : NodeId → Production β} {operand : NodeId}
    (hp : Takes src p) (hgrove : Grove src base q [operand] lo t.span.start)
    (hf : ∀ id t' r, Grove src base r [id] lo t'.span.start → EnsuresAt src t' r (f id) R) :
    EnsuresAt src t q (p operand >>= f) R := by
  intro st hst
  refine (hp hgrove hst).bind ?_
  rintro id st' ⟨t', r, hst', hgrove'⟩
  exact hf id t' r hgrove' hst'

theorem arguments_yields (hexpr : Yields src expr fun id => [id]) (rounds : Nat) :
    Yields src (arguments expr rounds) fun ids => ids := by
  refine fun t pool => .check ?_
  split
  · exact .grown (.nil src pool le_rfl)
  · exact @expressions_yields _ _ hexpr rounds t pool

theorem call_takes (hexpr : Yields src expr fun id => [id]) (rounds : Nat) :
    Takes src fun callee => call expr callee rounds := by
  refine fun t base q lo callee hgrove => .attempt (.expectAs rfl fun t₁ _ _ hpast => ?_)
  refine (arguments_yields hexpr rounds).bind (hgrove.weaken le_rfl (by omega))
    fun args t₂ r hgrove' _ => .expectAs rfl fun t₃ _ hclose hpast' =>
    .allocList (.spanOf fun n hn => ?_)
  exact .suffix [args] hclose hpast'.2 hgrove' hn rfl (by simp) (by simp)

theorem subscript_takes (hexpr : Yields src expr fun id => [id]) : Takes src (subscript expr) := by
  refine fun t base q lo container hgrove => .spanOf fun n hn => .eatAny fun t₁ hpast => ?_
  refine hexpr.bind (hgrove.weaken le_rfl (by omega)) fun index t₂ r hgrove' hgrown =>
    .expectAs rfl fun t₃ _ hclose hpast' => ?_
  exact .suffix [] hclose hpast'.2 hgrove' (hgrown.node hn) rfl (by simp) (by simp)

theorem selection_takes (rounds : Nat) : Takes src fun operand => selection operand rounds := by
  refine fun t base q lo operand hgrove => .spanOf fun n hn => .eatAny fun t₁ hpast =>
    .eatIf (fun t₂ _ hpast' => ?_) (.expectAs rfl fun t₂ _ hname hpast' => ?_)
  · refine (typeExpr_yields rounds).bind (hgrove.weaken le_rfl (by omega))
      fun type t₃ r hgrove' hgrown => .expectAs rfl fun t₄ _ hclose hpast'' => ?_
    exact .suffix [] hclose hpast''.2 hgrove' (hgrown.node hn) rfl (by simp) (by simp)
  · exact .suffix [] hname hpast'.2 (hgrove.weaken le_rfl (by omega)) hn rfl (by simp) (by simp)

theorem suffixes_takes (hexpr : Yields src expr fun id => [id]) (rounds : Nat) :
    Takes src fun operand => suffixes expr operand rounds := by
  induction rounds with
  | zero => exact fun _ _ _ _ _ _ => .stalled
  | succ rounds ih =>
    refine fun t base q lo operand hgrove => .peek ?_
    split
    · exact (call_takes hexpr (rounds + 1)).bind hgrove fun _ _ _ => @ih _ _ _ _ _
    · exact (subscript_takes hexpr).bind hgrove fun _ _ _ => @ih _ _ _ _ _
    · exact (selection_takes (rounds + 1)).bind hgrove fun _ _ _ => @ih _ _ _ _ _
    · exact .grown hgrove

/-! ### Operators -/

theorem unaryToken_proper {kind : Kind} {op : UnaryOp} (h : UnaryOp.ofToken? kind = some op) :
    kind.isError = false ∧ kind ≠ .eof := by
  cases kind <;> first | decide | cases h

theorem unary_yields (hexpr : Yields src expr fun id => [id]) (rounds depth : Nat) :
    Yields src (unary expr rounds depth) fun id => [id] := by
  induction depth with
  | zero => exact fun _ _ => .stalled
  | succ depth ih =>
    refine fun t pool => .attempt (.peek ?_)
    split
    next =>
      exact (primary_yields hexpr).first fun _ _ _ hgrove => suffixes_takes hexpr rounds hgrove
    next op hop =>
      refine .eat rfl (isProper_iff.mpr (unaryToken_proper hop)) fun t₁ hsign hpast =>
        ih.first fun operand t₂ q hgrove => .spanOf fun n hn => ?_
      exact .led [] hsign hgrove hpast.2 hn rfl rfl

theorem binaryTail_takes {operand : Production NodeId}
    (hoperand : Yields src operand fun id => [id])
    (rounds : Nat) : Takes src fun left => binaryTail operand left rounds := by
  induction rounds with
  | zero => exact fun _ _ _ _ _ _ => .stalled
  | succ rounds ih =>
    refine fun t base q lo left hgrove => .peek ?_
    split
    next => exact .grown hgrove
    next op hop =>
      refine .eatAny fun t₁ hpast => hoperand.bind (hgrove.weaken le_rfl (by omega))
        fun right t₂ r hgrove' _ st hst => (ensures_attach hst).bind ?_
      rintro _ st' ⟨joined, r', hattach, rfl, hst'⟩
      obtain ⟨mid, ⟨n, hn, hn'⟩, mid', ⟨m, hm, hm'⟩, hend⟩ := hgrove'.row
      have hend : mid' ≤ t₂.span.start := hend
      obtain ⟨j, rfl, hforest, k, hk, hspan⟩ := hgrove'.forest.attach hn hm (by omega) hattach
      refine ih ⟨hforest, .singleton ⟨k, hk, ?_⟩⟩ hst'
      rw [hspan]
      simp only
      omega

theorem expression_yields (depth : Nat) : Yields src (expression depth) fun id => [id] := by
  induction depth with
  | zero => exact fun _ _ => .stalled
  | succ depth ih =>
    have hoperand := unary_yields ih (depth + 1) (depth + 1)
    exact fun t pool => .attempt (hoperand.first fun _ _ _ hgrove =>
      binaryTail_takes hoperand (depth + 1) hgrove)

end MicroCompiler.Grammar
