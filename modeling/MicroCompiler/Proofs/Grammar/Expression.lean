import MicroCompiler.Proofs.Grammar.Phrase
import MicroCompiler.Proofs.Grammar.Reading
import MicroCompiler.Proofs.Precedence

/-! What the productions of types and expressions read: a phrase of their nonterminal, and they stop
only where the phrase cannot go on. The tree of an expression is the chain of its operands. -/

namespace MicroCompiler.Grammar

open Ast (BinaryOp ChainTree Links NodeId NodeKind Number Pool UnaryOp)
open Token (Kind)
open Production

variable {α : Type} {src : Source} {ks xs ys : List Kind} {pool : Pool} {bound rounds : Nat}
  {expr : Production NodeId} {operand : NodeId}

/-- The node is neither a struct nor a function, and so takes no name from a declaration. -/
def Unnamed (q : Pool) (id : NodeId) : Prop :=
  ∃ n, q.nodes[id.index]? = some n ∧ ∀ name, n.kind.named? name = none

/-- An operator has no name, wherever in the chain the last one was put. -/
theorem Unnamed.of_graft {q : Pool} {root right : NodeId} {t : ChainTree} {op : BinaryOp}
    {js : Finset ℕ} (h : q.Shows root (t.graft op right) js) : Unnamed q root := by
  have hjoin {o : BinaryOp} {l r : ChainTree} (h : q.Shows root (.join o l r) js) :
      Unnamed q root := by
    cases h with
    | join hn hkind => exact ⟨_, hn, fun name => by rw [hkind]; rfl⟩
  cases t with
  | operand id => exact hjoin h
  | join o l r =>
    rw [ChainTree.graft] at h
    split_ifs at h <;> exact hjoin h

/-! ### Types -/

theorem typeExpr_reads (depth : Nat) :
    Tries src (typeExpr depth) depth fun p id q xs _ => New p q id ∧ IsType xs := by
  induction depth with
  | zero => exact .zero rfl
  | succ depth ih =>
    refine .of_on fun pool ks hlen => .peek ?_
    rintro t k ks ht rfl
    split
    next hkind =>
      refine .eat ht hkind rfl fun _ => ih.bind (by simpa using hlen)
        fun pointee q zs ys _ _ hpointee => ?_
      exact .spanOf hpointee.1.2 fun _ => .alloc fun hext => ⟨.after hext, .pointer hpointee.2⟩
    next hkind => exact .eat ht hkind rfl fun _ => .alloc fun hext => ⟨.after hext, .name⟩
    next => exact .unexpected

/-! ### Lists with commas -/

section

variable {item : Production α} {V : Pool → α → Prop} {P F : List Kind → Prop}
  (hV : ∀ (p q : Pool) (a : α), p.Extends q → V p a → V q a)
  (hitem : Reads src item bound fun _ a q xs ys => V q a ∧ P xs ∧ F ys)

include hV hitem

theorem commaTail_reads (rounds : Nat) :
    Reads src (commaTail item rounds) (min (bound + 1) rounds) fun _ as q xs ys =>
      (∀ a ∈ as, V q a) ∧ ys.head? ≠ some .comma ∧
        ((as = [] ∧ xs = []) ∨ ∃ zs, xs = .comma :: zs ∧ CommaSeparated P as.length zs ∧ F ys) := by
  induction rounds with
  | zero => exact .zero (by omega)
  | succ rounds ih =>
    refine .of_on fun pool ks hlen => .eatIf rfl (fun _ ys hys => ?_) fun hnone => ?_
    · refine hitem.bind (by omega) fun a q zs ys hys hext ⟨ha, hP, hF⟩ => ?_
      refine ih.bind (by omega) fun as q zs' ys' hys' hext' ⟨has, hcomma, hrest⟩ => ?_
      refine .pure ⟨List.forall_mem_cons.mpr ⟨hV _ _ _ hext' ha, has⟩, hcomma, .inr ?_⟩
      rcases hrest with ⟨rfl, rfl⟩ | ⟨ws, rfl, hws, hF'⟩
      · obtain rfl : ys = ys' := hys'.1
        exact ⟨zs, by simp, .one hP, hF⟩
      · exact ⟨_, rfl, .more hP hws, hF'⟩
    · exact .pure ⟨by simp, hnone, .inl ⟨rfl, rfl⟩⟩

theorem commaSeparated_reads (hrounds : bound ≤ rounds) :
    Reads src (commaSeparated item rounds) bound fun _ as q xs ys =>
      (∀ a ∈ as, V q a) ∧ CommaSeparated P as.length xs ∧ F ys ∧ ys.head? ≠ some .comma := by
  have htail := commaTail_reads hV hitem rounds
  refine .of_on fun pool ks hlen => hitem.bind hlen fun a q zs ys hys hext ⟨ha, hP, hF⟩ => ?_
  refine htail.bind (by omega) fun as q zs' ys' hys' hext' ⟨has, hcomma, hrest⟩ => ?_
  refine .pure ⟨List.forall_mem_cons.mpr ⟨hV _ _ _ hext' ha, has⟩, ?_⟩
  rcases hrest with ⟨rfl, rfl⟩ | ⟨ws, rfl, hws, hF'⟩
  · obtain rfl : ys = ys' := hys'.1
    exact ⟨by simpa using .one hP, hF, hcomma⟩
  · exact ⟨.more hP hws, hF', hcomma⟩

end

theorem exprs_of_commaSeparated {n : Nat} (h : CommaSeparated (IsExpr .expr) n xs) :
    IsExpr (.exprs n) xs := by
  induction h with
  | one h => exact .oneExpr h
  | more h _ ih => exact .moreExprs h ih

/-! ### Operands -/

/-- No suffix follows. -/
def EndsOperand (ys : List Kind) : Prop :=
  ∀ k ∈ ys.head?, k ∉ [Kind.leftParen, Kind.leftBracket, Kind.dot]

/-- Neither a suffix nor an operator follows. -/
def EndsExpr (ys : List Kind) : Prop := EndsOperand ys ∧ ∀ k ∈ ys.head?, BinaryOp.ofToken? k = none

/-- What an expression leaves in the pool: a chain of new nodes. -/
def ExprPost (p : Pool) (id : NodeId) (q : Pool) (xs ys : List Kind) : Prop :=
  New p q id ∧ Unnamed q id ∧ IsExpr .expr xs ∧ EndsExpr ys ∧
    ∃ first links js, Pool.Grown p q id ((ChainTree.operand first).graftAll links) js

theorem expressions_reads (hexpr : Reads src expr bound ExprPost) (hrounds : bound ≤ rounds) :
    Tries src (expressions expr rounds) bound fun _ ids q xs ys =>
      (∀ id ∈ ids, id.index < q.size) ∧ IsExpr (.exprs ids.length) xs ∧ EndsExpr ys := by
  have hitem : Reads src expr bound fun _ id q xs ys =>
      id.index < q.size ∧ IsExpr .expr xs ∧ EndsExpr ys := by
    refine hexpr.imp ?_
    rintro p id q xs ys ⟨hnew, -, hphrase, hends, -⟩
    exact ⟨hnew.2, hphrase, hends⟩
  have hitems := commaSeparated_reads (fun _ _ _ hext hid => hid.trans_le hext.size_le)
    hitem hrounds
  refine Reads.attempt (hitems.imp ?_)
  rintro p ids q xs ys ⟨hids, hphrase, hends, -⟩
  exact ⟨hids, exprs_of_commaSeparated hphrase, hends⟩

/-- A number that is read is in range. -/
theorem number_reads {t : Token} (ht : t.kind = .number) (bound : Nat) :
    Reads src (number t) bound fun p _ q xs _ => symbolOf src t = .number ∧ q = p ∧ xs = [] := by
  intro st ks pool h _
  unfold Production.Sat number
  simp only [Bind.bind, Production.bind, textOf]
  cases hv : Number.ofText? (src.text t.span) with
  | some n => exact ⟨[], ks, pool, rfl, h, .refl _, by simp [symbolOf, ht, hv], rfl, rfl⟩
  | none => exact h.pool ▸ .refl _

/-- The node is one piece of a chain, and it has no name. -/
structure IsPiece (q : Pool) (id : NodeId) : Prop where
  operand : q.IsOperand id
  unnamed : Unnamed q id

theorem IsPiece.alloc {p : Pool} {kind : NodeKind} {span : Span}
    (h : (∀ op l r, kind ≠ .binary op l r) ∧ ∀ name, kind.named? name = none) :
    IsPiece (p.alloc kind span).2 ⟨p.size⟩ := by
  refine ⟨⟨_, Pool.alloc_node p kind span, ?_⟩, _, Pool.alloc_node p kind span, h.2⟩
  unfold Ast.Node.isOperand
  split
  next op l r hk => exact absurd hk (h.1 op l r)
  next => rfl

/-- Parentheses make any expression one piece. -/
theorem IsPiece.parens {p : Pool} {id : NodeId} (h : Unnamed p id) (span : Span) :
    IsPiece { p with nodes := p.nodes.modify id.index fun n =>
      { n with flags := { n.flags with inParens := true }, span } } id := by
  obtain ⟨n, hn, hname⟩ := h
  have hn' : (p.nodes.modify id.index fun n =>
      { n with flags := { n.flags with inParens := true }, span })[id.index]? =
        some { n with flags := { n.flags with inParens := true }, span } := by
    simp only [Array.getElem?_modify, if_true, hn, Option.map_some]
  refine ⟨⟨_, hn', ?_⟩, _, hn', hname⟩
  unfold Ast.Node.isOperand
  split <;> rfl

/-- What an operand leaves in the pool: a new piece. -/
def OperandPost (part : ExprPart) (p : Pool) (id : NodeId) (q : Pool) (xs : List Kind) : Prop :=
  New p q id ∧ IsPiece q id ∧ IsExpr part xs

theorem ReadsOn.piece {base : Pool} {part : ExprPart} {kind : NodeKind} {span : Span}
    (hphrase : IsExpr part xs)
    (h : (∀ op l r, kind ≠ .binary op l r) ∧ ∀ name, kind.named? name = none := by
      simp [NodeKind.named?]) :
    ReadsOn src base pool xs ks (Production.alloc kind span) fun id q xs _ =>
      OperandPost part base id q xs :=
  .alloc fun hext => ⟨.after hext, .alloc h, hphrase⟩

theorem primary_reads (hexpr : Reads src expr bound ExprPost) :
    Tries src (primary expr) (bound + 1) fun p id q xs _ => OperandPost .primary p id q xs := by
  refine .of_on fun pool ks hlen => .peek ?_
  rintro t k ks ht rfl
  split
  next hkind => exact .eat ht hkind rfl fun _ => .piece (.atom rfl)
  next hkind =>
    refine .eatAny ?_ fun _ => (number_reads hkind ks.length).bind le_rfl ?_
    · rintro rfl
      rw [← kind_eq_iff src rfl] at ht
      simp [hkind] at ht
    rintro value q zs ys - - ⟨hnumber, rfl, rfl⟩
    exact .piece (.atom (by rw [← ht, hnumber]; rfl))
  next hkind => exact .eat ht hkind rfl fun _ => .piece (.atom rfl)
  next hkind => exact .eat ht hkind rfl fun _ => .piece (.atom rfl)
  next hkind =>
    refine .eat ht hkind rfl fun _ => hexpr.bind (by simpa using hlen) ?_
    rintro inner q zs ys - - ⟨hnew, hunnamed, hphrase, -⟩
    exact .expectAs rfl fun close ys _ => .update hnew
      (.pure ⟨hnew.modify _ _, .parens hunnamed _, .parens hphrase⟩)
  next => exact .unexpected

/-! ### Suffixes -/

/-- The production reads one suffix. -/
abbrev ReadsSuffix (src : Source) (p : Production NodeId) (ks : List Kind) (pool : Pool) : Prop :=
  ReadsOn src pool pool [] ks p fun id q xs _ => OperandPost .suffix pool id q xs

theorem arguments_reads (hexpr : Reads src expr bound ExprPost) (hrounds : bound ≤ rounds) :
    Reads src (arguments expr rounds) bound fun _ _ _ xs _ =>
      IsExpr .suffix (.leftParen :: xs ++ [.rightParen]) :=
  .of_on fun _ _ hlen => .check rfl (fun _ => .pure .callNone) fun _ =>
    ((expressions_reads hexpr hrounds).reads.here hlen).last fun _ _ _ _ _ h => .call h.2.1

theorem call_reads (hexpr : Reads src expr bound ExprPost) (hrounds : bound ≤ rounds)
    (hoperand : operand.index < pool.size) (hlen : ks.length ≤ bound + 1) :
    ReadsSuffix src (call expr operand rounds) ks pool := by
  refine .attempt (.expectAs rfl fun _ ys hys => (arguments_reads hexpr hrounds).bind (by omega) ?_)
  intro args q zs ys _ hext hphrase
  refine .expectAs rfl fun close ys _ => .allocList fun range q' hext' => .spanOf ?_ fun _ =>
    .piece hphrase
  exact hoperand.trans_le (hext.trans hext').size_le

theorem subscript_reads (hexpr : Reads src expr bound ExprPost)
    (hoperand : operand.index < pool.size) (hlen : ks.length ≤ bound) :
    ReadsSuffix src (subscript expr operand) (.leftBracket :: ks) pool := by
  refine .spanOf hoperand fun _ => .eatAny (by decide) fun _ => hexpr.bind hlen ?_
  rintro index q zs ys - - ⟨-, -, hphrase, -⟩
  exact .expectAs rfl fun _ ys _ => .piece (.subscript hphrase)

theorem selection_reads (hoperand : operand.index < pool.size) (hlen : ks.length ≤ rounds) :
    ReadsSuffix src (selection operand rounds) (.dot :: ks) pool := by
  refine .spanOf hoperand fun _ => .eatAny (by decide) fun _ =>
    .eatIf rfl (fun _ ys hys => ?_) fun _ => ?_
  · refine (typeExpr_reads rounds).bind (by omega) fun type q zs ys _ _ htype => ?_
    exact .expectAs rfl fun _ ys _ => .piece (.cast htype.2)
  · exact .expectAs rfl fun _ ys _ => .piece .member

theorem IsExpr.suffix_ne_nil (h : IsExpr .suffix xs) : xs ≠ [] := by cases h <;> simp

/-- Each suffix takes the operand before it and becomes the operand. -/
theorem suffixes_reads (hexpr : Reads src expr bound ExprPost) (hoperand : IsPiece pool operand)
    (hbound : ks.length ≤ bound + 1) (hlen : ks.length ≤ rounds) :
    ReadsOn src pool pool [] ks (suffixes expr operand rounds) fun id q xs ys =>
      (id = operand ∨ New pool q id) ∧ IsPiece q id ∧ IsExpr .suffixes xs ∧ EndsOperand ys := by
  induction rounds generalizing ks pool operand with
  | zero => exact fun _ h => absurd (List.length_eq_zero_iff.mp (Nat.le_zero.mp hlen)) h.ne_nil
  | succ rounds ih =>
    refine .peek ?_
    rintro t k ks ht rfl
    simp only [List.length_cons] at hbound hlen
    have hexpr' : Reads src expr ks.length ExprPost := hexpr.of_le (by omega)
    have hnext {p : Production NodeId} (hp : ReadsSuffix src p (k :: ks) pool) :
        ReadsOn src pool pool [] (k :: ks) (p >>= fun operand => suffixes expr operand rounds)
        fun id q xs ys =>
            (id = operand ∨ New pool q id) ∧ IsPiece q id ∧ IsExpr .suffixes xs ∧
              EndsOperand ys := by
      refine hp.bind fun id q zs ys hys hext ⟨hnew, hpiece, hphrase⟩ => ?_
      have hshort : ys.length ≤ ks.length := by
        have := List.length_pos_of_ne_nil hphrase.suffix_ne_nil
        simp only [List.length_cons] at hys
        omega
      refine (ih hpiece (by omega) (by omega)).last fun id' q' zs' ys' hext' ⟨hid,
        hpiece', hrest⟩ => ?_
      refine ⟨.inr ?_, hpiece', .suffixes hphrase hrest.1, hrest.2⟩
      rcases hid with rfl | hid
      · exact hnew.trans_right hext'
      · exact .trans_left hext hid
    split
    next hkind =>
      obtain rfl := kind_of_symbol ht hkind rfl
      exact hnext (call_reads hexpr' (by omega) hoperand.operand.lt (by simp))
    next hkind =>
      obtain rfl := kind_of_symbol ht hkind rfl
      exact hnext (subscript_reads hexpr' hoperand.operand.lt le_rfl)
    next hkind =>
      obtain rfl := kind_of_symbol ht hkind rfl
      exact hnext (selection_reads hoperand.operand.lt (by omega))
    next hparen hbracket hdot =>
      refine .pure ⟨.inl rfl, hoperand, .noSuffix, ?_⟩
      rintro _ ⟨⟩
      rw [← ht, List.mem_cons, List.mem_cons, List.mem_singleton,
        ← kind_eq_iff src rfl, ← kind_eq_iff src rfl,
        ← kind_eq_iff src rfl]
      rintro (hk | hk | hk)
      · exact hparen hk
      · exact hbracket hk
      · exact hdot hk

/-! ### Operators -/

theorem isFixed_unary (op : UnaryOp) : isFixed op.token := by cases op <;> rfl

theorem isFixed_binary (op : BinaryOp) : isFixed op.token := by cases op <;> rfl

theorem symbolOf_unary {t : Token} {op : UnaryOp} (h : UnaryOp.ofToken? t.kind = some op) :
    symbolOf src t = op.token :=
  (kind_eq_iff src (isPlain_of_isFixed (isFixed_unary op))).mp (UnaryOp.token_of_ofToken? h).symm

theorem symbolOf_binary {t : Token} {op : BinaryOp} (h : BinaryOp.ofToken? t.kind = some op) :
    symbolOf src t = op.token :=
  (kind_eq_iff src (isPlain_of_isFixed (isFixed_binary op))).mp (BinaryOp.token_of_ofToken? h).symm

theorem unary_reads (hexpr : Reads src expr bound ExprPost) (hrounds : bound + 1 ≤ rounds)
    (depth : Nat) : Tries src (unary expr rounds depth) (min (bound + 1) depth) fun p id q xs ys =>
      OperandPost .unary p id q xs ∧ EndsOperand ys := by
  induction depth with
  | zero => exact .zero (by omega)
  | succ depth ih =>
    refine .of_on fun pool ks hlen => .peek ?_
    rintro t k ks ht rfl
    split
    next hop =>
      refine (primary_reads hexpr).bind (by omega) fun id q zs ys hys hext ⟨hnew,
        hpiece, hphrase⟩ => ?_
      refine (suffixes_reads hexpr hpiece (by omega) (by omega)).last
        fun id' q' zs' ys' hext' ⟨hid, hpiece', hrest, hends⟩ => ?_
      refine ⟨⟨?_, hpiece', .postfixed hphrase hrest⟩, hends⟩
      rcases hid with rfl | hid
      · exact hnew.trans_right hext'
      · exact .trans_left hext hid
    next op hop =>
      rw [symbolOf_unary hop] at ht
      subst ht
      simp only [List.length_cons] at hlen
      refine .eatAny (ne_eof_of_isFixed (isFixed_unary op)) fun _ => ih.bind (by omega) ?_
      rintro operand q zs ys - - ⟨⟨hnew, -, hphrase⟩, hends⟩
      refine .spanOf hnew.2 fun _ => .alloc fun hext =>
        ⟨⟨.after hext, ?_, .prefixed op hphrase⟩, hends⟩
      exact .alloc (by simp [NodeKind.named?])

/-! ### Chains of operands -/

variable {base : Pool} {left right first : NodeId}

theorem ReadsOn.attach {t : ChainTree} {js : Finset ℕ} {op : BinaryOp} {f : NodeId → Production α}
    {Q : α → Pool → List Kind → List Kind → Prop} (hg : Pool.Grown base pool left t js)
    (hright : pool.IsOperand right)
    (hf : ∀ root q js, Pool.Grown base q root (t.graft op right) js → base.size ≤ root.index →
      ReadsOn src base q xs ks (f root) Q) :
    ReadsOn src base pool xs ks (Grammar.attach left op right >>= f) Q := by
  intro st h hext
  obtain rfl := h.pool
  obtain ⟨root, q, heq, hq, hroot⟩ := hg.attach op hright
  unfold Production.Sat
  simp only [Bind.bind, Production.bind, Grammar.attach, heq]
  exact hf root q _ hq hroot (h.setPool q) hq.extends_base

/-- The operands that follow one after the other are all grafted to the chain. -/
theorem binaryTail_reads {tail : Production NodeId}
    (htail : Reads src tail bound fun p id q xs ys => OperandPost .unary p id q xs ∧ EndsOperand ys)
    {links : Links} {js : Finset ℕ}
    (hg : Pool.Grown base pool left ((ChainTree.operand first).graftAll links) js)
    (hleft : base.size ≤ left.index) (hunnamed : Unnamed pool left) (hends : EndsOperand ks)
    (hphrase : ∀ ws, IsExpr .operands ws → IsExpr .expr (xs ++ ws)) (hbound : ks.length ≤ bound + 1)
    (hlen : ks.length ≤ rounds) :
    ReadsOn src base pool xs ks (binaryTail tail left rounds) (ExprPost base) := by
  induction rounds generalizing xs ks pool left links js with
  | zero => exact fun _ h => absurd (List.length_eq_zero_iff.mp (Nat.le_zero.mp hlen)) h.ne_nil
  | succ rounds ih =>
    refine .peek ?_
    rintro t k ks ht rfl
    simp only [List.length_cons] at hbound hlen
    split
    next hop =>
      refine .pure ⟨⟨hleft, hg.chain.lt⟩, hunnamed, by simpa using hphrase [] .noOperand,
        ⟨hends, ?_⟩, first, links, js, hg⟩
      rintro _ ⟨⟩
      by_contra hne
      obtain ⟨op, hop'⟩ := Option.ne_none_iff_exists'.mp hne
      rw [← BinaryOp.token_of_ofToken? hop',
        ← kind_eq_iff src (isPlain_of_isFixed (isFixed_binary op))] at ht
      rw [ht, BinaryOp.ofToken?_token] at hop
      cases hop
    next op hop =>
      rw [symbolOf_binary hop] at ht
      subst ht
      refine .eatAny (ne_eof_of_isFixed (isFixed_binary op)) fun _ =>
        htail.bind (by omega) ?_
      rintro right q zs ys hys hext ⟨⟨-, hright, hoperand⟩, hends'⟩
      refine .attach (hg.extend hext) hright.operand fun root q' js' hg' hroot => ?_
      have hgraft : ((ChainTree.operand first).graftAll links).graft op right =
          (ChainTree.operand first).graftAll (links ++ [(op, right)]) := by
        rw [ChainTree.graftAll_append]
        rfl
      have hunnamed' : Unnamed q' root := .of_graft hg'.chain
      rw [hgraft] at hg'
      refine ih hg' hroot hunnamed' hends' (fun ws hws => ?_) (by omega) (by omega)
      simpa using hphrase _ (.operand op hoperand hws)

/-- An expression is read to its end, and its tree is the chain of its operands. -/
theorem expression_reads (depth : Nat) : Tries src (expression depth) depth ExprPost := by
  induction depth with
  | zero => exact .zero rfl
  | succ depth ih =>
    have hunary := (unary_reads ih.reads (Nat.le_refl (depth + 1)) (depth + 1)).reads
    rw [Nat.min_self] at hunary
    refine .of_on fun pool ks hlen => hunary.bind hlen ?_
    rintro left q zs ys hys hext ⟨⟨hnew, hpiece, hphrase⟩, hends⟩
    have hg : Pool.Grown pool q left ((ChainTree.operand left).graftAll []) ∅ :=
      ⟨hext, .operand hpiece.operand, by simp⟩
    exact binaryTail_reads hunary hg hnew.1 hpiece.unnamed hends (fun _ => .expr hphrase)
      (by omega) (by omega)

theorem exprs_reads (rounds : Nat) :
    Reads src (expressions (expression rounds) rounds) rounds fun _ ids q xs ys =>
      (∀ id ∈ ids, id.index < q.size) ∧ IsExpr (.exprs ids.length) xs ∧ EndsExpr ys :=
  (expressions_reads (expression_reads rounds).reads le_rfl).reads

end MicroCompiler.Grammar
