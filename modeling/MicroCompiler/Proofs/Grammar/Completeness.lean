import MicroCompiler.Proofs.Grammar.Statement

/-! Which phrases the productions of types, expressions and definitions accept. Where a phrase of
its nonterminal comes, followed by a token that does not go on with it, a production does not fail
and reads just the phrase. Whether it runs out of steps is no matter here. -/

namespace MicroCompiler.Grammar

open Ast (BinaryOp NodeId Number Pool Slot UnaryOp)
open Token (Kind)
open Production

variable {α : Type} {src : Source} {st : State} {k : Kind} {ks : List Kind} {pool : Pool}

/-- Where `xs` comes and then something with `follow`, the production does not fail, and if it
succeeds, it has read `xs` and its value has `V`. -/
def Accepts (src : Source) (p : Production α) (xs : List Kind) (follow : List Kind → Prop)
    (V : α → Prop) : Prop :=
  ∀ ⦃st : State⦄ ⦃ys : List Kind⦄ ⦃pool : Pool⦄, At src st (xs ++ ys) pool → follow ys →
    p.Sat src st (fun a st' => V a ∧ ∃ q, At src st' ys q) (fun _ => False) True

variable {xs : List Kind} {follow : List Kind → Prop} {V : α → Prop}

theorem Accepts.of_follow {p : Production α} {follow' : List Kind → Prop}
    (h : Accepts src p xs follow V) (himp : ∀ ys, follow' ys → follow ys) :
    Accepts src p xs follow' V := fun _ ys _ hat hys => h hat (himp ys hys)

/-- What is accepted whatever follows. -/
theorem Accepts.always {p : Production α} (h : Accepts src p xs (fun _ => True) V) :
    Accepts src p xs follow V :=
  h.of_follow fun _ _ => trivial

theorem Begins.head?_ne {starts : Kind → Bool} (h : Begins starts xs) (hk : starts k = false)
    (ys : List Kind) : (xs ++ ys).head? ≠ some k := by
  obtain ⟨k', zs, rfl, hk'⟩ := h
  rintro ⟨⟩
  simp [hk] at hk'

theorem Accepts.attempt {p : Production α} (h : Accepts src p xs follow V) :
    Accepts src (attempt p) xs follow V := by
  intro st ys pool hat hys
  exact sat_attempt hat (fun st' hat' => h hat' hys) fun _ _ he => he.elim

namespace Accepts

variable {β : Type} {p : Production α} {f : α → Production β} {W : β → Prop} {zs : List Kind}

/-! ### Sequences -/

theorem mono {V' : α → Prop} (h : Accepts src p xs follow V) (himp : ∀ a, V a → V' a) :
    Accepts src p xs follow V' :=
  fun _ _ _ hat hys => (h hat hys).mono (fun a _ h' => ⟨himp a h'.1, h'.2⟩) fun _ he => he

theorem stalled : Accepts src (stalled : Production α) xs follow V := fun _ _ _ _ _ => trivial

theorem pure {a : α} (h : V a) : Accepts src (pure a) [] follow V :=
  fun _ _ pool hat _ => ⟨h, pool, hat⟩

theorem bind {follow' : List Kind → Prop} (h : Accepts src p xs follow' V)
    (hfollow : ∀ ys, follow ys → follow' (zs ++ ys))
    (hf : ∀ a, V a → Accepts src (f a) zs follow W) :
    Accepts src (p >>= f) (xs ++ zs) follow W := by
  intro st ys pool hat hys
  rw [List.append_assoc] at hat
  refine (h hat (hfollow ys hys)).andThen ?_
  rintro a st' ⟨ha, q, hat'⟩
  exact hf a ha hat' hys

/-- What comes afterwards reads nothing. -/
theorem andThen (h : Accepts src p xs follow V) (hf : ∀ a, V a → Accepts src (f a) [] follow W) :
    Accepts src (p >>= f) xs follow W := by
  rw [← xs.append_nil]
  exact h.bind (fun _ hys => hys) hf

/-- What comes first reads nothing. -/
theorem after (h : Accepts src p [] (fun _ => True) V)
    (hf : ∀ a, V a → Accepts src (f a) xs follow W) :
    Accepts src (p >>= f) xs follow W := h.bind (fun _ _ => trivial) hf

/-! ### Tokens -/

variable {g : Token → Production β} {g' : Option Token → Production β} {kind : Kind}
  {code : Diagnostic.Code}

theorem peek_symbol (hg : ∀ t, (∃ ys, follow ys ∧ (xs ++ ys).head? = some (symbolOf src t)) →
      Accepts src (g t) xs follow W) :
    Accepts src (peek >>= g) xs follow W := by
  intro st ys pool hat hys
  obtain ⟨k, zs, hks⟩ := At.exists_cons hat
  rw [hks] at hat
  refine (sat_peek hat).andThen ?_
  rintro t st' ⟨rfl, hat'⟩
  rw [← hks] at hat'
  exact hg t ⟨ys, hys, by rw [hks]; rfl⟩ hat' hys

theorem peek (hk : isPlain k) (hg : ∀ span, Accepts src (g ⟨k, span⟩) (k :: xs) follow W) :
    Accepts src (peek >>= g) (k :: xs) follow W := by
  refine peek_symbol ?_
  rintro ⟨kind, span⟩ ⟨ys, -, ht⟩
  obtain rfl : kind = k := (kind_eq_iff src hk).mpr (Option.some.inj ht).symm
  exact hg span

theorem eat (hk : k != .eof) (hg : ∀ t, Accepts src (g t) xs follow W) :
    Accepts src (eat >>= g) (k :: xs) follow W := by
  intro st ys pool hat hys
  refine (sat_eat hat (bne_iff_ne.mp hk)).andThen ?_
  rintro t st' ⟨-, hat'⟩
  exact hg t hat' hys

/-- The token that comes is the one that was expected. -/
theorem expect (hk : isFixed kind) (hg : ∀ t, Accepts src (g t) xs follow W) :
    Accepts src (expectAs code kind >>= g) (kind :: xs) follow W := by
  intro st ys pool hat hys
  refine (sat_expectAs hat hk fun _ hk => absurd rfl hk).andThen ?_
  rintro t st' ⟨-, hat'⟩
  exact hg t hat' hys

theorem eatIf_yes (hk : isFixed kind) (hg : ∀ t, Accepts src (g' (some t)) xs follow W) :
    Accepts src (eatIf kind >>= g') (kind :: xs) follow W := by
  intro st ys pool hat hys
  refine (sat_eatIf_yes hat hk).andThen ?_
  rintro _ st' ⟨⟨t, rfl⟩, hat'⟩
  exact hg t hat' hys

theorem eatIf_no (hk : isFixed kind) (hne : ∀ ys, follow ys → (xs ++ ys).head? ≠ some kind)
    (hg : Accepts src (g' none) xs follow W) :
    Accepts src (eatIf kind >>= g') xs follow W := by
  intro st ys pool hat hys
  refine (sat_eatIf_no hat (hne ys hys) hk).andThen ?_
  rintro _ st' ⟨rfl, hat'⟩
  exact hg hat' hys

theorem check {b : Bool} {g : Bool → Production β} (hp : isPlain kind)
    (hb : ∀ ys, follow ys → decide ((xs ++ ys).head? = some kind) = b)
    (hg : Accepts src (g b) xs follow W) : Accepts src (check kind >>= g) xs follow W := by
  intro st ys pool hat hys
  obtain ⟨k, zs, hks⟩ := At.exists_cons hat
  have hb := hb ys hys
  rw [hks] at hat hb
  refine (sat_check hat hp).andThen ?_
  rintro _ st' ⟨rfl, hat'⟩
  obtain rfl : decide (k = kind) = b := by simpa using hb
  exact hg (hks ▸ hat') hys

theorem atType {b : Bool} {g : Bool → Production β}
    (hb : ∀ ys, follow ys → ∀ k ∈ (xs ++ ys).head?, startsType k = b)
    (hg : Accepts src (g b) xs follow W) : Accepts src (atType >>= g) xs follow W := by
  intro st ys pool hat hys
  obtain ⟨k, zs, hks⟩ := At.exists_cons hat
  obtain rfl := hb ys hys k (by rw [hks]; rfl)
  rw [hks] at hat
  refine (sat_atType hat).andThen ?_
  rintro _ st' ⟨rfl, hat'⟩
  exact hg (hks ▸ hat') hys

/-! ### Nodes -/

/-- What changes no more than the pool. -/
theorem silent (h : ∀ st, (∃ a q, p src st = .ok a { st with pool := q }) ∨ ∃ f,
      p src st = .broken f) :
    Accepts src p [] follow fun _ => True := by
  intro st ys pool hat _
  unfold Production.Sat
  rcases h st with ⟨a, q, hok⟩ | ⟨f, hbroken⟩
  · rw [hok]
    exact ⟨trivial, q, hat.setPool q⟩
  · rw [hbroken]
    trivial

/-- What reads nothing can be used anywhere. -/
theorem sat_nil {E : State → Prop} (h : Accepts src p [] (fun _ => True) V)
    (hat : At src st ks pool) : p.Sat src st (fun a st' => V a ∧ ∃ q, At src st' ks q) E True :=
  (h hat trivial).mono (fun _ _ h' => h') fun _ he => he.elim

end Accepts

theorem alloc_accepts {kind : Ast.NodeKind} {span : Span} :
    Accepts src (alloc kind span) [] follow fun _ => True :=
  .silent fun _ => .inl ⟨_, _, rfl⟩

theorem allocList_accepts {ids : List NodeId} : Accepts src (allocList ids) [] follow fun _ =>
    True :=
  .silent fun _ => .inl ⟨_, _, rfl⟩

theorem node_accepts {id : NodeId} : Accepts src (node id) [] follow fun _ => True := by
  refine .silent fun st => ?_
  unfold node
  cases st.pool.get id with
  | ok n => exact .inl ⟨n, st.pool, rfl⟩
  | error f => exact .inr ⟨_, rfl⟩

theorem spanOf_accepts {id : NodeId} : Accepts src (spanOf id) [] follow fun _ => True :=
  node_accepts.andThen fun _ _ => .pure trivial

theorem update_accepts {id : NodeId} {f : Ast.Node → Ast.Node} :
    Accepts src (update id f) [] follow fun _ => True := by
  refine .silent fun st => ?_
  unfold update
  cases st.pool.modify id f with
  | ok q => exact .inl ⟨(), q, rfl⟩
  | error f => exact .inr ⟨_, rfl⟩

theorem attach_accepts {left right : NodeId} {op : BinaryOp} :
    Accepts src (attach left op right) [] follow fun _ => True := by
  refine .silent fun st => ?_
  unfold attach
  cases st.pool.attachBinary left op right with
  | ok r => exact .inl ⟨_, r.2, rfl⟩
  | error f => exact .inr ⟨_, rfl⟩

/-! ### Types -/

theorem typeExpr_accepts (depth : Nat) (hxs : IsType xs) :
    Accepts src (typeExpr depth) xs (fun _ => True) fun _ => True := by
  induction depth generalizing xs with
  | zero => exact .stalled
  | succ depth ih =>
    rw [typeExpr]
    refine Accepts.attempt ?_
    cases hxs with
    | name => exact .peek rfl fun _ => .eat rfl fun _ => alloc_accepts
    | pointer hxs =>
      refine .peek rfl fun _ => .eat rfl fun _ => (ih hxs).andThen fun _ _ => ?_
      exact spanOf_accepts.after fun _ _ => alloc_accepts

/-! ### Lists with commas -/

variable {item : Production α} {P : List Kind → Prop} {n : Nat}

theorem commaTail_ends (rounds : Nat) :
    Accepts src (commaTail item rounds) [] (fun ys => ys.head? ≠ some .comma) fun as =>
    as = [] := by
  cases rounds with
  | zero => exact .stalled
  | succ rounds =>
    rw [commaTail]
    exact .eatIf_no rfl (fun _ hys => hys) (.pure rfl)

section

variable (hitem : ∀ xs, P xs → Accepts src item xs follow fun _ => True) (hcomma : ∀ ys,
  follow (.comma :: ys))

include hitem hcomma

/-- An item stands alone, or further ones follow it. -/
theorem commaSeparated_of_tail {rounds : Nat}
    (htail : ∀ {n xs}, CommaSeparated P n xs → Accepts src (commaTail item rounds)
      (.comma :: xs) (fun ys => follow ys ∧ ys.head? ≠ some .comma) fun as => as.length = n)
    (hxs : CommaSeparated P n xs) : Accepts src (commaSeparated item rounds) xs
      (fun ys => follow ys ∧ ys.head? ≠ some .comma) fun as => as.length = n := by
  cases hxs with
  | one hxs =>
    refine ((hitem _ hxs).of_follow fun _ hys => hys.1).andThen fun a _ => ?_
    refine ((commaTail_ends rounds).of_follow fun _ hys => hys.2).andThen ?_
    rintro _ rfl
    exact .pure rfl
  | more hxs hrest =>
    refine (hitem _ hxs).bind (fun _ _ => hcomma _) fun a _ => (htail hrest).andThen ?_
    rintro as rfl
    exact .pure rfl

theorem commaTail_accepts (hxs : CommaSeparated P n xs) (rounds : Nat) :
    Accepts src (commaTail item rounds) (.comma :: xs) (fun ys => follow ys ∧
      ys.head? ≠ some .comma)
      fun as => as.length = n := by
  induction rounds generalizing xs n with
  | zero => exact .stalled
  | succ rounds ih =>
    exact .eatIf_yes rfl fun _ => commaSeparated_of_tail hitem hcomma ih hxs

theorem commaSeparated_accepts (hxs : CommaSeparated P n xs) (rounds : Nat) :
    Accepts src (commaSeparated item rounds) xs (fun ys => follow ys ∧ ys.head? ≠ some .comma)
      fun as => as.length = n :=
  commaSeparated_of_tail hitem hcomma (fun hxs => commaTail_accepts hitem hcomma hxs rounds) hxs

end

theorem commaSeparated_of_exprs {part : ExprPart} (h : IsExpr part xs) :
    ∀ n, part = .exprs n → CommaSeparated (IsExpr .expr) n xs := by
  induction h with
  | oneExpr h =>
    rintro n ⟨⟩
    exact .one h
  | moreExprs h _ _ ih =>
    rintro n ⟨⟩
    exact .more h (ih _ rfl)
  | _ => intro n hpart; simp at hpart

/-! ### Expressions -/

theorem endsExpr_cons {ys : List Kind} (hk : k ∉ [Kind.leftParen, Kind.leftBracket, Kind.dot])
    (hop : BinaryOp.ofToken? k = none) : EndsExpr (k :: ys) := by
  constructor <;> rintro _ ⟨⟩
  · exact hk
  · exact hop

theorem endsExprs {ys : List Kind}
    (hk : (k ∉ [Kind.leftParen, Kind.leftBracket, Kind.dot] ∧ BinaryOp.ofToken? k = none) ∧
    k ≠ .comma) (hys : ys.head? = some k) : EndsExpr ys ∧ ys.head? ≠ some .comma := by
  simp_all [EndsExpr, EndsOperand]

def AcceptsExpr (src : Source) (expr : Production NodeId) : Prop :=
  ∀ xs, IsExpr .expr xs → Accepts src expr xs EndsExpr fun _ => True

variable {expr : Production NodeId}

theorem expressions_accepts (hexpr : AcceptsExpr src expr)
    (hxs : IsExpr (.exprs n) xs) (rounds : Nat) :
    Accepts src (expressions expr rounds) xs (fun ys => EndsExpr ys ∧ ys.head? ≠ some .comma)
    fun ids => ids.length = n :=
  (commaSeparated_accepts hexpr (fun _ => endsExpr_cons (by decide) rfl)
    (commaSeparated_of_exprs hxs n rfl) rounds).attempt

theorem number_accepts {t : Token} (h : symbolOf src t = .number) :
    Accepts src (number t) [] follow fun _ => True := by
  unfold symbolOf at h
  split_ifs at h with hbad
  obtain ⟨v, hv⟩ : ∃ v, Number.ofText? (src.text t.span) = some v := by
    rw [← Option.isSome_iff_exists, Option.isSome_iff_ne_none]
    simpa [h] using hbad
  refine .silent fun st => .inl ⟨v, st.pool, ?_⟩
  unfold number
  simp only [Bind.bind, Production.bind, textOf, hv]
  rfl

section

variable (hexpr : AcceptsExpr src expr)

include hexpr

theorem primary_accepts (hxs : IsExpr .primary xs) :
    Accepts src (primary expr) xs (fun _ => True) fun _ => True := by
  refine Accepts.attempt ?_
  cases hxs with
  | @atom k hk =>
    refine .peek_symbol ?_
    rintro ⟨kind, span⟩ ⟨ys, -, ht⟩
    obtain rfl := Option.some.inj ht
    have hkind : symbolOf src ⟨kind, span⟩ = kind := by
      by_cases hn : kind = .number
      · unfold symbolOf at hk ⊢
        split_ifs at hk ⊢
        · simp [isAtom] at hk
        · rfl
      · exact symbolOf_eq hn
    rw [hkind] at hk ⊢
    cases kind with
    | identifier | string | kwNil => exact .eat rfl fun _ => alloc_accepts
    | number =>
      exact .eat rfl fun _ => (number_accepts hkind).after fun _ _ => alloc_accepts
    | _ => simp [isAtom] at hk
  | parens hxs =>
    refine .peek rfl fun _ => .eat rfl fun _ => ?_
    refine (hexpr _ hxs).bind (fun _ _ => endsExpr_cons (by decide) rfl) fun inner _ => ?_
    exact .expect rfl fun close => update_accepts.after fun _ _ => .pure trivial

/-! ### Suffixes -/

/-- No expressions or some, before a token that neither begins one nor goes on with one. -/
theorem optionalExpressions_accepts (rounds : Nat) {stop : Kind}
    (hstop : isPlain stop) (hstarts : startsExpr stop = false)
    (hends : ∀ ys, ys.head? = some stop → EndsExpr ys ∧ ys.head? ≠ some .comma)
    (hxs : xs = [] ∨ ∃ n, IsExpr (.exprs n) xs) :
    Accepts src (check stop >>= fun b => if b = true then pure [] else expressions expr rounds) xs
      (fun ys => ys.head? = some stop) fun _ => True := by
  rcases hxs with rfl | ⟨n, hxs⟩
  · refine .check hstop (b := true) (fun ys hys => ?_) (.pure trivial)
    simpa using hys
  · refine .check hstop (b := false) (fun ys _ => ?_) ?_
    · exact decide_eq_false ((hxs.begins rfl).head?_ne hstarts ys)
    · exact ((expressions_accepts hexpr hxs rounds).of_follow hends).mono fun _ _ => trivial

theorem arguments_accepts (rounds : Nat) (hxs : xs = [] ∨ ∃ n, IsExpr (.exprs n) xs) :
    Accepts src (arguments expr rounds) xs (fun ys => ys.head? = some .rightParen) fun _ => True :=
  optionalExpressions_accepts hexpr rounds rfl rfl (fun _ => endsExprs (by decide)) hxs

theorem call_accepts (callee : NodeId) (rounds : Nat) (hxs : xs = [] ∨ ∃ n, IsExpr (.exprs n) xs) :
    Accepts src (call expr callee rounds) (.leftParen :: xs ++ [.rightParen]) (fun _ => True)
    fun _ => True := by
  refine Accepts.attempt (.expect rfl fun _ => ?_)
  refine (arguments_accepts hexpr rounds hxs).bind (fun _ _ => rfl) fun args _ =>
    .expect rfl fun close => ?_
  exact allocList_accepts.after fun _ _ => spanOf_accepts.after fun _ _ => alloc_accepts

theorem subscript_accepts (container : NodeId) (hxs : IsExpr .expr xs) :
    Accepts src (subscript expr container) (.leftBracket :: xs ++ [.rightBracket]) (fun _ => True)
    fun _ => True := by
  refine spanOf_accepts.after fun head _ => .eat rfl fun _ => ?_
  refine (hexpr _ hxs).bind (fun _ _ => endsExpr_cons (by decide) rfl) fun index _ => ?_
  exact .expect rfl fun close => alloc_accepts

end

theorem member_accepts (operand : NodeId) (rounds : Nat) :
    Accepts src (selection operand rounds) [.dot, .identifier] (fun _ => True) fun _ => True := by
  refine spanOf_accepts.after fun head _ => .eat rfl fun _ => .eatIf_no rfl (by simp) ?_
  exact .expect rfl fun name => alloc_accepts

theorem cast_accepts (operand : NodeId) (rounds : Nat) (hxs : IsType xs) :
    Accepts src (selection operand rounds) (.dot :: .leftParen :: xs ++ [.rightParen]) (fun _ =>
      True) fun _ => True := by
  refine spanOf_accepts.after fun head _ => .eat rfl fun _ =>
    .eatIf_yes rfl fun _ => ?_
  refine (typeExpr_accepts rounds hxs).bind (fun _ _ => trivial) fun type _ => ?_
  exact .expect rfl fun close => alloc_accepts

theorem suffixes_accepts (hexpr : AcceptsExpr src expr) (operand : NodeId)
    (rounds : Nat) (hxs : IsExpr .suffixes xs) :
    Accepts src (suffixes expr operand rounds) xs EndsOperand fun _ => True := by
  induction rounds generalizing xs operand with
  | zero => exact .stalled
  | succ rounds ih =>
    rw [suffixes]
    cases hxs with
    | noSuffix =>
      refine .peek_symbol ?_
      rintro t ⟨ys, hys, ht⟩
      have hkind := hys _ ht
      rw [List.mem_cons, List.mem_cons, List.mem_singleton, ← kind_eq_iff src rfl,
        ← kind_eq_iff src rfl, ← kind_eq_iff src rfl] at hkind
      split
      next hk => exact absurd (.inl hk) hkind
      next hk => exact absurd (.inr (.inl hk)) hkind
      next hk => exact absurd (.inr (.inr hk)) hkind
      next => exact .pure trivial
    | @suffixes xs zs hxs hrest =>
      have hnext {p : Production NodeId} (hp : Accepts src p xs (fun _ => True) fun _ => True) :
          Accepts src (p >>= fun operand => suffixes expr operand rounds) (xs ++ zs)
          EndsOperand fun _ => True :=
        hp.bind (fun _ _ => trivial) fun id _ => ih id hrest
      cases hxs with
      | callNone => exact .peek rfl fun _ => hnext (call_accepts hexpr operand _ (.inl rfl))
      | call hargs =>
        exact .peek rfl fun _ => hnext (call_accepts hexpr operand _ (.inr ⟨_, hargs⟩))
      | subscript hindex =>
        exact .peek rfl fun _ => hnext (subscript_accepts hexpr operand hindex)
      | member => exact .peek rfl fun _ => hnext (member_accepts operand _)
      | cast htype => exact .peek rfl fun _ => hnext (cast_accepts operand _ htype)

/-! ### Operators -/

/-- Where operands follow on an operand, an operator comes next. -/
theorem IsExpr.endsOperand {ys : List Kind} (h : IsExpr .operands xs) (hys : EndsOperand ys) :
    EndsOperand (xs ++ ys) := by
  cases h with
  | noOperand => exact hys
  | operand op =>
    rintro _ ⟨⟩
    cases op <;> decide

theorem noPrefix_of_isAtom : ∀ k, isAtom k → (UnaryOp.ofToken? k).isNone := by
  intro k
  cases k <;> decide

theorem unary_accepts (hexpr : AcceptsExpr src expr) (rounds depth : Nat) (hxs : IsExpr .unary xs) :
    Accepts src (unary expr rounds depth) xs EndsOperand fun _ => True := by
  induction depth generalizing xs with
  | zero => exact .stalled
  | succ depth ih =>
    rw [unary]
    refine Accepts.attempt ?_
    cases hxs with
    | prefixed op hxs =>
      refine .peek (isPlain_of_isFixed (isFixed_unary op)) fun _ => ?_
      simp only [UnaryOp.ofToken?_token]
      refine .eat (bne_iff_ne.mpr (ne_eof_of_isFixed (isFixed_unary op))) fun _ =>
        (ih hxs).andThen fun _ _ => ?_
      exact spanOf_accepts.after fun _ _ => alloc_accepts
    | @postfixed xs zs hxs hrest =>
      obtain ⟨k, ws, hk, hnop⟩ : Begins (fun k => (UnaryOp.ofToken? k).isNone) xs := by
        cases hxs with
        | @atom k hk => exact ⟨k, [], rfl, noPrefix_of_isAtom k hk⟩
        | parens => exact ⟨_, _, rfl, rfl⟩
      refine .peek_symbol ?_
      rintro t ⟨ys, -, ht⟩
      split
      next =>
        exact (primary_accepts hexpr hxs).bind (fun _ _ => trivial) fun id _ =>
          suffixes_accepts hexpr id rounds hrest
      next op hop =>
        rw [symbolOf_unary hop, hk] at ht
        obtain rfl := Option.some.inj ht
        simp [UnaryOp.ofToken?_token] at hnop

theorem binaryTail_accepts {operand : Production NodeId}
    (hoperand : ∀ xs, IsExpr .unary xs → Accepts src operand xs EndsOperand fun _ => True)
    (left : NodeId) (rounds : Nat) (hxs : IsExpr .operands xs) :
    Accepts src (binaryTail operand left rounds) xs EndsExpr fun _ => True := by
  induction rounds generalizing xs left with
  | zero => exact .stalled
  | succ rounds ih =>
    rw [binaryTail]
    cases hxs with
    | noOperand =>
      refine .peek_symbol ?_
      rintro t ⟨ys, hys, ht⟩
      split
      next => exact .pure trivial
      next op hop =>
        have hnone := hys.2 _ ht
        simp [symbolOf_binary hop, BinaryOp.ofToken?_token] at hnone
    | @operand op xs zs hxs hrest =>
      refine .peek (isPlain_of_isFixed (isFixed_binary op)) fun _ => ?_
      simp only [BinaryOp.ofToken?_token]
      refine .eat (bne_iff_ne.mpr (ne_eof_of_isFixed (isFixed_binary op))) fun _ => ?_
      refine (hoperand _ hxs).bind (fun _ hys => hrest.endsOperand hys.1) fun right _ => ?_
      exact attach_accepts.after fun root _ => ih root hrest

theorem expression_accepts (depth : Nat) : AcceptsExpr src (expression depth) := by
  induction depth with
  | zero => exact fun _ _ => .stalled
  | succ depth ih =>
    intro xs hxs
    rw [expression]
    obtain ⟨hxs, hrest⟩ := hxs
    refine Accepts.attempt ((unary_accepts ih _ _ hxs).bind (fun _ hys => hrest.endsOperand hys.1)
      fun left _ => ?_)
    exact binaryTail_accepts (fun _ hxs => unary_accepts ih _ _ hxs) left _ hrest

/-! ### Definitions -/

theorem optionalType_none (rounds : Nat) :
    Accepts src (optionalType rounds) [] (fun ys => ∀ k ∈ ys.head?, startsType k = false)
    fun type => type = none :=
  .atType (fun _ hys => hys) (.pure rfl)

theorem IsType.atType_accepts {β : Type} {g : Bool → Production β} {W : β → Prop} (hxs : IsType xs)
    (hg : Accepts src (g true) xs follow W) : Accepts src (atType >>= g) xs follow W := by
  refine .atType (fun ys _ k hk' => ?_) hg
  obtain ⟨k, zs, rfl, hk⟩ := hxs.begins
  obtain rfl := Option.some.inj hk'
  exact hk

theorem optionalType_some (rounds : Nat) (hxs : IsType xs) :
    Accepts src (optionalType rounds) xs (fun _ => True) fun type => type.isSome :=
  hxs.atType_accepts ((typeExpr_accepts rounds hxs).andThen fun _ _ => .pure rfl)

theorem initializers_none (rounds : Nat) :
    Accepts src (initializers rounds) [] (fun ys => ys.head? ≠ some .equal) fun inits =>
    inits = [] :=
  .eatIf_no rfl (fun _ hys => hys) (.pure rfl)

theorem initializers_some (rounds : Nat) (hxs : IsExpr (.exprs n) xs) :
    Accepts src (initializers rounds) (.equal :: xs) (fun ys => EndsExpr ys ∧
      ys.head? ≠ some .comma)
      fun inits => inits.length = n :=
  .eatIf_yes rfl fun _ => expressions_accepts (expression_accepts rounds) hxs rounds

theorem IsExpr.exprs_pos (h : IsExpr (.exprs n) xs) : 0 < n := by cases h <;> omega

theorem definitionBody_accepts (rounds : Nat) (hxs : IsDefinitionBody n xs) :
    Accepts src (definitionBody rounds) xs (fun ys => ys.head? = some .semicolon)
      fun v => v.2 = [] ∨ v.2.length = n := by
  have hends (ys : List Kind) (hys : ys.head? = some .semicolon) := endsExprs (by decide) hys
  cases hxs with
  | inferred hxs =>
    refine .eatIf_yes rfl fun _ => ?_
    refine ((expressions_accepts (expression_accepts rounds) hxs rounds).of_follow hends).andThen
      fun inits hlen => ?_
    exact .pure (.inr hlen)
  | typed hxs =>
    refine .eatIf_no rfl (by simp) (.peek rfl fun _ => .eat rfl fun _ => ?_)
    refine (optionalType_some rounds hxs).always.andThen fun type htype => ?_
    refine ((initializers_none rounds).of_follow fun ys hys => by simp [hys]).andThen ?_
    rintro _ rfl
    rw [if_neg (by simp [Option.isSome_iff_ne_none.mp htype])]
    exact .pure (.inl rfl)
  | @initialized xs zs htype hinits =>
    have htype' : Accepts src (optionalType rounds) xs (fun ys => ys.head? = some .equal) fun _ =>
        True := by
      rcases htype with rfl | hxs
      · exact ((optionalType_none rounds).of_follow fun ys hys => by simp [hys, startsType]).mono
          fun _ _ => trivial
      · exact (optionalType_some rounds hxs).always.mono fun _ _ => trivial
    refine .eatIf_no rfl (by simp) (.peek rfl fun _ => .eat rfl fun _ => ?_)
    refine htype'.bind (fun _ _ => rfl) fun type _ => ?_
    refine ((initializers_some rounds hinits).of_follow hends).andThen fun inits hlen => ?_
    have hpos := hinits.exprs_pos
    rw [if_neg (by rintro ⟨-, he⟩; simp [List.isEmpty_iff.mp he] at hlen; omega)]
    exact .pure (.inr hlen)

theorem checkCount_accepts {names : List Token} {inits : List NodeId}
    (hcount : inits = [] ∨ inits.length = names.length) :
    Accepts src (checkCount names inits) [] follow fun _ => True := by
  cases inits with
  | nil => exact .pure trivial
  | cons first rest =>
    simp only [checkCount]
    rw [if_pos (hcount.resolve_left (by simp))]
    exact .pure trivial

theorem allocVariables_accepts {type : Slot} {names : List Token} {inits : List NodeId} :
    Accepts src (allocVariables type names inits) [] follow fun _ => True := by
  induction names generalizing inits with
  | nil => exact .pure trivial
  | cons name names ih =>
    rw [allocVariables]
    have hstop : Accepts src (variableStop name type inits.head?) [] (fun _ => True) fun _ =>
        True := by
      unfold variableStop
      split
      · exact spanOf_accepts.andThen fun _ _ => .pure trivial
      · exact spanOf_accepts.andThen fun _ _ => .pure trivial
      · exact .pure trivial
    exact hstop.after fun _ _ => alloc_accepts.after fun _ _ => ih.andThen fun _ _ => .pure trivial

theorem names_accepts (rounds : Nat) (hxs : IsNames n xs) :
    Accepts src (commaSeparated expectIdentifier rounds) xs (fun ys => ys.head? ≠ some .comma)
      fun names => names.length = n := by
  have hitem (xs : List Kind) (hxs : Word .identifier xs) :
      Accepts src expectIdentifier xs (fun _ => True) fun _ => True := by
    intro st ys pool h _
    obtain rfl := hxs
    exact (sat_expectAs h rfl fun _ hk => absurd rfl hk).mono (fun _ _ h' => ⟨trivial, _, h'.2⟩)
      fun _ he => he
  exact (commaSeparated_accepts hitem (fun _ => trivial) hxs rounds).of_follow fun _ hys =>
    ⟨trivial, hys⟩

theorem eatIf_accepts {kind : Kind} (hk : isFixed kind) (hxs : Optional (Word kind) xs) :
    Accepts src (eatIf kind) xs (fun ys => ys.head? ≠ some kind) fun _ => True := by
  intro st ys pool h hys
  rcases hxs with rfl | rfl
  · exact (sat_eatIf_no h hys hk).mono (fun _ _ h' => ⟨trivial, _, h'.2⟩) fun _ he => he
  · exact (sat_eatIf_yes h hk).mono (fun _ _ h' => ⟨trivial, _, h'.2⟩) fun _ he => he

theorem definition_accepts (rounds : Nat) (hxs : IsDefinition xs) :
    Accepts src (definition rounds) xs (fun _ => True) fun _ => True := by
  obtain @⟨n, kw, xs, zs, hkw, hnames, hbody⟩ := hxs
  have hcomma (ys : List Kind) : (zs ++ [Kind.semicolon] ++ ys).head? ≠ some .comma := by
    cases hbody <;> simp
  rw [List.append_assoc, List.append_assoc]
  refine Accepts.attempt ((eatIf_accepts rfl hkw).bind ?_ fun keyword _ => ?_)
  · exact fun ys _ => (hnames.begins.append _).head?_ne rfl ys
  refine (names_accepts rounds hnames).bind (fun ys _ => hcomma ys) ?_
  rintro names rfl
  refine (definitionBody_accepts rounds hbody).bind (fun _ _ => rfl) ?_
  rintro ⟨type, inits⟩ hcount
  refine (checkCount_accepts hcount).after fun _ _ => .expect rfl fun semi => ?_
  exact allocVariables_accepts.after fun _ _ => allocList_accepts.after fun _ _ => alloc_accepts

end MicroCompiler.Grammar
