import MicroCompiler.Proofs.Grammar.Completeness

/-! Which phrases the productions of signatures and declarations accept. Alternatives that are tried
too early are refused by what they read: their phrases have another first token or another first
mark. -/

namespace MicroCompiler.Grammar

open Ast (NodeId Pool)
open Token (Kind)
open Production

variable {α : Type} {src : Source} {st : State} {k : Kind} {xs : List Kind} {pool : Pool}
  {bound rounds : Nat} {follow : List Kind → Prop}

/-- What is read and what is accepted are the same. -/
theorem Accepts.sat {p : Production α} {post : Pool → α → Pool → List Kind → List Kind → Prop}
    {V : α → Prop} {ys : List Kind} {E : State → Prop} {B : Prop} (hacc : Accepts src p xs follow V)
    (hreads : Reads src p bound post) (h : At src st (xs ++ ys) pool) (hys : follow ys)
    (hlen : (xs ++ ys).length ≤ bound) :
    p.Sat src st (fun a st' => ∃ q, At src st' ys q ∧ pool.Extends q ∧
      post pool a q xs ys) E B := by
  have haccepts := hacc h hys
  have hreads := hreads h hlen
  unfold Production.Sat at *
  cases hp : p src st with
  | ok a st' =>
    simp only [hp] at haccepts hreads
    obtain ⟨-, q, hq⟩ := haccepts
    obtain ⟨xs', ys', q', hks, hq', hext, hpost⟩ := hreads
    obtain rfl : q = q' := hq.pool.symm.trans hq'.pool
    obtain rfl : ys = ys' := hq.rest.symm.trans hq'.rest
    obtain rfl : xs = xs' := List.append_cancel_right hks
    exact ⟨q, hq, hext, hpost⟩
  | failed e st' => simp [hp] at haccepts
  | broken f => simp [hp] at hreads

/-- Where `xs` comes and then something with `follow`, the production fails and goes back. -/
def Refuses (src : Source) (p : Production α) (xs : List Kind) (follow : List Kind → Prop) : Prop :=
  ∀ ⦃st : State⦄ ⦃ys : List Kind⦄ ⦃pool : Pool⦄, At src st (xs ++ ys) pool → follow ys →
    p.Sat src st (fun _ _ => False) (fun st' => ∃ q, At src st' (xs ++ ys) q) True

/-- A production none of whose phrases comes fails and goes back. -/
theorem Tries.refuses {p : Production α} {post : Pool → α → Pool → List Kind → List Kind → Prop}
    (h : Tries src p bound post) (hlen : ∀ ys, follow ys → (xs ++ ys).length ≤ bound)
    (hno : ∀ pool a q ys xs' ys', follow ys → xs ++ ys = xs' ++ ys' → ¬ post pool a q xs' ys') :
    Refuses src p xs follow := by
  intro st ys pool hat hys
  have hsat := h hat (hlen ys hys)
  unfold Production.Sat at *
  cases hp : p src st with
  | ok a st' =>
    simp only [hp] at hsat
    obtain ⟨xs', ys', q, hks, -, -, hpost⟩ := hsat
    exact hno pool a q ys xs' ys' hys hks hpost
  | failed e st' =>
    simp only [hp] at hsat
    obtain ⟨q, hq, -⟩ := hsat
    exact ⟨q, hq⟩
  | broken f => simp [hp] at hsat

namespace Accepts

variable {follow : List Kind → Prop} {V : α → Prop} {p : Production α} {rest : List (Production α)}
  {best : Diagnostic}

/-! ### Alternatives -/

theorem orElse (h : Accepts src p xs follow V) :
    Accepts src (orElse best (p :: rest)) xs follow V :=
  fun _ _ _ hat hys => sat_orElse_cons ((h hat hys).mono (fun _ _ h' => h') fun _ he => he.elim)

theorem firstOf (h : Accepts src p xs follow V) : Accepts src (firstOf (p :: rest)) xs follow V :=
  fun _ _ _ hat hys => sat_firstOf ((h hat hys).mono (fun _ _ h' => h') fun _ he => he.elim)

theorem orElse_next (hp : Refuses src p xs follow)
    (h : ∀ best, Accepts src (Production.orElse best rest) xs follow V) :
    Accepts src (Production.orElse best (p :: rest)) xs follow V := by
  intro st ys pool hat hys
  refine sat_orElse_cons ((hp hat hys).mono (fun _ _ h' => h'.elim) ?_)
  rintro st' ⟨q, hat'⟩ best
  exact h best hat' hys

theorem firstOf_next (hp : Refuses src p xs follow)
    (h : ∀ best, Accepts src (Production.orElse best rest) xs follow V) :
    Accepts src (Production.firstOf (p :: rest)) xs follow V := by
  intro st ys pool hat hys
  refine sat_firstOf ((hp hat hys).mono (fun _ _ h' => h'.elim) ?_)
  rintro st' ⟨q, hat'⟩ best
  exact h best hat' hys

theorem orUnexpected {code : Diagnostic.Code} {wanted : String} {start : Token}
    (h : Accepts src p xs follow V) : Accepts src (orUnexpected code wanted start p) xs follow V :=
    fun _ _ _ hat hys => sat_orUnexpected (h hat hys)

end Accepts

/-! ### Signatures -/

theorem paramGroup_accepts (rounds : Nat) (hxs : IsGroup xs) :
    Accepts src (paramGroup rounds) xs (fun _ => True) fun _ => True := by
  obtain ⟨hnames, htype⟩ := hxs
  refine (names_accepts rounds hnames).bind (by simp) fun names _ => .expect rfl fun _ => ?_
  exact (typeExpr_accepts rounds htype).andThen fun _ _ => allocVariables_accepts

theorem IsGroup.begins (h : IsGroup xs) : Begins (· == .identifier) xs := by
  obtain ⟨hnames, -⟩ := h
  exact hnames.begins.append _

/-- Parameters are an ellipsis, a group, or a group and a comma before other parameters. -/
theorem IsParams.cases_group (h : IsParams xs) (hne : xs ≠ []) :
    xs = [.ellipsis] ∨ IsGroup xs ∨ ∃ gs ys, xs = gs ++ .comma :: ys ∧ IsGroup gs ∧
    IsParams ys ∧ ys ≠ [] := by
  have hrest {n : Nat} {ys : List Kind} (h : CommaSeparated IsGroup n ys) : ys ≠ [] := by
    obtain ⟨k, zs, rfl, -⟩ := CommaSeparated.begins h fun _ => IsGroup.begins
    simp
  cases h with
  | none => exact absurd rfl hne
  | ellipsis => exact .inl rfl
  | groups h =>
    cases h with
    | one h => exact .inr (.inl h)
    | more h hys => exact .inr (.inr ⟨_, _, rfl, h, .groups hys, hrest hys⟩)
  | variadic h =>
    cases h with
    | one h => exact .inr (.inr ⟨_, _, rfl, h, .ellipsis, by simp⟩)
    | more h hys => exact .inr (.inr ⟨_, _, by simp, h, .variadic hys, by simp⟩)

theorem paramsTail_accepts (rounds groups : Nat) (hxs : IsParams xs) (hne : xs ≠ []) :
    Accepts src (paramsTail rounds groups) (xs ++ [.rightParen]) (fun _ => True) fun _ => True := by
  induction groups generalizing xs with
  | zero => exact .stalled
  | succ groups ih =>
    rw [paramsTail]
    rcases hxs.cases_group hne with rfl | hxs | ⟨gs, zs, rfl, hgs, hzs, hne⟩
    · exact .eatIf_yes rfl fun _ => .eatIf_yes rfl fun _ => .pure trivial
    · refine .eatIf_no rfl (fun ys _ => (hxs.begins.append _).head?_ne rfl ys) ?_
      refine (paramGroup_accepts rounds hxs).bind (fun _ _ => trivial) fun _ _ =>
        .eatIf_no rfl (by simp) ?_
      exact .expect rfl fun _ => .pure trivial
    · rw [List.append_assoc]
      refine .eatIf_no rfl (fun ys _ => (hgs.begins.append _).head?_ne rfl ys) ?_
      refine (paramGroup_accepts rounds hgs).bind (fun _ _ => trivial) fun _ _ =>
        .eatIf_yes rfl fun _ => ?_
      exact (ih hzs hne).andThen fun _ _ => .pure trivial

theorem params_accepts (rounds : Nat) (hxs : IsParams xs) :
    Accepts src (params rounds) (xs ++ [.rightParen]) (fun _ => True) fun _ => True := by
  by_cases hne : xs = []
  · subst hne
    exact .eatIf_yes rfl fun _ => .pure trivial
  · refine .eatIf_no rfl (fun ys _ => ?_) (paramsTail_accepts rounds rounds hxs hne)
    rcases hxs.cases_group hne with rfl | hxs | ⟨gs, zs, rfl, hgs, -⟩
    · simp
    · exact (hxs.begins.append _).head?_ne rfl ys
    · exact ((hgs.begins.append _).append _).head?_ne rfl ys

/-- What comes behind the signature of a function. -/
def startsBody : Kind → Bool
  | .leftBrace | .foreignDirective => true
  | _ => false

theorem noReturns_of_startsBody : ∀ k, startsBody k → k ≠ .leftParen ∧ startsType k = false := by
  intro k
  cases k <;> decide

theorem returns_accepts (rounds : Nat) (hxs : Optional IsReturns xs) :
    Accepts src (returns rounds) xs (fun ys => Begins startsBody ys) fun _ => True := by
  rcases hxs with rfl | hxs
  · refine .eatIf_no rfl ?_ (.atType (b := false) ?_ (.pure trivial))
    · rintro _ ⟨k, zs, rfl, hk⟩
      simpa using (noReturns_of_startsBody k hk).1
    · rintro _ ⟨k, zs, rfl, hk⟩ _ ⟨⟩
      exact (noReturns_of_startsBody k hk).2
  · cases hxs with
    | one hxs =>
      refine .eatIf_no rfl (fun ys _ => hxs.begins.head?_ne rfl ys) (hxs.atType_accepts ?_)
      exact (typeExpr_accepts rounds hxs).always.andThen fun _ _ => .pure trivial
    | none => exact .eatIf_yes rfl fun _ => .eatIf_yes rfl fun _ => .pure trivial
    | list hxs =>
      have hbegins := hxs.begins fun _ => IsType.begins
      refine .eatIf_yes rfl fun _ => .eatIf_no rfl (fun ys _ =>
        (hbegins.append _).head?_ne rfl ys) ?_
      have hitem (zs : List Kind) (hzs : IsType zs) := @typeExpr_accepts src zs rounds hzs
      refine (commaSeparated_accepts hitem (fun _ => trivial) hxs rounds).bind (fun _ _ =>
        ⟨trivial, by simp⟩) fun _ _ => ?_
      exact .expect rfl fun _ => .pure trivial

/-! ### Declarations -/

/-- The item is accepted where at most `bound` tokens are to come and `follow` holds of what comes
behind it. -/
def AcceptsWithin (src : Source) (p : Production α) (bound : Nat) (follow : List Kind → Prop)
    (xs : List Kind) : Prop :=
  Accepts src p xs (fun ys => (xs ++ ys).length ≤ bound ∧ follow ys) fun _ => True

theorem manyUntil_accepts {stop : Kind} {item : Production α} {P : List Kind → Prop}
    (hstop : isPlain stop) (hitem : ∀ xs, P xs → AcceptsWithin src item bound follow xs)
    (hbegins : ∀ xs, P xs → Begins (· != stop) xs) (hend : ∀ ys, follow (stop :: ys))
    (hnext : ∀ xs ys, P xs → follow (xs ++ ys)) (hxs : Repeated P xs) (rounds : Nat) :
    Accepts src (manyUntil stop item rounds) xs (fun ys => (xs ++ ys).length ≤ bound ∧
      ys.head? = some stop)
      fun _ => True := by
  induction rounds generalizing xs with
  | zero => exact .stalled
  | succ rounds ih =>
    rw [manyUntil]
    cases hxs with
    | none => exact .check hstop (b := true) (fun ys hys => by simpa using hys.2) (.pure trivial)
    | @more xs zs hxs hrest =>
      have hbegins' := (hbegins _ hxs).append zs
      refine .check hstop (b := false) (fun ys _ =>
        decide_eq_false (hbegins'.head?_ne (by simp) ys)) ?_
      have hfollow (ys : List Kind) (hys : ys.head? = some stop) : follow (zs ++ ys) := by
        cases hrest with
        | none =>
          obtain ⟨ws, rfl⟩ := List.head?_eq_some_iff.mp hys
          exact hend ws
        | more hws _ =>
          rw [List.append_assoc]
          exact hnext _ _ hws
      refine (hitem _ hxs).bind (fun ys hys => ⟨?_, hfollow ys hys.2⟩) fun a _ => ?_
      · rw [← List.append_assoc]
        exact hys.1
      refine ((ih hrest).of_follow fun ys hys => ⟨?_, hys.2⟩).andThen fun _ _ => .pure trivial
      have := hys.1
      simp only [List.length_append] at this ⊢
      omega

/-- What is accepted within every bound is accepted. -/
theorem Accepts.of_within {p : Production α} (h : ∀ bound, AcceptsWithin src p bound follow xs) :
    Accepts src p xs follow fun _ => True := fun _ _ _ hat hys => h _ hat ⟨le_rfl, hys⟩

theorem struct_accepts (rounds : Nat) (hxs : IsStruct xs) :
    Accepts src (struct rounds) xs (fun _ => True) fun _ => True := by
  refine Accepts.of_within fun bound => ?_
  obtain ⟨hxs⟩ := hxs
  have hitem (zs : List Kind) (hzs : IsDefinition zs) : AcceptsWithin src (definition rounds) bound
      (fun _ => True) zs :=
    (definition_accepts rounds hzs).always
  have hbegins (zs : List Kind) (hzs : IsDefinition zs) : Begins (· != .rightBrace) zs := by
    obtain ⟨k, ws, rfl, rfl | rfl⟩ := hzs.begins <;> exact ⟨_, _, rfl, rfl⟩
  refine Accepts.attempt (.expect rfl fun keyword => .expect rfl fun _ => ?_)
  refine (manyUntil_accepts rfl hitem hbegins (fun _ => trivial) (fun _ _ _ => trivial) hxs
    rounds).bind (fun ys hys => ⟨?_, rfl⟩) fun members _ => ?_
  · have := hys.1
    simp at this ⊢
    omega
  · exact .eat rfl fun close => allocList_accepts.after fun _ _ => alloc_accepts

variable {blockOf : Production NodeId}

theorem body_accepts (hblock : ∀ xs, IsStmt .block xs → AcceptsWithin src blockOf bound (fun _ =>
      True) xs)
    (hxs : IsStmt .block xs ∨ ∃ zs, Optional (Word .string) zs ∧
      xs = .foreignDirective :: zs ++ [.semicolon]) :
    AcceptsWithin src (body blockOf) bound (fun _ => True) xs := by
  rcases hxs with hxs | ⟨zs, hzs, rfl⟩
  · obtain ⟨zs, rfl⟩ : ∃ zs, xs = .leftBrace :: zs := by
      cases hxs
      exact ⟨_, rfl⟩
    refine .eatIf_no rfl (by simp) (.peek rfl fun _ =>
      (hblock _ hxs).andThen fun _ _ => ?_)
    exact spanOf_accepts.after fun _ _ => .pure trivial
  · refine .eatIf_yes rfl fun _ => (eatIf_accepts rfl hzs).bind
      (by simp) fun _ _ => ?_
    exact .expect rfl fun _ => .pure trivial

theorem function_accepts (hblock : ∀ xs, IsStmt .block xs →
      AcceptsWithin src blockOf bound (fun _ => True) xs)
    (hxs : IsStmt .func xs) :
    AcceptsWithin src (function blockOf rounds) bound (fun _ => True) xs := by
  obtain ⟨ps, rs, bs, rfl, hps, hrs, hbs⟩ : ∃ ps rs bs, xs = .kwFunc :: .leftParen :: ps ++
    .rightParen :: rs ++ bs ∧ IsParams ps ∧ Optional IsReturns rs ∧
      (IsStmt .block bs ∨ ∃ zs, Optional (Word .string) zs ∧ bs = .foreignDirective :: zs ++
      [.semicolon]) := by
    cases hxs with
    | body hps hrs hbs => exact ⟨_, _, _, rfl, hps, hrs, .inl hbs⟩
    | foreign hps hrs hzs => exact ⟨_, _, _, by simp, hps, hrs, .inr ⟨_, hzs, rfl⟩⟩
  have hbegins : Begins startsBody bs := by
    rcases hbs with hbs | ⟨zs, -, rfl⟩
    · cases hbs
      exact ⟨_, _, rfl, rfl⟩
    · exact ⟨_, _, rfl, rfl⟩
  have hreassoc : .kwFunc :: .leftParen :: ps ++ .rightParen :: rs ++ bs =
      .kwFunc :: .leftParen :: ((ps ++ [.rightParen]) ++ (rs ++ bs)) := by simp
  rw [hreassoc]
  refine Accepts.attempt (.expect rfl fun keyword => .expect rfl fun _ => ?_)
  refine (params_accepts rounds hps).bind (fun _ _ => trivial) ?_
  rintro ⟨params, variadic⟩ -
  refine (returns_accepts rounds hrs).bind (fun ys _ => hbegins.append ys) fun returns _ => ?_
  refine ((body_accepts hblock hbs).of_follow fun ys hys => ⟨?_, trivial⟩).andThen fun body _ => ?_
  · have := hys.1
    simp only [List.length_cons, List.length_append] at this ⊢
    omega
  · refine allocList_accepts.after fun _ _ => allocList_accepts.after fun _ _ =>
      alloc_accepts.after fun _ _ => ?_
    exact update_accepts.after fun _ _ => .pure trivial

theorem IsStruct.begins (h : IsStruct xs) : Begins (· == .kwStruct) xs := by
  cases h
  exact ⟨_, _, rfl, rfl⟩

theorem IsStmt.func_begins (h : IsStmt .func xs) : Begins (· == .kwFunc) xs := by
  cases h <;> exact ⟨_, _, rfl, rfl⟩

/-- Phrases with the same tokens to come begin alike. -/
theorem Begins.agree {starts starts' : Kind → Bool} {xs xs' ys ys' : List Kind}
    (h : Begins starts xs) (h' : Begins starts' xs') (heq : xs ++ ys = xs' ++ ys') :
    ∃ k, starts k ∧ starts' k := by
  obtain ⟨k, zs, rfl, hk⟩ := h
  obtain ⟨k', zs', rfl, hk'⟩ := h'
  obtain ⟨rfl, -⟩ := List.cons.inj heq
  exact ⟨k, hk, hk'⟩

/-- The value of a declaration is read by the production that it is for. -/
theorem value_accepts (hreads : Reads src blockOf bound fun p id q xs _ =>
      New p q id ∧ IsStmt .block xs)
    (hblock : ∀ xs, IsStmt .block xs → AcceptsWithin src blockOf bound (fun _ => True) xs)
    (hrounds : bound ≤ rounds) (hlen : ∀ ys, follow ys → (xs ++ ys).length ≤ bound)
    (hxs : (IsStruct xs ∨ IsStmt .func xs) ∨ IsExpr .expr xs ∧ ∀ ys, follow ys → EndsExpr ys) :
    Accepts src (firstOf [struct rounds, function blockOf rounds, expression rounds]) xs follow
    fun _ => True := by
  have hstruct := (@struct_reads src rounds).of_le hrounds
  rcases hxs with (hxs | hxs) | ⟨hxs, hends⟩
  · exact .firstOf (struct_accepts rounds hxs).always
  · refine .firstOf_next (hstruct.refuses hlen ?_) fun _ => .orElse ?_
    · rintro _ _ _ ys xs' ys' - hks ⟨-, -, hxs'⟩
      obtain ⟨k, hk, hk'⟩ := hxs.func_begins.agree hxs'.begins hks
      simp_all
    · exact (function_accepts hblock hxs).of_follow fun ys hys => ⟨hlen ys hys, trivial⟩
  · have hbegins := hxs.begins rfl
    refine .firstOf_next (hstruct.refuses hlen ?_) fun _ => ?_
    · rintro _ _ _ ys xs' ys' - hks ⟨-, -, hxs'⟩
      obtain ⟨k, hk, hk'⟩ := hbegins.agree hxs'.begins hks
      simp_all [startsExpr]
    refine .orElse_next ((function_reads hreads hrounds).refuses hlen ?_) fun _ => .orElse ?_
    · rintro _ _ _ ys xs' ys' - hks ⟨-, -, hxs'⟩
      obtain ⟨k, hk, hk'⟩ := hbegins.agree hxs'.func_begins hks
      simp_all [startsExpr]
    · exact (expression_accepts rounds xs hxs).of_follow hends

theorem IsStruct.not_expr (h : IsStruct xs) : ¬ IsExpr .expr xs := by
  intro hexpr
  obtain ⟨k, hk, hk'⟩ := @Begins.agree _ _ xs xs [] [] h.begins (hexpr.begins rfl) rfl
  simp_all [startsExpr]

theorem IsStmt.func_not_expr (h : IsStmt .func xs) : ¬ IsExpr .expr xs := by
  intro hexpr
  obtain ⟨k, hk, hk'⟩ := @Begins.agree _ _ xs xs [] [] h.func_begins (hexpr.begins rfl) rfl
  simp_all [startsExpr]

theorem declaration_accepts (hreads : Reads src blockOf bound fun p id q xs _ =>
      New p q id ∧ IsStmt .block xs)
    (hblock : ∀ xs, IsStmt .block xs → AcceptsWithin src blockOf bound (fun _ => True) xs)
    (hrounds : bound ≤ rounds) (hxs : IsStmt .declaration xs) :
    AcceptsWithin src (declaration blockOf rounds) bound (fun _ => True) xs := by
  obtain ⟨vs, ws, rfl, hvs⟩ : ∃ vs ws, xs = .identifier :: .colonColon :: (vs ++ ws) ∧
      ((IsStruct vs ∨ IsStmt .func vs) ∧ ws = [] ∨ IsExpr .expr vs ∧ ws = [.semicolon]) := by
    cases hxs with
    | struct hvs => exact ⟨_, [], by simp, .inl ⟨.inl hvs, rfl⟩⟩
    | function hvs => exact ⟨_, [], by simp, .inl ⟨.inr hvs, rfl⟩⟩
    | const hvs => exact ⟨_, _, rfl, .inr ⟨hvs, rfl⟩⟩
  refine Accepts.attempt (.expect rfl fun name => .expect rfl fun _ => ?_)
  intro st ys pool h hys
  have hlen : (vs ++ (ws ++ ys)).length ≤ bound := by
    have := hys.1
    simp at this ⊢
    omega
  have hvalue : Accepts src (firstOf [struct rounds, function blockOf rounds,
    expression rounds]) vs (· = ws ++ ys)
      fun _ => True := by
    refine value_accepts hreads hblock hrounds (fun _ he => he ▸ hlen) ?_
    rcases hvs with ⟨hvs, -⟩ | ⟨hvs, rfl⟩
    · exact .inl hvs
    · exact .inr ⟨hvs, fun _ he => he ▸ endsExpr_cons (by decide) rfl⟩
  rw [List.append_assoc] at h
  refine (hvalue.sat (value_reads hreads hrounds).reads h rfl hlen).andThen ?_
  rintro value st₁ ⟨q, h₁, -, hnew, hkind⟩
  refine (sat_node h₁ hnew.2).andThen ?_
  rintro n st₂ ⟨hn, h₂⟩
  rcases hvs with ⟨hvs, rfl⟩ | ⟨hvs, rfl⟩
  · obtain ⟨m, hm, hname⟩ : Named q value := by
      rcases hkind with ⟨hnamed, -⟩ | ⟨-, hexpr⟩
      · exact hnamed
      · exact (hvs.elim (fun h => h.not_expr hexpr) fun h => h.func_not_expr hexpr).elim
    obtain rfl : n = m := by simpa [hn] using hm
    obtain ⟨kind, hkind⟩ := Option.isSome_iff_exists.mp (hname name.span)
    rw [hkind]
    exact Accepts.sat_nil (update_accepts.after fun _ _ => .pure trivial) h₂
  · obtain ⟨m, hm, hname⟩ : Unnamed q value := by
      rcases hkind with ⟨-, hvs'⟩ | ⟨hunnamed, -⟩
      · exact (hvs'.elim (fun h => h.not_expr hvs) fun h => h.func_not_expr hvs).elim
      · exact hunnamed
    obtain rfl : n = m := by simpa [hn] using hm
    rw [hname]
    exact (.expect rfl fun _ => alloc_accepts : Accepts src _ [.semicolon] (fun _ =>
      True) fun _ => True) h₂ trivial

end MicroCompiler.Grammar
