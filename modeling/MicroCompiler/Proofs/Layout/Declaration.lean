import MicroCompiler.Proofs.Grammar.Growth.Declaration
import MicroCompiler.Proofs.Layout.Expression

/-! Definitions and declarations of two layouts. -/

namespace MicroCompiler.Grammar

open Ast (NodeId Pool Slot)
open Production

variable {src src' : Source} {st st' : State} {t t' : Token} {names names' : List Token}

section

variable (hrelaid : Relaid src src')
include hrelaid

/-! ### Definitions -/

theorem names_parallel (rounds : Nat) :
    Parallel src src' (fun names names' => List.Forall₂ (Twins src src') names names' ∧ names ≠ [])
      (commaSeparated expectIdentifier rounds) (commaSeparated expectIdentifier rounds) :=
  commaSeparated_parallel hrelaid (expectAs_parallel hrelaid _ _) rounds

theorem optionalType_parallel (rounds : Nat) :
    Parallel src src' Eq (optionalType rounds) (optionalType rounds) := by
  refine (atType_parallel hrelaid).andThen fun begins => ?_
  split_ifs
  · refine (typeExpr_parallel hrelaid rounds).andThen fun type => ?_
    exact .pure rfl
  · exact .pure rfl

theorem definitionBody_parallel (rounds : Nat) :
    Parallel src src' Eq (definitionBody rounds) (definitionBody rounds) := by
  have hexprs := expressions_parallel hrelaid (expression_parallel hrelaid rounds) rounds
  refine (eatIf_parallel hrelaid _).bind ?_
  rintro _ _ (_ | _)
  · refine hexprs.andThen fun inits => ?_
    exact .pure rfl
  · refine peek_parallel.bind fun colon colon' hcolon => ?_
    rw [hcolon.kind hrelaid]
    split_ifs
    · exact unexpected_parallel hrelaid hcolon _ _
    · refine (eat_parallel hrelaid).bind fun _ _ _ => (optionalType_parallel hrelaid rounds).andThen
        fun type => ?_
      have hinits : Parallel src src' Eq (initializers rounds) (initializers rounds) := by
        refine (eatIf_parallel hrelaid _).bind ?_
        rintro _ _ (_ | _)
        · exact hexprs
        · exact .pure rfl
      refine hinits.andThen fun inits => ?_
      split_ifs
      · exact peek_parallel.bind fun _ _ hfound => unexpected_parallel hrelaid hfound _ _
      · exact .pure rfl

/-- The diagnostic on the number of initializers is about all of them, and the first one covers
something. -/
theorem checkCount_alike (hnames : List.Forall₂ (Twins src src') names names') {inits : List NodeId}
    (hst : Paired src src' st st')
    (hinits : ∀ id ∈ inits, ∃ n, st.pool.nodes[id.index]? = some n ∧ n.span.start < n.span.stop) :
    (checkCount names inits src st).Alike src src' Eq (checkCount names' inits src' st') := by
  cases inits with
  | nil => exact .ok rfl hst
  | cons first rest =>
    simp only [checkCount, ← hnames.length_eq]
    split_ifs
    · exact .ok rfl hst
    · refine (spanOf_parallel first hst).bind fun head head' s s' hrun hhead hs => ?_
      have hpos : head.start < head.stop := by
        obtain ⟨n, hn, hpos⟩ := hinits first (by simp)
        have hspan : spanOf first src st = .ok n.span st := by
          simp only [spanOf, node, Bind.bind, Production.bind, Pool.get_eq hn]
          rfl
        obtain ⟨rfl, -⟩ := Outcome.ok.inj (hspan.symm.trans hrun)
        exact hpos
      refine (spanOf_parallel (rest.getLastD first) hs).bind fun last last' s₁ s₁' _ hlast hs₁ => ?_
      refine .failed ⟨rfl, rfl, (hhead.merge hrelaid hlast).coverSame hrelaid ?_⟩ hs₁
      simp only [Span.merge]
      omega

omit hrelaid in
theorem variableStop_parallel (ht : Twins src src' t t') (type initializer : Slot) :
    Parallel src src' (SameStop src src') (variableStop t type initializer)
    (variableStop t' type initializer) := by
  cases initializer with
  | some id => exact (spanOf_parallel id).bind fun _ _ hspan => .pure hspan.2
  | none =>
    cases type with
    | some id => exact (spanOf_parallel id).bind fun _ _ hspan => .pure hspan.2
    | none => exact .pure ht.stops

theorem allocVariables_parallel (type : Slot) (hnames : List.Forall₂ (Twins src src') names names')
    (inits : List NodeId) :
    Parallel src src' Eq (allocVariables type names inits) (allocVariables type names' inits) := by
  induction hnames generalizing inits with
  | nil => exact .pure rfl
  | cons hname _ ih =>
    refine (variableStop_parallel hname type _).bind fun stop stop' hstop => ?_
    refine Parallel.andThen (alloc_parallel (.var type _ (hname.text hrelaid)) ⟨hname.starts,
      hstop⟩) fun var => ?_
    refine (ih inits.tail).andThen fun vars => ?_
    exact .pure rfl

theorem definition_parallel (rounds : Nat) :
    Parallel src src' Eq (definition rounds) (definition rounds) := by
  refine .attempt ((eatIf_parallel hrelaid _).bind fun keyword keyword' hkeyword => ?_)
  refine (names_parallel hrelaid rounds).bind ?_
  rintro names names' ⟨hnames, hne⟩
  have hstart : SameStart src src' (((keyword <|> names.head?).map (·.span.start)).getD 0)
      (((keyword' <|> names'.head?).map (·.span.start)).getD 0) := by
    cases hkeyword with
    | some ht => exact ht.starts
    | none =>
      cases hnames with
      | nil => exact absurd rfl hne
      | cons hname _ => exact hname.starts
  intro st st' hst
  refine (definitionBody_parallel hrelaid rounds hst).bind ?_
  rintro ⟨type, inits⟩ _ s s' hrun rfl hs
  -- What the first run has read shows that the initializers cover something.
  have hinits : ∀ id ∈ inits, ∃ n, s.pool.nodes[id.index]? = some n ∧
      n.span.start < n.span.stop := by
    have hstands : Stands src st (st.cursor.peek src).1 st.pool := ⟨hst.sound, rfl, rfl⟩
    obtain ⟨t, q, hq, hgrove, -⟩ := definitionBody_grows rounds hstands _ _ hrun
    intro id hid
    obtain ⟨n, hn, -, hpos, -⟩ := hgrove.row.lies (List.mem_append_right _ hid)
    exact ⟨n, by rwa [hq.pool], hpos⟩
  refine (checkCount_alike hrelaid hnames hs hinits).bind fun _ _ s₁ s₁' _ _ hs₁ => ?_
  refine (expect_parallel hrelaid _ hs₁).bind fun semi semi' s₂ s₂' _ hsemi hs₂ => ?_
  refine (allocVariables_parallel hrelaid type hnames inits hs₂).bind ?_
  rintro vars _ s₃ s₃' - rfl hs₃
  refine (allocList_parallel vars hs₃).bind ?_
  rintro range _ s₄ s₄' - rfl hs₄
  refine alloc_parallel (.plain rfl) ?_ hs₄
  exact ⟨hstart, hsemi.stops⟩

/-! ### Functions -/

theorem paramGroup_parallel (rounds : Nat) :
    Parallel src src' Eq (paramGroup rounds) (paramGroup rounds) := by
  refine (names_parallel hrelaid rounds).bind fun names names' hnames => ?_
  refine (expect_parallel hrelaid _).bind fun _ _ _ => (typeExpr_parallel hrelaid rounds).andThen
    fun type => ?_
  exact allocVariables_parallel hrelaid type hnames.1 []

theorem paramsTail_parallel (rounds groups : Nat) :
    Parallel src src' Eq (paramsTail rounds groups) (paramsTail rounds groups) := by
  induction groups with
  | zero => exact .stalled
  | succ groups ih =>
    refine (eatIf_parallel hrelaid _).bind ?_
    rintro _ _ (hdots | _)
    · refine (eatIf_parallel hrelaid _).bind ?_
      rintro _ _ (_ | _)
      · exact .pure rfl
      · exact .fail ⟨rfl, rfl, hdots.coverSame⟩
    · refine (paramGroup_parallel hrelaid rounds).andThen fun group => ?_
      refine (eatIf_parallel hrelaid _).bind ?_
      rintro _ _ (_ | _)
      · refine ih.andThen ?_
        rintro ⟨rest, variadic⟩
        exact .pure rfl
      · exact (expect_parallel hrelaid _).bind fun _ _ _ => .pure rfl

theorem params_parallel (rounds : Nat) : Parallel src src' Eq (params rounds) (params rounds) := by
  refine (eatIf_parallel hrelaid _).bind ?_
  rintro _ _ (_ | _)
  · exact .pure rfl
  · exact paramsTail_parallel hrelaid rounds rounds

theorem returns_parallel (rounds : Nat) :
    Parallel src src' Eq (returns rounds) (returns rounds) := by
  have htype := typeExpr_parallel hrelaid rounds
  refine (eatIf_parallel hrelaid _).bind ?_
  rintro _ _ (_ | _)
  · refine (eatIf_parallel hrelaid _).bind ?_
    rintro _ _ (_ | _)
    · exact .pure rfl
    · refine (commaSeparated_same hrelaid htype rounds).andThen fun types => ?_
      exact (expect_parallel hrelaid _).bind fun _ _ _ => .pure rfl
  · refine (atType_parallel hrelaid).andThen fun begins => ?_
    split_ifs
    · refine htype.andThen fun type => ?_
      exact .pure rfl
    · exact .pure rfl

/-- The bodies differ in where they stand alone. -/
structure Body.Alike (src src' : Source) (b b' : Body) : Prop where
  block : b.block = b'.block
  library : Option.Rel (fun s s' => src.text s = src'.text s') b.library b'.library
  foreign : b.foreign = b'.foreign
  stop : SameStop src src' b.stop b'.stop

variable {block block' : Production NodeId}

theorem body_parallel (hblock : Parallel src src' Eq block block') :
    Parallel src src' (Body.Alike src src') (body block) (body block') := by
  refine (eatIf_parallel hrelaid _).bind ?_
  rintro _ _ (_ | _)
  · refine (eatString_parallel hrelaid).bind ?_
    rintro library library' ⟨hlibrary, hstring⟩
    refine (expect_parallel hrelaid _).bind fun _ _ hsemi => .pure ⟨rfl, ?_, rfl, hsemi.stops⟩
    cases hlibrary with
    | some ht => exact .some (ht.unquoted hrelaid (hstring _ rfl))
    | none => exact .none
  · refine peek_parallel.bind fun t t' ht => ?_
    rw [ht.kind hrelaid]
    split_ifs
    · exact unexpected_parallel hrelaid ht _ _
    · refine hblock.andThen fun id => ?_
      exact (spanOf_parallel id).bind fun _ _ hspan => .pure ⟨rfl, .none, rfl, hspan.2⟩

theorem function_parallel (hblock : Parallel src src' Eq block block') (rounds : Nat) :
    Parallel src src' Eq (function block rounds) (function block' rounds) := by
  refine .attempt ((expect_parallel hrelaid _).bind fun keyword keyword' hkeyword => ?_)
  refine (expect_parallel hrelaid _).bind fun _ _ _ => (params_parallel hrelaid rounds).andThen ?_
  rintro ⟨params, variadic⟩
  refine (returns_parallel hrelaid rounds).andThen fun returns => ?_
  refine (body_parallel hrelaid hblock).bind fun body body' hbody => ?_
  refine (allocList_parallel params).andThen fun params => ?_
  refine (allocList_parallel returns).andThen fun returns => ?_
  rw [← hbody.block, ← hbody.foreign]
  refine Parallel.andThen (alloc_parallel (.function params returns body.block .none hbody.library)
    ⟨hkeyword.starts, hbody.stop⟩) fun id => ?_
  refine (update_parallel id fun n n' hn => ?_).bind fun _ _ _ => .pure rfl
  exact ⟨⟨hn.kind, rfl, hn.serial⟩, hn.span⟩

/-! ### Declarations -/

theorem struct_parallel (rounds : Nat) : Parallel src src' Eq (struct rounds) (struct rounds) := by
  refine .attempt ((expect_parallel hrelaid _).bind fun keyword keyword' hkeyword => ?_)
  refine (expect_parallel hrelaid _).bind fun _ _ _ => ?_
  refine (manyUntil_parallel hrelaid (definition_parallel hrelaid rounds) _ rounds).andThen
    fun members => ?_
  refine (eat_parallel hrelaid).bind fun close close' hclose =>
    (allocList_parallel members).andThen fun range => ?_
  exact alloc_parallel (.plain rfl) ⟨hkeyword.starts, hclose.stops⟩

theorem declaration_parallel (hblock : Parallel src src' Eq block block') (rounds : Nat) :
    Parallel src src' Eq (declaration block rounds) (declaration block' rounds) := by
  refine .attempt ((expectAs_parallel hrelaid _ _).bind fun name name' hname => ?_)
  refine (expect_parallel hrelaid _).bind fun _ _ _ => ?_
  refine Parallel.andThen (Parallel.firstOf hrelaid (struct_parallel hrelaid rounds)
    (.cons (function_parallel hrelaid hblock rounds) (.cons (expression_parallel hrelaid rounds)
    .nil))) fun value => ?_
  refine (node_parallel value).bind fun n n' hn => ?_
  have hnamed := hn.kind.named? (hname.text hrelaid)
  generalize n.kind.named? name.span = named at hnamed
  generalize n'.kind.named? name'.span = named' at hnamed
  cases hnamed with
  | some hkind =>
    refine (update_parallel value fun m m' hm => ?_).bind fun _ _ _ => .pure rfl
    exact ⟨⟨hkind, hm.flags, hm.serial⟩, hname.starts, hm.span.2⟩
  | none =>
    refine (expect_parallel hrelaid _).bind fun semi semi' hsemi => ?_
    exact alloc_parallel (.const _ (hname.text hrelaid)) ⟨hname.starts, hsemi.stops⟩

end

end MicroCompiler.Grammar
