import MicroCompiler.Proofs.Grammar.Growth.Expression

/-! The nodes that definitions and declarations leave behind. The variables of a group of names
share one type node, which waits for them and is placed once they stand in the list of their
definition or function. -/

namespace MicroCompiler.Grammar

open Ast (Forest Group Grove Lies NodeId NodeKind Pool Row Sited Slot Surrounds)
open Production

variable {src : Source} {st : State} {t : Token} {pool base q : Pool}
  {ids roots inits : List NodeId} {lo mid mid' hi : Nat}

/-! ### Names and types -/

/-- The tokens are well-formed and lie between two offsets. -/
def Spelled (src : Source) (names : List Token) (lo hi : Nat) : Prop :=
  ∀ u ∈ names, u.Solid src ∧ lo ≤ u.span.start ∧ u.span.stop ≤ hi

theorem Spelled.weaken {names : List Token} {lo' hi' : Nat} (h : Spelled src names lo hi)
    (hlo : lo' ≤ lo) (hhi : hi ≤ hi') :
    Spelled src names lo' hi' := by
  intro u hu
  obtain ⟨hsolid, hstart, hstop⟩ := h u hu
  exact ⟨hsolid, hlo.trans hstart, hstop.trans hhi⟩

theorem nameTail_grows (rounds : Nat) : EnsuresAt src t pool (commaTail expectIdentifier rounds)
    fun names st' => ∃ t', Stands src st' t' pool ∧ Spelled src names t.span.start t'.span.start ∧
      t.span.start ≤ t'.span.start := by
  induction rounds generalizing t with
  | zero => exact .stalled
  | succ rounds ih =>
    refine .eatIf (fun t₁ _ hpast => .expectAs rfl fun t₂ _ hname hpast' st hst => ?_)
      (.pure fun _ hst => ⟨t, hst, by simp [Spelled], le_rfl⟩)
    refine (ih hst).bind ?_
    rintro names st' ⟨t₃, hst', hnames, hend⟩
    refine ensures_pure ⟨t₃, hst', List.forall_mem_cons.mpr ⟨⟨hname, by omega, by omega⟩,
      ?_⟩, by omega⟩
    exact hnames.weaken (by omega) le_rfl

theorem names_grow (rounds : Nat) : EnsuresAt src t pool (commaSeparated expectIdentifier rounds)
    fun names st' => ∃ t', Stands src st' t' pool ∧ Spelled src names t.span.start t'.span.start ∧
      names.head? = some t := by
  refine .expectAs rfl fun t₁ _ hname hpast st hst => (nameTail_grows rounds hst).bind ?_
  rintro names st' ⟨t₂, hst', hnames, hend⟩
  refine ensures_pure ⟨t₂, hst', List.forall_mem_cons.mpr ⟨⟨hname, le_rfl, by omega⟩, ?_⟩, rfl⟩
  exact hnames.weaken (by omega) le_rfl

theorem ensures_atType : EnsuresAt src t pool atType fun _ st' => Stands src st' t pool :=
  .peek (.pure fun _ hst => hst)

theorem optionalType_grows (rounds : Nat) :
    EnsuresAt src t pool (optionalType rounds) fun type st' =>
    ∃ t' q, Stands src st' t' q ∧ Grove src pool q type.toList t.span.start t'.span.start ∧
      ∀ id ∈ type, ∃ n, q.nodes[id.index]? = some n ∧ n.kind.isType = true := by
  refine fun st hst => (ensures_atType hst).bind fun found st₁ hst₁ => ?_
  split
  · refine (typeExpr_grows rounds hst₁).bind ?_
    rintro type st₂ ⟨t₂, q, hst₂, hgrove, hn⟩
    refine ensures_pure ⟨t₂, q, hst₂, hgrove, ?_⟩
    rintro id ⟨⟩
    exact hn
  · exact ensures_pure ⟨t, pool, hst₁, .nil src pool le_rfl, by simp⟩

theorem initializers_yields (rounds : Nat) : Yields src (initializers rounds) fun ids => ids := by
  refine fun t pool => .eatIf (fun t₁ _ hpast => ?_) (.grown (.nil src pool le_rfl))
  exact .mono (@expressions_yields _ _ (expression_yields rounds) rounds t₁ pool)
    fun _ _ hgrown => hgrown.weaken (by omega)

theorem definitionBody_grows (rounds : Nat) : EnsuresAt src t pool (definitionBody rounds)
    fun (type, inits) st' => ∃ t' q, Stands src st' t' q ∧
      Grove src pool q (type.toList ++ inits) t.span.start t'.span.start ∧
      ∀ id ∈ type, ∃ n, q.nodes[id.index]? = some n ∧ n.kind.isType = true := by
  refine .eatIf (fun t₁ _ hpast => ?_) (.peek ?_)
  · refine (expressions_yields (expression_yields rounds) rounds).first fun inits t₂ q hgrove => ?_
    exact .pure fun _ hst => ⟨t₂, q, hst, hgrove.weaken (by omega) le_rfl, by simp⟩
  · split
    · exact .unexpected
    · refine .eatAny fun t₁ hpast st hst => (optionalType_grows rounds hst).bind ?_
      rintro type st₁ ⟨t₂, q, hst₁, hgrove, htype⟩
      refine (initializers_yields rounds).bind hgrove (fun inits t₃ r hgrove' hgrown => ?_) hst₁
      split
      · exact .peek .unexpected
      · refine .pure fun _ hst => ⟨t₃, r, hst, hgrove'.weaken (by omega) le_rfl,
          fun id hid => ?_⟩
        obtain ⟨n, hn, hkind⟩ := htype id hid
        exact ⟨n, hgrown.node hn, hkind⟩

theorem ensures_checkCount {names : List Token} : EnsuresAt src t pool (checkCount names inits)
    fun _ st' => Stands src st' t pool ∧ (inits = [] ∨ inits.length = names.length) := by
  cases inits with
  | nil => exact .pure fun _ hst => ⟨hst, .inl rfl⟩
  | cons first rest =>
    unfold checkCount
    split_ifs with hcount
    · exact .pure fun _ hst => ⟨hst, .inr hcount⟩
    · exact .spanOf fun _ _ => .spanOf fun _ _ => .fail

/-! ### Variables -/

/-- Where a variable stops: its last part, if it has one behind its name. -/
theorem ensures_variableStop {name : Token} {type init : Slot} :
    EnsuresAt src t q (variableStop name type init) fun stop st' => Stands src st' t q ∧
      ((∃ id n, (init = some id ∨ init = none ∧ type = some id) ∧ q.nodes[id.index]? = some n ∧
          n.span.stop = stop) ∨
        (init = none ∧ type = none ∧ stop = name.span.stop)) := by
  cases init with
  | some id =>
    exact .spanOf fun n hn => .pure fun _ hst => ⟨hst, .inl ⟨id, n, .inl rfl, hn, rfl⟩⟩
  | none =>
    cases type with
    | some id =>
      exact .spanOf fun n hn => .pure fun _ hst => ⟨hst, .inl ⟨id, n, .inr ⟨rfl, rfl⟩, hn, rfl⟩⟩
    | none => exact .pure fun _ hst => ⟨hst, .inr ⟨rfl, rfl, rfl⟩⟩

/-- The type, if there is one, waits for more variables. -/
def awaiting (type : Slot) (vars : List NodeId) : List Group := type.toList.map fun id => ⟨id, vars⟩

/-- One variable: its type stands behind its name, and its initializer behind both. -/
theorem var_grows {type init : Slot} {name : Token} {vars rest : List NodeId} {stop : Nat}
    (hforest : Forest src base q roots (awaiting type vars))
    (hroots : roots.Perm (init.toList ++ rest)) (hname : name.Solid src)
    (hmid : name.span.stop ≤ mid) (htype : ∀ id ∈ type, Lies q id mid mid')
    (hinit : ∀ id ∈ init, Lies q id mid' hi) (hmid' : mid ≤ mid') (hhi : mid' ≤ hi)
    (hstop : (∃ id n, (init = some id ∨ init = none ∧ type = some id) ∧
      q.nodes[id.index]? = some n ∧
        n.span.stop = stop) ∨
      (init = none ∧ type = none ∧ stop = name.span.stop)) :
    Forest src base (q.build [] (.var name.span type init) ⟨name.span.start, stop⟩)
    (⟨q.size⟩ :: rest)
        (awaiting type (vars ++ [⟨q.size⟩])) ∧ name.span.start < stop ∧ stop ≤ hi := by
  have hpos := hname.nonempty
  have hnew : ∀ id, id ∈ init ∨ id ∈ type → base.size ≤ id.index := by
    rintro id (hid | hid)
    · exact (hforest.root id (hroots.mem_iff.mpr (by simp [Option.mem_def.mp hid]))).1
    · exact (hforest.type_of_group (g := ⟨id, vars⟩) (by simp [awaiting, Option.mem_def.mp hid])).1
  -- The variable ends at the end of a token, since its last part does.
  have hends : src.Edge stop ∧ stop ≤ src.size ∧ name.span.stop ≤ stop ∧ stop ≤ hi := by
    rcases hstop with ⟨id, n, hlast, hn, rfl⟩ | ⟨-, -, rfl⟩
    · have hsited := (hforest.settled _ n (hnew id (by rcases hlast with rfl | ⟨-, rfl⟩ <;> simp))
        hn).sited
      have hlies : Lies q id mid hi := by
        rcases hlast with rfl | ⟨-, rfl⟩
        · exact (hinit id rfl).weaken hmid' le_rfl
        · exact (htype id rfl).weaken le_rfl hhi
      have hspan := hlies.span hn
      exact ⟨hsited.stops, hsited.fits, by omega, hspan.2.2⟩
    · exact ⟨hname.stops, hname.fits, le_rfl, by omega⟩
  have hsited : Sited src (.var name.span type init) ⟨name.span.start, stop⟩ := by
    refine ⟨by simp only; omega, hends.2.1, hname.starts, hends.1, ?_⟩
    simp only [NodeKind.spans, List.mem_singleton, forall_eq, Span.Within]
    omega
  have hinside : ∀ id ∈ type.toList ++ init.toList, ∀ m, q.nodes[id.index]? = some m →
      m.span.Inside ⟨name.span.start, stop⟩ := by
    intro id hid m hm
    have hcovered : mid ≤ m.span.start ∧ m.span.start < m.span.stop ∧ m.span.stop ≤ stop := by
      rcases List.mem_append.mp hid with hid | hid
      · obtain rfl := Option.mem_toList.mp hid
        have hspan := (htype id rfl).span hm
        rcases hstop with ⟨last, n, rfl | ⟨-, hlast⟩, hn, rfl⟩ | ⟨-, hnone, -⟩
        · have hspan' := (hinit last rfl).span hn
          omega
        · obtain rfl : id = last := Option.some.inj hlast
          obtain rfl : m = n := Option.some.inj (hm.symm.trans hn)
          omega
        · cases hnone
      · obtain rfl := Option.mem_toList.mp hid
        have hspan := (hinit id rfl).span hm
        rcases hstop with ⟨last, n, hlast | ⟨hnone, -⟩, hn, rfl⟩ | ⟨hnone, -, -⟩
        · obtain rfl : id = last := Option.some.inj hlast
          obtain rfl : m = n := Option.some.inj (hm.symm.trans hn)
          omega
        · cases hnone
        · cases hnone
    unfold Span.Inside Span.Within
    simp only
    omega
  refine ⟨?_, by omega, hends.2.2.2⟩
  cases type with
  | none =>
    have hslots : (NodeKind.var name.span none init).slots.reduceOption = init.toList := by
      cases init <;> rfl
    exact hforest.build (by simpa using hroots) hslots rfl (by simp) (by simp) hsited
      (by simpa using hinside)
  | some ty => exact hforest.declare hroots hsited (by simpa using hinside)

/-- After the first name, there is an initializer for each of the others, or for none. -/
theorem initializers_tail {inits : List NodeId} {name : Token} {names : List Token}
    (h : inits = [] ∨ inits.length = (name :: names).length) :
    inits.tail = [] ∨ inits.tail.length = names.length := by
  rcases h with rfl | h
  · exact .inl rfl
  · exact .inr (by rw [List.length_tail, h, List.length_cons, Nat.add_sub_cancel])

/-- The variables of a group of names take the initializers in order, and all of them the type. -/
theorem allocVariables_grows {type : Slot} {names : List Token} {vars : List NodeId}
    (h : Stands src st t q) (hforest : Forest src base q (inits ++ roots) (awaiting type vars))
    (hnames : Spelled src names lo mid) (htype : ∀ id ∈ type, Lies q id mid mid')
    (hinits : ∀ id ∈ inits, Lies q id mid' hi) (hmid : mid ≤ mid')
    (hhi : mid' ≤ hi) (hcount : inits = [] ∨ inits.length = names.length) :
    (allocVariables type names inits).Ensures src st fun ids st' => ∃ q', Stands src st' t q' ∧
      q.Extends q' ∧ Forest src base q' (ids ++ roots) (awaiting type (vars ++ ids)) ∧
      (∀ id ∈ ids, Lies q' id lo hi) ∧ ids.length = names.length := by
  induction names generalizing st q inits roots vars with
  | nil =>
    obtain rfl : inits = [] := by
      rcases hcount with rfl | hcount
      · rfl
      · exact List.length_eq_zero_iff.mp hcount
    exact ensures_pure ⟨q, h, .refl q, by simpa using hforest, by simp, rfl⟩
  | cons name names ih =>
    obtain ⟨hname, hstart, hend⟩ := hnames name (by simp)
    refine (ensures_variableStop h).bind ?_
    rintro stop st₁ ⟨h₁, hstop⟩
    refine (ensures_alloc h₁).bind ?_
    rintro _ st₂ ⟨rfl, h₂⟩
    have hgrown := Ast.build_extends q [] (.var name.span type inits.head?) ⟨name.span.start, stop⟩
    have hroots : (inits ++ roots).Perm (inits.head?.toList ++ (inits.tail ++ roots)) := by
      cases inits <;> simp
    obtain ⟨hforest', hpos, hle⟩ := var_grows hforest hroots hname hend htype
      (fun id hid => hinits id (List.mem_of_mem_head? hid)) hmid hhi hstop
    refine (ih h₂ (hforest'.perm List.perm_middle.symm) (fun u hu => hnames u (by simp [hu]))
      (fun id hid => (htype id hid).grow hgrown)
      (fun id hid => (hinits id (List.mem_of_mem_tail hid)).grow hgrown)
      (initializers_tail hcount)).bind ?_
    rintro ids st₃ ⟨q', h₃, hgrown', hforest'', hlies, hlength⟩
    refine ensures_pure ⟨q', h₃, hgrown.trans hgrown', ?_, ?_, by simp [hlength]⟩
    · have hperm := hforest''.perm (List.perm_middle (a := (⟨q.size⟩ : NodeId)))
      rwa [List.append_assoc] at hperm
    · intro id hid
      rcases List.mem_cons.mp hid with rfl | hid
      · exact ((Ast.lies_build hpos).grow hgrown').weaken hstart hle
      · exact hlies id hid

/-- Variables in the first list of a new definition or function stand next to each other there. -/
theorem listed_build {lists : List (List NodeId)} {vars : List NodeId} {kind : NodeKind}
    {span : Span} (hranges : kind.ranges = (q.allocLists (ids :: lists)).1)
    (hvariables : kind.variables? = kind.ranges.head?)
    (hvars : vars <:+: ids) : (q.build (ids :: lists) kind span).Listed vars := by
  obtain ⟨n, hn, rfl, -⟩ := Ast.build_node q (ids :: lists) kind span
  have hrange : n.kind.variables? = some (q.allocList (ids.map some)).1 := by
    rw [hvariables, hranges]
    rfl
  have hmem := Ast.NodeKind.mem_ranges_of_variables? hrange
  have hentries : n.kind.ranges.map (q.build (ids :: lists) n.kind span).entries = _ :=
    Ast.build_entries hranges
  rw [hranges] at hmem hentries
  have hfirst : (q.build (ids :: lists) n.kind span).entries (q.allocList (ids.map some)).1 =
      ids.map some :=
    (List.cons.inj hentries).1
  refine ⟨_, n, _, hn, hrange, ((Ast.tiles_allocLists q (ids :: lists)).bounds.2 _ hmem).2, ?_⟩
  rw [hfirst]
  exact hvars.map some

/-- A type in front of its variables' initializers waits for the variables. -/
theorem awaits {type : Slot} (h : Forest src base q (type.toList ++ inits) [])
    (htype : ∀ id ∈ type, ∃ n, q.nodes[id.index]? = some n ∧ n.kind.isType = true) :
    Forest src base q inits (awaiting type []) := by
  cases type with
  | none => exact h
  | some id =>
    obtain ⟨n, hn, hkind⟩ := htype id rfl
    exact h.await hn hkind

theorem definition_yields (rounds : Nat) : Yields src (definition rounds) fun id => [id] := by
  refine fun t pool => .attempt fun st hst => ?_
  have hkeyword : (eatIf .kwVar).Ensures src st fun keyword st' => ∃ t', Stands src st' t' pool ∧
      ((keyword = some t ∧ t.Solid src ∧ t.span.stop ≤ t'.span.start) ∨
        (keyword = none ∧ t' = t)) := by
    refine (ensures_eatIf hst).mono ?_
    rintro keyword st₁ (⟨rfl, hkind, t₁, hpast, hst₁⟩ | ⟨rfl, hst₁⟩)
    · exact ⟨t₁, hst₁, .inl ⟨rfl, hst.solid_of hkind rfl, hpast⟩⟩
    · exact ⟨t, hst₁, .inr ⟨rfl, rfl⟩⟩
  refine hkeyword.bind ?_
  rintro keyword st₁ ⟨t₁, hst₁, hfirst⟩
  refine (names_grow rounds hst₁).bind ?_
  rintro names st₂ ⟨t₂, hst₂, hnames, hhead⟩
  refine (definitionBody_grows rounds hst₂).bind ?_
  rintro ⟨type, inits⟩ st₃ ⟨t₃, q, hst₃, hgrove, htype⟩
  refine (ensures_checkCount hst₃).bind ?_
  rintro _ st₄ ⟨hst₄, hcount⟩
  refine hst₄.ensures (.expectAs rfl fun t₄ _ hclose hpast st₅ hst₅ => ?_)
  obtain ⟨mid, hrow, hrow'⟩ := hgrove.row.split
  have hforest := awaits hgrove.forest htype
  rw [← List.append_nil inits] at hforest
  refine (allocVariables_grows hst₅ hforest hnames
    (fun id hid => hrow.lies (Option.mem_toList.mpr hid)) (fun id hid => hrow'.lies hid) hrow.le
    hrow'.le hcount).bind ?_
  rintro vars st₆ ⟨r, hst₆, -, hforest', hlies, hlength⟩
  refine EnsuresAt.allocList (fun st₇ hst₇ => ?_) hst₆
  -- The definition starts with the first token that it reads, be it a keyword or a name.
  have hstart : ((keyword <|> names.head?).map (·.span.start)).getD 0 = t.span.start := by
    rcases hfirst with ⟨rfl, -⟩ | ⟨rfl, rfl⟩
    · rfl
    · rw [hhead]
      rfl
  obtain ⟨hsolid, -, hle'⟩ := hnames t₁ (List.mem_of_mem_head? hhead)
  have htop : t.Solid src ∧ t.span.start ≤ t₁.span.start := by
    rcases hfirst with ⟨-, hkeyword, hpast'⟩ | ⟨-, rfl⟩
    · have := hst.le
      exact ⟨hkeyword, by omega⟩
    · exact ⟨hsolid, le_rfl⟩
  rw [List.append_nil, List.nil_append] at hforest'
  simp only [hstart]
  refine (ensures_alloc hst₇).mono ?_
  rintro _ st₈ ⟨rfl, hst₈⟩
  have hspan : t.span.start < t₃.span.stop := by
    have := hsolid.nonempty
    have := hgrove.row.le
    omega
  have hnode : Forest src pool
      (r.build [vars] (.definition (r.allocList (vars.map some)).1) ⟨t.span.start, t₃.span.stop⟩)
      [⟨r.size⟩] (awaiting type vars) :=
    hforest'.node rfl (by simp) ⟨hspan, hclose.fits, htop.1.starts, hclose.stops, by simp⟩ hlies
      ⟨htop.2, hpast.1.le, .inr hpast.1⟩
  have hplaced := hnode.place fun g hg => by
    obtain ⟨id, -, rfl⟩ := List.mem_map.mp hg
    refine ⟨fun hnone => ?_, listed_build rfl rfl (List.infix_refl vars)⟩
    obtain rfl : names = [] := List.length_eq_zero_iff.mp (hlength.symm.trans
      (congrArg List.length hnone))
    cases hhead
  exact ⟨t₄, _, hst₈, hplaced, (Row.singleton (Ast.lies_build hspan)).weaken le_rfl hpast.2⟩

/-! ### Functions -/

/-- Parameters: groups of variables behind each other, whose types wait. -/
def Parameters (src : Source) (p q : Pool) (ids : List NodeId) (lo hi : Nat) : Prop :=
  ∃ groups : List Group, Forest src p q ids groups ∧ groups.flatMap Group.vars = ids ∧
    (∀ g ∈ groups, g.vars ≠ []) ∧ ∀ id ∈ ids, Lies q id lo hi

theorem Parameters.nil (src : Source) (p : Pool) (lo hi : Nat) : Parameters src p p [] lo hi :=
  ⟨[], .nil src p, rfl, by simp, by simp⟩

theorem Parameters.weaken {lo' hi' : Nat} (h : Parameters src base q ids lo hi) (hlo : lo' ≤ lo)
    (hhi : hi ≤ hi') : Parameters src base q ids lo' hi' := by
  obtain ⟨groups, hforest, hvars, hne, hlies⟩ := h
  exact ⟨groups, hforest, hvars, hne, fun id hid => (hlies id hid).weaken hlo hhi⟩

theorem Parameters.append {r : Pool} {ids' : List NodeId} (h : Parameters src base q ids lo hi)
    (h' : Parameters src q r ids' lo hi) : Parameters src base r (ids ++ ids') lo hi := by
  obtain ⟨groups, hforest, hvars, hne, hlies⟩ := h
  obtain ⟨groups', hforest', hvars', hne', hlies'⟩ := h'
  refine ⟨groups ++ groups', hforest.append hforest', by rw [List.flatMap_append, hvars, hvars'],
    fun g hg => ?_, fun id hid => ?_⟩
  · rcases List.mem_append.mp hg with hg | hg
    · exact hne g hg
    · exact hne' g hg
  · rcases List.mem_append.mp hid with hid | hid
    · exact (hlies id hid).grow hforest'.grown
    · exact hlies' id hid

/-- Parameters have grown from `base` between `lo` and the token that is next. -/
def Declared (src : Source) (base : Pool) (lo : Nat) (ids : List NodeId) (st : State) : Prop :=
  ∃ t q, Stands src st t q ∧ Parameters src base q ids lo t.span.start ∧ lo ≤ t.span.start

theorem paramGroup_grows (rounds : Nat) :
    EnsuresAt src t pool (paramGroup rounds) (Declared src pool t.span.start) := by
  refine fun st hst => (names_grow rounds hst).bind ?_
  rintro names st₁ ⟨t₁, hst₁, hnames, hhead⟩
  refine hst₁.ensures (.expectAs rfl fun t₂ _ _ hpast st₂ hst₂ =>
    (typeExpr_grows rounds hst₂).bind ?_)
  rintro type st₃ ⟨t₃, q, hst₃, hgrove, n, hn, hkind⟩
  have hforest : Forest src pool q ([] ++ []) (awaiting (some type) []) :=
    hgrove.forest.await hn hkind
  have hrow := hgrove.row.le
  refine (allocVariables_grows hst₃ hforest hnames ?_ (by simp)
    (show t₁.span.start ≤ t₃.span.start by omega) le_rfl (.inl rfl)).mono ?_
  · rintro id ⟨⟩
    exact (hgrove.row.lies (by simp)).weaken (by omega) le_rfl
  · rintro ids st₄ ⟨r, hst₄, -, hforest', hlies, hlength⟩
    obtain ⟨hsolid, -, hle'⟩ := hnames t (List.mem_of_mem_head? hhead)
    have hpos := hsolid.nonempty
    refine ⟨t₃, r, hst₄, ⟨_, by simpa using hforest', by simp [awaiting], ?_, hlies⟩, by omega⟩
    intro g hg hnone
    obtain rfl : g = ⟨type, ids⟩ := by simpa [awaiting] using hg
    obtain rfl : names = [] :=
      List.length_eq_zero_iff.mp (hlength.symm.trans (congrArg List.length hnone))
    cases hhead

theorem paramsTail_grows (rounds groups : Nat) : EnsuresAt src t pool (paramsTail rounds groups)
    fun (ids, _) => Declared src pool t.span.start ids := by
  induction groups generalizing t pool with
  | zero => exact .stalled
  | succ groups ih =>
    refine .eatIf (fun t₁ _ hpast => .eatIf (fun t₂ _ hpast' => ?_) .fail) fun st hst => ?_
    · exact .pure fun _ hst => ⟨t₂, pool, hst, .nil src pool _ _, by omega⟩
    · refine (paramGroup_grows rounds hst).bind ?_
      rintro ids st₁ ⟨t₁, q, hst₁, hparams, hnext⟩
      refine hst₁.ensures (.eatIf (fun t₂ _ hpast st₂ hst₂ => (ih hst₂).bind ?_)
        (.expectAs rfl fun t₂ _ _ hpast => .pure fun _ hst₂ => ?_))
      · rintro ⟨rest, variadic⟩ st₃ ⟨t₃, r, hst₃, hparams', hnext'⟩
        refine ensures_pure ⟨t₃, r, hst₃, ?_, by omega⟩
        exact (hparams.weaken le_rfl (by omega)).append (hparams'.weaken (by omega) le_rfl)
      · exact ⟨t₂, q, hst₂, hparams.weaken le_rfl (by omega), by omega⟩

theorem params_grow (rounds : Nat) : EnsuresAt src t pool (params rounds)
    fun (ids, _) => Declared src pool t.span.start ids :=
  .eatIf (fun t₁ _ hpast => .pure fun _ hst => ⟨t₁, pool, hst, .nil src pool _ _, by omega⟩)
    (paramsTail_grows rounds rounds)

theorem returns_yields (rounds : Nat) : Yields src (returns rounds) fun ids => ids := by
  have htype : Yields src (typeExpr rounds) fun id => [id] := typeExpr_yields rounds
  refine fun t pool => .eatIf (fun t₁ _ hpast => .eatIf (fun t₂ _ hpast' => ?_) ?_) fun st hst => ?_
  · exact .grown (.nil src pool (by omega))
  · refine (commaSeparated_yields htype rounds).first fun types t₃ q hgrove => ?_
    exact .expectAs rfl fun t₄ _ _ hpast' => .grown (hgrove.weaken (by omega) (by omega))
  · refine (ensures_atType hst).bind fun found st₁ hst₁ => ?_
    split
    · exact htype.first (fun _ _ _ hgrove => .grown hgrove) hst₁
    · exact ensures_pure ⟨t, pool, hst₁, .nil src pool le_rfl⟩

/-- A body ends where its block or its semicolon does. -/
theorem body_grows {block : Production NodeId} (hblock : Yields src block fun id => [id]) :
    EnsuresAt src t pool (body block) fun b st' => ∃ t' q, Stands src st' t' q ∧
      Grove src pool q b.block.toList t.span.start b.stop ∧ b.stop ≤ t'.span.start ∧
      src.Edge b.stop ∧ b.stop ≤ src.size ∧ ∀ s ∈ b.library, s.Within ⟨t.span.start, b.stop⟩ := by
  refine .eatIf (fun t₁ _ hpast => fun st₁ hst₁ => ?_) (.peek ?_)
  · have hlibrary : (eatIf .string).Ensures src st₁ fun library st' => ∃ t',
      Stands src st' t' pool ∧
        t.span.stop ≤ t'.span.start ∧ ∀ u ∈ library, t.span.stop ≤ u.span.start ∧
          u.span.start + 2 ≤ u.span.stop ∧ u.span.stop ≤ t'.span.start := by
      refine (ensures_eatIf hst₁).mono ?_
      rintro library st₂ (⟨rfl, hkind, t₂, hpast', hst₂⟩ | ⟨rfl, hst₂⟩)
      · have hquotes := hst₁.string hkind
        refine ⟨t₂, hst₂, by omega, ?_⟩
        rintro u ⟨⟩
        exact ⟨hpast.2, hquotes, hpast'⟩
      · exact ⟨t₁, hst₂, hpast.2, by simp⟩
    refine hlibrary.bind ?_
    rintro library st₂ ⟨t₂, hst₂, hafter, hspelled⟩
    refine hst₂.ensures (.expectAs rfl fun t₃ _ hclose hpast' => .pure fun _ hst₃ => ?_)
    refine ⟨t₃, pool, hst₃, .nil src pool (by simp only; omega), hpast'.2,
      hclose.stops, hclose.fits, ?_⟩
    intro s hs
    obtain ⟨u, hu, rfl⟩ := Option.map_eq_some_iff.mp hs
    have := hspelled u hu
    simp only [Span.Within, Span.unquoted]
    omega
  · split
    · exact .unexpected
    · refine hblock.first fun id t₃ q hgrove => .spanOf fun n hn => .pure fun _ hst => ?_
      have hsited := hgrove.sited (by simp) hn
      have hspan := (hgrove.row.lies (by simp)).span hn
      have hrow : Row q t.span.start ([] ++ [id]) n.span.stop := hgrove.row.to_last hn
      exact ⟨t₃, q, hst, ⟨hgrove.forest, hrow⟩, hspan.2.2, hsited.stops, hsited.fits, by simp⟩

/-- A function without a name, whose lists have been added in this order. -/
abbrev unnamed (s : Pool) (params returns : List NodeId) (block : Slot) (library : Option Span) :
    NodeKind :=
  .function none (s.allocList (params.map some)).1
    ((s.allocList (params.map some)).2.allocList (returns.map some)).1 block library

/-- The types of the parameters are placed with the function that lists the parameters. -/
theorem Parameters.node {rets : List NodeId} {block : Slot} {library : Option Span} {r s : Pool}
    {span : Span} (hparams : Parameters src base q ids lo mid) (hlo : lo ≤ mid)
    (hrets : Grove src q r rets mid mid') (hblock : Grove src r s block.toList mid' hi)
    (hspan : Surrounds span lo hi) (hsited : Sited src (unnamed s ids rets block library) span) :
    Grove src base (s.build [ids, rets] (unnamed s ids rets block library) span) [⟨s.size⟩]
    span.start span.stop := by
  obtain ⟨groups, hforest, hvars, hne, hlies⟩ := hparams
  have hrest := hrets.append hblock
  have hall : Forest src base s (ids ++ (rets ++ block.toList)) (groups ++ []) :=
    hforest.append hrest.forest
  have hkind : (unnamed s ids rets block library).refers? = some (block.toList,
      (s.allocLists [ids, rets]).1) := by
    cases block <;> rfl
  have hperm : (ids ++ (rets ++ block.toList)).Perm (block.toList ++ [ids, rets].flatten) := by
    have hflat : [ids, rets].flatten = ids ++ rets := by simp
    rw [hflat, ← List.append_assoc]
    exact List.perm_append_comm
  have hlies' : ∀ id ∈ ids ++ (rets ++ block.toList), Lies s id lo hi := by
    intro id hid
    rcases List.mem_append.mp hid with hid | hid
    · exact ((hlies id hid).grow hrest.forest.grown).weaken le_rfl hrest.row.le
    · exact (hrest.row.lies hid).weaken hlo le_rfl
  rw [List.append_nil] at hall
  have hnode : Forest src base (s.build [ids, rets] (unnamed s ids rets block library) span)
      [⟨s.size⟩] groups :=
    hall.node hkind hperm hsited hlies' hspan
  refine ⟨hnode.place fun g hg => ⟨hne g hg, listed_build rfl rfl ?_⟩,
    .singleton (Ast.lies_build hsited.nonempty)⟩
  rw [← hvars, List.flatMap_def]
  exact List.infix_of_mem_flatten (List.mem_map_of_mem hg)

theorem function_yields {block : Production NodeId} (hblock : Yields src block fun id => [id])
    (rounds : Nat) : Yields src (function block rounds) fun id => [id] := by
  refine fun t pool => .attempt (.expectAs rfl fun t₁ _ hkeyword hpast =>
    .expectAs rfl fun t₂ _ _ hpast' st hst => (params_grow rounds hst).bind ?_)
  rintro ⟨ids, variadic⟩ st₁ ⟨t₃, q, hst₁, hparams, hlo⟩
  refine (returns_yields rounds).first (fun rets t₄ r hrets st₂ hst₂ => ?_) hst₁
  refine (body_grows hblock hst₂).bind ?_
  rintro b st₃ ⟨t₅, s, hst₃, hbody, hnext, hedge, hfits, hlibrary⟩
  refine hst₃.ensures (.allocList (.allocList fun st₄ hst₄ => (ensures_alloc hst₄).bind ?_))
  rintro _ st₅ ⟨rfl, hst₅⟩
  have hle' := hrets.row.le
  have hle'' := hbody.row.le
  have hsited : Sited src (unnamed s ids rets b.block b.library) ⟨t.span.start, b.stop⟩ := by
    refine ⟨by simp only; omega, hfits, hkeyword.starts, hedge, fun u hu => ?_⟩
    have hwithin := hlibrary u (by simpa using hu)
    simp only [Span.Within] at hwithin ⊢
    omega
  have hnode := hparams.node hlo hrets hbody ⟨by simp only; omega, le_rfl,
    .inl (by simp only; omega)⟩ hsited
  obtain ⟨n, hn, hnkind, hnspan⟩ := Ast.build_node s [ids, rets] (unnamed s ids rets b.block
    b.library) ⟨t.span.start, b.stop⟩
  refine hst₅.ensures (.update (.grown ?_))
  have hchanged := hnode.change hn (fun n => { n with flags := ⟨false, b.foreign, variadic⟩ }) ?_ ?_
    rfl rfl rfl rfl
    fun _ _ _ => id
  · exact hchanged.weaken (by rw [hnspan]) (by rw [hnspan]; exact hnext)
  · simpa [hnkind, hnspan] using hsited
  · simp only [hnspan, Span.Within]
    omega

theorem struct_yields (rounds : Nat) : Yields src (struct rounds) fun id => [id] := by
  refine fun t pool => .attempt (.expectAs rfl fun t₁ _ hkeyword hpast =>
    .expectAs rfl fun t₂ _ _ hpast' => ?_)
  refine manyUntil_then rounds (definition_yields rounds) fun members t₃ q hgrove hstop =>
    .eat hstop rfl fun t₄ hclose hpast'' => .allocList ?_
  exact .closed [members] hkeyword hclose hgrove (by omega) hpast''.2 rfl (by simp) (by simp)

/-! ### Declarations -/

/-- Giving a name changes nothing but the name. -/
theorem named?_eq {name : Span} {kind kind' : NodeKind} (h : kind.named? name = some kind') :
    kind'.slots = kind.slots ∧ kind'.required = kind.required ∧ kind'.ranges = kind.ranges ∧
      kind'.role = kind.role ∧ (∀ op left right, kind' ≠ .binary op left right) ∧ ∀ s ∈ kind'.spans,
      s = name ∨ s ∈ kind.spans := by
  cases kind with
  | struct old members =>
    obtain rfl := Option.some.inj h
    exact ⟨rfl, rfl, rfl, rfl, by simp, by simp⟩
  | function old params returns block library =>
    obtain rfl := Option.some.inj h
    refine ⟨rfl, rfl, rfl, rfl, by simp, fun s hs => ?_⟩
    simp only [NodeKind.spans, Option.toList_some, List.cons_append, List.nil_append,
      List.mem_cons] at hs ⊢
    exact hs.imp_right (List.mem_append_right _)
  | _ => cases h

theorem declaration_yields {block : Production NodeId} {rounds : Nat}
    (hblock : Yields src block fun id => [id]) (hundoes : Undoes src (function block rounds)) :
    Yields src (declaration block rounds) fun id => [id] := by
  have hvalue : Yields src (firstOf [struct rounds, function block rounds, expression rounds])
      fun id => [id] := by
    apply firstOf_yields
    · simp only [List.forall_mem_cons]
      exact ⟨struct_undoes rounds, hundoes, expression_undoes rounds, by simp⟩
    · simp only [List.forall_mem_cons]
      exact ⟨struct_yields rounds, function_yields hblock rounds, expression_yields rounds, by simp⟩
  refine fun t pool => .attempt (.expectAs rfl fun t₁ _ hname hpast =>
    .expectAs rfl fun t₂ _ _ hpast' =>
    hvalue.first fun value t₃ q hgrove => .node fun n hn => ?_)
  have hinner := hgrove.sited (by simp) hn
  have hspan := (hgrove.row.lies (by simp)).span hn
  split
  next kind hnamed =>
    obtain ⟨hslots, hrequired, hranges, hrole, hplain, htexts⟩ := named?_eq hnamed
    refine .update (.grown ?_)
    refine (hgrove.change hn (fun n => { n with kind, span := ⟨t.span.start, n.span.stop⟩ }) ?_ ?_
      hslots hrequired hranges hrole fun op left right heq => absurd heq (hplain op left
      right)).weaken le_rfl hspan.2.2
    · refine ⟨by simp only; omega, hinner.fits, hname.starts, hinner.stops, fun s hs => ?_⟩
      simp only [Span.Within]
      rcases htexts s hs with rfl | hs
      · omega
      · have hwithin := hinner.texts s hs
        unfold Span.Within at hwithin
        omega
    · simp only [Span.Within]
      omega
  next =>
    refine .expectAs rfl fun t₅ _ hclose hpast'' => ?_
    refine .closed [] hname hclose hgrove (by omega) hpast''.2 rfl (by simp) ?_
    simp only [NodeKind.spans, List.mem_singleton, forall_eq, Span.Within]
    omega

end MicroCompiler.Grammar
