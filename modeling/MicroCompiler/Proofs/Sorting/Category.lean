import MicroCompiler.Proofs.Ast.Joining

/-! What the places of a tree hold. The nodes of a pool are of all kinds, and a place names a node
by its position alone; still every place takes nodes of one category only. A node belongs to certain
categories by its kind, and `WellSorted` says that its places hold what they should and that its
flags and variables fit together. Nodes may be added, and a node may be changed as long as it stays
in its categories: what was well-sorted stays so. A struct and a function have no name until their
declaration gives them one, so nodes may be pending. -/

namespace MicroCompiler.Ast

/-- What a place in the tree takes. -/
inductive Category where
  | expression
  | type
  | var
  | definition
  | block
  /-- What stands at the top of a file. -/
  | item
  /-- What stands in a block, or behind a condition. -/
  | statement
  deriving DecidableEq, Repr

namespace NodeKind

/-- The places that take a node. -/
@[simp] def categories : NodeKind → List Category
  | .identifier _ | .string _ | .number _ | .nil | .unary _ _ | .binary _ _ _ | .call _ _ |
    .subscript _ _ | .cast _ _
  | .member _ _ => [.expression]
  | .namedType _ | .pointerType _ => [.type]
  | .var _ _ _ => [.var]
  | .definition _ => [.definition, .item, .statement]
  | .load _ => [.item]
  | .struct _ _ | .function _ _ _ _ _ | .const _ _ => [.item, .statement]
  | .block _ => [.block, .statement]
  | .ifStmt _ _ _ | .whileStmt _ _ | .deferStmt _ | .returnStmt _ | .breakStmt |
    .continueStmt | .assignment _ _
  | .expression _ => [.statement]
  | .file _ => []

/-- The slots for single children, with what they take. -/
@[simp] def children : NodeKind → List (Category × Slot)
  | .unary _ operand => [(.expression, operand)]
  | .binary _ left right => [(.expression, left), (.expression, right)]
  | .call callee _ => [(.expression, callee)]
  | .subscript container index => [(.expression, container), (.expression, index)]
  | .cast operand type => [(.expression, operand), (.type, type)]
  | .member container _ => [(.expression, container)]
  | .pointerType pointee => [(.type, pointee)]
  | .const _ value => [(.expression, value)]
  | .var _ type initializer => [(.type, type), (.expression, initializer)]
  | .function _ _ _ body _ => [(.block, body)]
  | .ifStmt condition consequent alternative =>
    [(.expression, condition), (.statement, consequent), (.statement, alternative)]
  | .whileStmt condition body => [(.expression, condition), (.statement, body)]
  | .deferStmt statement => [(.statement, statement)]
  | .expression expr => [(.expression, expr)]
  | _ => []

/-- The lists of children, with what they take. -/
@[simp] def childLists : NodeKind → List (Category × NodeRange)
  | .call _ args => [(.expression, args)]
  | .file declarations => [(.item, declarations)]
  | .struct _ members => [(.definition, members)]
  | .function _ params returns _ _ => [(.var, params), (.type, returns)]
  | .block statements => [(.statement, statements)]
  | .definition vars => [(.var, vars)]
  | .returnStmt values => [(.expression, values)]
  | .assignment targets values => [(.expression, targets), (.expression, values)]
  | _ => []

/-- No slot is left out. -/
theorem children_slots (kind : NodeKind) : kind.children.map Prod.snd = kind.slots := by
  cases kind <;> rfl

/-- No list is left out. -/
theorem childLists_ranges (kind : NodeKind) : kind.childLists.map Prod.snd = kind.ranges := by
  cases kind <;> rfl

/-- A slot that must be filled is a slot. -/
theorem required_subset (kind : NodeKind) : kind.required ⊆ kind.slots := by cases kind <;> simp

/-- Whether the node is under no rule beyond those for its places, and none that has to be filled is
empty. -/
def isPlain : NodeKind → Bool
  | .definition _ | .function _ _ _ _ _ => false
  | kind => kind.required.all Option.isSome

theorem not_var_of_expression {kind : NodeKind} (h : .expression ∈ kind.categories) :
    .var ∉ kind.categories := by
  cases kind <;> simp_all

/-- Whether the node has a name, if it is one that carries its name itself. -/
@[simp] def isNamed : NodeKind → Bool
  | .struct name _ | .function name _ _ _ _ => name.isSome
  | _ => true

/-- Giving a name leaves a node in its categories. -/
theorem categories_of_named? {name : Span} {kind kind' : NodeKind}
    (h : kind.named? name = some kind') : kind'.categories = kind.categories ∧
    kind.categories = [.item, .statement] ∧ kind'.isNamed = true := by
  cases kind with
  | struct old members | function old params returns body library =>
    obtain rfl := Option.some.inj h
    simp
  | _ => cases h

/-- A definition stands at the top of a file and in a block. -/
theorem of_definition {kind : NodeKind} (h : .definition ∈ kind.categories) :
    .item ∈ kind.categories ∧ .statement ∈ kind.categories := by
  cases kind <;> simp_all

theorem statement_of_block {kind : NodeKind} (h : .block ∈ kind.categories) :
    .statement ∈ kind.categories := by
  cases kind <;> simp_all

theorem isNamed_of_named? {name : Span} {kind : NodeKind} (h : kind.named? name = none) :
    kind.isNamed = true := by
  cases kind with
  | struct old members => cases h
  | function old params returns body library => cases h
  | _ => rfl

end NodeKind

namespace Pool

variable {p q r : Pool} {id : NodeId} {c : Category} {kind : NodeKind} {flags : Flags} {n : Node}
  {pending : List NodeId}

/-- The pool has the node, and a place for the category takes it. -/
def Is (q : Pool) (id : NodeId) (c : Category) : Prop :=
  ∃ n, q.nodes[id.index]? = some n ∧ c ∈ n.kind.categories

/-- A list of nodes that places for the category take. -/
def Lists (q : Pool) (range : NodeRange) (c : Category) : Prop :=
  ∃ ids : List NodeId, q.list range = .ok (ids.map some) ∧ ∀ id ∈ ids, q.Is id c

/-- A variable with the given type, and with an initializer or without. -/
def IsVar (q : Pool) (type : Slot) (initialized : Bool) (id : NodeId) : Prop :=
  ∃ n name init, q.nodes[id.index]? = some n ∧ n.kind = .var name type init ∧
    init.isSome = initialized

/-- One variable or more with a common type. All of them have an initializer or none has, and if
there is no type they have. -/
def Uniform (q : Pool) (vars : NodeRange) : Prop :=
  ∃ (ids : List NodeId) (type : Slot) (initialized : Bool), q.list vars = .ok (ids.map some) ∧
    ids ≠ [] ∧ (∀ id ∈ ids, q.IsVar type initialized id) ∧ (type.isSome = true ∨ initialized = true)

/-- The places of a node hold what they should, and its flags fit. -/
structure WellSorted (q : Pool) (kind : NodeKind) (flags : Flags) : Prop where
  required : none ∉ kind.required
  children : ∀ x ∈ kind.children, ∀ id ∈ x.2, q.Is id x.1
  lists : ∀ x ∈ kind.childLists, q.Lists x.2 x.1
  definition : ∀ vars, kind = .definition vars → q.Uniform vars
  function : ∀ name params returns body library, kind = .function name params returns body library →
    (body = none ↔ flags.foreign = true) ∧ (library ≠ none → flags.foreign = true)
  inParens : flags.inParens = true → .expression ∈ kind.categories
  flagged : flags.foreign = true ∨ flags.variadic = true →
    ∃ name params returns body library, kind = .function name params returns body library

/-- Only functions have flags of their own, and only definitions have variables that must go
together. -/
theorem wellSorted_plain (hplain : kind.isPlain)
    (hchildren : ∀ x ∈ kind.children, ∀ id ∈ x.2, q.Is id x.1)
    (hlists : ∀ x ∈ kind.childLists, q.Lists x.2 x.1) : WellSorted q kind {} where
  required := by
    unfold NodeKind.isPlain at hplain
    split at hplain
    next => cases hplain
    next => cases hplain
    next => exact fun hmem => absurd (List.all_eq_true.mp hplain none hmem) (by simp)
  children := hchildren
  lists := hlists
  definition := by
    rintro vars rfl
    cases hplain
  function := by
    rintro name params returns body library rfl
    cases hplain
  inParens := by simp
  flagged := by simp

/-- An expression may stand in parentheses. -/
theorem WellSorted.paren (h : WellSorted q kind flags) (hexpr : .expression ∈ kind.categories) :
    WellSorted q kind { flags with inParens := true } :=
  ⟨h.required, h.children, h.lists, h.definition, h.function, fun _ => hexpr, h.flagged⟩

/-- A name may be given. -/
theorem WellSorted.named {name : Span} {kind' : NodeKind} (h : WellSorted q kind flags)
    (hnamed : kind.named? name = some kind') : WellSorted q kind' flags := by
  cases kind with
  | struct old members =>
    obtain rfl := Option.some.inj hnamed
    refine ⟨h.required, h.children, h.lists, by simp, by simp, fun hflag =>
      absurd (h.inParens hflag) (by simp), ?_⟩
    intro hflags
    obtain ⟨_, _, _, _, _, hfunction⟩ := h.flagged hflags
    cases hfunction
  | function old params returns body library =>
    obtain rfl := Option.some.inj hnamed
    refine ⟨h.required, h.children, h.lists, by simp, ?_, fun hflag => absurd (h.inParens hflag)
      (by simp), by simp⟩
    rintro _ _ _ _ _ ⟨⟩
    exact h.function _ _ _ _ _ rfl
  | _ => cases hnamed

/-- All nodes are well-sorted, and all but the pending ones are named. -/
def Sorted (q : Pool) (pending : List NodeId) : Prop :=
  ∀ (id : NodeId) n, q.nodes[id.index]? = some n →
    WellSorted q n.kind n.flags ∧ (id ∉ pending → n.kind.isNamed = true)

/-! ### Growing and changing -/

theorem le_of_list {range : NodeRange} {slots : List Slot} (h : q.list range = .ok slots) :
    range.start + range.length ≤ q.lists.size := by
  by_contra hlt
  simp only [list, BoundsError.slice] at h
  split_ifs at h
  · cases h
  · cases h
  · omega

/-- Every node stays in its categories, variables stay as they are, and so do the lists. -/
structure Steady (p q : Pool) : Prop where
  nodes : ∀ (i : Nat) n, p.nodes[i]? = some n → ∃ m, q.nodes[i]? = some m ∧
    m.kind.categories = n.kind.categories ∧ (.var ∈ n.kind.categories → m.kind = n.kind)
  lists_le : p.lists.size ≤ q.lists.size
  lists : ∀ i < p.lists.size, q.lists[i]? = p.lists[i]?

namespace Steady

theorem of_extends (h : p.Extends q) : p.Steady q :=
  ⟨fun _ n hn => ⟨n, h.node hn, rfl, fun _ => rfl⟩, h.lists_le, h.lists⟩

theorem refl (p : Pool) : p.Steady p := of_extends (.refl p)

theorem trans (h : p.Steady q) (h' : q.Steady r) : p.Steady r := by
  refine ⟨fun i n hn => ?_, h.lists_le.trans h'.lists_le, fun i hi => ?_⟩
  · obtain ⟨m, hm, hcategories, hvar⟩ := h.nodes i n hn
    obtain ⟨k, hk, hcategories', hvar'⟩ := h'.nodes i m hm
    refine ⟨k, hk, hcategories'.trans hcategories, fun hn => ?_⟩
    rw [hvar' (by rwa [hcategories]), hvar hn]
  · rw [h'.lists i (Nat.lt_of_lt_of_le hi h.lists_le), h.lists i hi]

theorem is (h : p.Steady q) (hid : p.Is id c) : q.Is id c := by
  obtain ⟨n, hn, hc⟩ := hid
  obtain ⟨m, hm, hcategories, -⟩ := h.nodes _ n hn
  exact ⟨m, hm, by rwa [hcategories]⟩

theorem list (h : p.Steady q) {range : NodeRange} {slots : List Slot}
    (hlist : p.list range = .ok slots) : q.list range = .ok slots := by
  have hrange := le_of_list hlist
  have hle := h.lists_le
  rw [list_eq hrange] at hlist
  rw [list_eq (by omega), ← hlist, entries_congr h.lists hrange]

theorem lists_is (h : p.Steady q) {range : NodeRange} (hlists : p.Lists range c) :
    q.Lists range c := by
  obtain ⟨ids, hlist, hids⟩ := hlists
  exact ⟨ids, h.list hlist, fun id hid => h.is (hids id hid)⟩

theorem isVar (h : p.Steady q) {type : Slot} {initialized : Bool}
    (hid : p.IsVar type initialized id) : q.IsVar type initialized id := by
  obtain ⟨n, name, init, hn, hkind, hinit⟩ := hid
  obtain ⟨m, hm, -, hsame⟩ := h.nodes _ n hn
  refine ⟨m, name, init, hm, ?_, hinit⟩
  rw [hsame (by simp [hkind]), hkind]

theorem uniform (h : p.Steady q) {vars : NodeRange} (hvars : p.Uniform vars) : q.Uniform vars := by
  obtain ⟨ids, type, initialized, hlist, hne, hids, hsome⟩ := hvars
  exact ⟨ids, type, initialized, h.list hlist, hne, fun id hid => h.isVar (hids id hid), hsome⟩

theorem wellSorted (h : p.Steady q) (hw : WellSorted p kind flags) : WellSorted q kind flags where
  required := hw.required
  children x hx id hid := h.is (hw.children x hx id hid)
  lists x hx := h.lists_is (hw.lists x hx)
  definition vars hvars := h.uniform (hw.definition vars hvars)
  function := hw.function
  inParens := hw.inParens
  flagged := hw.flagged

end Steady

namespace Sorted

/-- Nodes that are new or changed must be well-sorted; the others stay so. -/
theorem step {pending' : List NodeId} (h : p.Sorted pending) (hsteady : p.Steady q)
    (hnew : ∀ (id : NodeId) n, q.nodes[id.index]? = some n →
      (p.nodes[id.index]? = some n ∧ (id ∈ pending → id ∈ pending')) ∨
        (WellSorted q n.kind n.flags ∧ (id ∉ pending' → n.kind.isNamed = true))) :
        q.Sorted pending' := by
  intro id n hn
  rcases hnew id n hn with ⟨hold, hsub⟩ | hnew
  · obtain ⟨hw, hnamed⟩ := h id n hold
    exact ⟨hsteady.wellSorted hw, fun hid => hnamed fun hmem => hid (hsub hmem)⟩
  · exact hnew

/-- A node that has a name is not pending. -/
theorem settle (h : q.Sorted [id]) (hn : q.nodes[id.index]? = some n)
    (hnamed : n.kind.isNamed = true) : q.Sorted [] := by
  intro i m hm
  obtain ⟨hw, hnamed'⟩ := h i m hm
  refine ⟨hw, fun _ => ?_⟩
  by_cases hi : i = id
  · subst hi
    rwa [← Option.some.inj (hn.symm.trans hm)]
  · exact hnamed' (by simpa using hi)

theorem of_tables (h : p.Sorted pending) (hnodes : q.nodes = p.nodes) (hlists : q.lists = p.lists) :
    q.Sorted pending :=
  h.step (.of_extends (.of_tables hnodes hlists)) fun _ _ hn => .inl ⟨by rwa [← hnodes], fun hid =>
  hid⟩

theorem allocList (h : p.Sorted pending) (slots : List Slot) :
    (p.allocList slots).2.Sorted pending :=
  h.step (.of_extends (.allocList p slots)) fun _ _ hn => .inl ⟨hn, fun hid => hid⟩

theorem alloc (h : p.Sorted []) (span : Span) (hw : WellSorted p kind {})
    (hnamed : ⟨p.size⟩ ∉ pending → kind.isNamed = true) : (p.alloc kind span).2.Sorted pending := by
  have hsteady : p.Steady (p.alloc kind span).2 := .of_extends (.alloc p kind span)
  refine h.step hsteady fun id n hn => ?_
  simp only [Pool.alloc, Array.getElem?_push] at hn
  split_ifs at hn with hid
  · cases hn
    obtain rfl : id = ⟨p.size⟩ := by
      cases id
      simp only at hid
      rw [hid]
      rfl
    exact .inr ⟨hsteady.wellSorted hw, hnamed⟩
  · exact .inl ⟨hn, fun hmem => absurd hmem List.not_mem_nil⟩

end Sorted

theorem list_allocList (q : Pool) (ids : List NodeId) :
    (q.allocList (ids.map some)).2.list (q.allocList (ids.map some)).1 = .ok (ids.map some) := by
  rw [list_eq (by simp [Pool.allocList, ← Array.length_toList]), entries_allocList]

/-- A node may be changed as long as it stays in its categories. -/
theorem steady_change (hn : q.nodes[id.index]? = some n) (f : Node → Node)
    (hcategories : (f n).kind.categories = n.kind.categories) (hvar : .var ∉ n.kind.categories) :
    q.Steady (q.change id.index f) := by
  refine ⟨fun i m hm => ?_, le_rfl, fun _ _ => rfl⟩
  by_cases hi : id.index = i
  · subst hi
    obtain rfl : n = m := Option.some.inj (hn.symm.trans hm)
    exact ⟨f n, change_node_self hn f, hcategories, fun hmem => absurd hmem hvar⟩
  · exact ⟨m, by rw [change_node_ne hi, hm], rfl, fun _ => rfl⟩

theorem Sorted.change {pending' : List NodeId} (h : q.Sorted pending)
    (hn : q.nodes[id.index]? = some n) (f : Node → Node)
    (hcategories : (f n).kind.categories = n.kind.categories) (hvar : .var ∉ n.kind.categories)
    (hw : WellSorted q (f n).kind (f n).flags) (hnamed : id ∉ pending' → (f n).kind.isNamed = true)
    (hpending : ∀ i ∈ pending, i ≠ id → i ∈ pending') : (q.change id.index f).Sorted pending' := by
  have hsteady := steady_change hn f hcategories hvar
  refine h.step hsteady fun i m hm => ?_
  by_cases hi : i = id
  · subst hi
    rw [change_node_self hn f] at hm
    cases hm
    exact .inr ⟨hsteady.wellSorted hw, hnamed⟩
  · refine .inl ⟨?_, fun hmem => hpending i hmem hi⟩
    rwa [change_node_ne fun heq => hi (by cases i; cases id; simp_all)] at hm

/-- A node may get its flags right behind its making, and is well-sorted only then. -/
theorem Sorted.allocFlagged (h : p.Sorted []) (span : Span) (hw : WellSorted p kind flags)
    (hvar : .var ∉ kind.categories) (hnamed : ⟨p.size⟩ ∉ pending → kind.isNamed = true) :
    ((p.alloc kind span).2.change p.size ({ · with flags })).Sorted pending ∧
      p.Steady ((p.alloc kind span).2.change p.size ({ · with flags })) := by
  have hn : (p.alloc kind span).2.nodes[(⟨p.size⟩ : NodeId).index]? = some _ :=
    p.alloc_node kind span
  have hsteady : p.Steady ((p.alloc kind span).2.change p.size ({ · with flags })) :=
    (Steady.of_extends (.alloc p kind span)).trans (steady_change hn _ rfl hvar)
  refine ⟨h.step hsteady fun i m hm => ?_, hsteady⟩
  by_cases hi : p.size = i.index
  · obtain rfl : i = ⟨p.size⟩ := by rw [hi]
    rw [change_node_self hn] at hm
    cases hm
    exact .inr ⟨hsteady.wellSorted hw, hnamed⟩
  · rw [change_node_ne hi] at hm
    simp only [Pool.alloc, Array.getElem?_push] at hm
    rw [if_neg fun heq => hi heq.symm] at hm
    exact .inl ⟨hm, fun hmem => absurd hmem List.not_mem_nil⟩

end Pool

end MicroCompiler.Ast
