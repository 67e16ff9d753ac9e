import MicroCompiler.Proofs.Outline.Label

/-! Reading a pool from its leaves up. What a node gives is made of what its children give. A tree
without positions is read in this way, with the label and the flags of each node. If one way of
reading keeps apart what another one keeps apart at each node, it does so for whole subtrees. -/

namespace MicroCompiler

namespace Ast

/-! ### Folds -/

/-- What is read from a slot that may be empty. -/
def ifFilled (read : Slot → Except Fault β) (slot : Slot) : Except Fault (Option β) :=
  match slot with
  | none => .ok none
  | some _ => (read slot).map some

theorem ifFilled_eq_none {read : Slot → Except Fault β} {slot : Slot} :
    ifFilled read slot = .ok none ↔ slot = none := by
  cases slot <;> simp [ifFilled, map_eq_ok]

theorem ifFilled_eq_some {read : Slot → Except Fault β} {slot : Slot} {b : β} :
    ifFilled read slot = .ok (some b) ↔ ∃ id, slot = some id ∧ read (some id) = .ok b := by
  cases slot <;> simp [ifFilled, map_eq_ok]

theorem ifFilled_of_ne_none {read : Slot → Except Fault β} {slot : Slot} {b : Option β}
    (hne : none ≠ slot) (h : ifFilled read slot = .ok b) :
    ∃ filled, read slot = .ok filled ∧ b = some filled := by
  cases b with
  | none => exact absurd (ifFilled_eq_none.mp h).symm hne
  | some b =>
    obtain ⟨id, rfl, hb⟩ := ifFilled_eq_some.mp h
    exact ⟨b, hb, rfl⟩

/-- What is read from slots that are filled. -/
theorem mapM_ifFilled {read : Slot → Except Fault β} {slots : List Slot} {bs : List (Option β)}
    (hfilled : none ∉ slots) (h : slots.mapM (ifFilled read) = .ok bs) :
    ∃ filled, slots.mapM read = .ok filled ∧ bs = filled.map some := by
  induction slots generalizing bs with
  | nil =>
    obtain rfl := mapM_nil_eq_ok.mp h
    exact ⟨[], rfl, rfl⟩
  | cons slot slots ih =>
    obtain ⟨b, rest, hslot, hrest, rfl⟩ := mapM_cons_eq_ok.mp h
    rw [List.mem_cons, not_or] at hfilled
    obtain ⟨b, hb, rfl⟩ := ifFilled_of_ne_none hfilled.1 hslot
    obtain ⟨filled, hread, rfl⟩ := ih hfilled.2 hrest
    exact ⟨b :: filled, mapM_cons_eq_ok.mpr ⟨b, filled, hb, hread, rfl⟩, rfl⟩

namespace Pool

/-- What is read from the slots of a list. -/
def readList (q : Pool) (read : Slot → Except Fault β) (range : NodeRange) :
    Except Fault (List β) := do
  let slots ← q.list range
  slots.mapM read

/-- Reads the subtree in a slot. The function gives the value of a node from the values in its slots
and its lists. The last argument bounds the depth of the subtree. -/
def foldFrom (q : Pool) (f : Node → List (Option β) → List (List β) → β) (slot : Slot) :
    Nat → Except Fault β
  | 0 => .error .cycle
  | levels + 1 => do
    let node ← q.get slot
    let slots ← node.kind.slots.mapM (ifFilled fun s => q.foldFrom f s levels)
    let lists ← node.kind.ranges.mapM (q.readList fun s => q.foldFrom f s levels)
    pure (f node slots lists)

/-- What a fold gives for the slots and the lists of a node. -/
structure Reads (q : Pool) (f : Node → List (Option β) → List (List β) → β) (levels : Nat)
    (kind : NodeKind) (slots : List (Option β)) (lists : List (List β)) : Prop where
  slots : kind.slots.mapM (ifFilled fun s => q.foldFrom f s levels) = .ok slots
  lists : kind.ranges.mapM (q.readList fun s => q.foldFrom f s levels) = .ok lists

variable {q q' : Pool} {f : Node → List (Option β) → List (List β) → β} {f' : Node →
  List (Option β) → List (List β) → β} {slot slot' : Slot} {levels levels' : Nat} {b : β}

theorem foldFrom_succ : q.foldFrom f slot (levels + 1) = .ok b ↔
    ∃ n slots lists, q.get slot = .ok n ∧ q.Reads f levels n.kind slots lists ∧
    f n slots lists = b := by
  simp only [foldFrom, bind_eq_ok, pure, Except.pure, Except.ok.injEq]
  constructor
  · rintro ⟨n, hn, slots, hslots, lists, hlists, hb⟩
    exact ⟨n, slots, lists, hn, ⟨hslots, hlists⟩, hb⟩
  · rintro ⟨n, slots, lists, hn, ⟨hslots, hlists⟩, hb⟩
    exact ⟨n, hn, slots, hslots, lists, hlists, hb⟩

namespace Reads

variable {slots : List (Option β)} {lists : List (List β)}

theorem var {name : Span} {type initializer : Slot}
    (h : q.Reads f levels (.var name type initializer) slots lists) :
    ∃ type' initializer', ifFilled (fun s => q.foldFrom f s levels) type = .ok type' ∧
      ifFilled (fun s => q.foldFrom f s levels) initializer = .ok initializer' ∧
      slots = [type', initializer'] ∧ lists = [] := by
  obtain ⟨type', _, htype, hrest, rfl⟩ := mapM_cons_eq_ok.mp h.slots
  obtain ⟨initializer', _, hinitializer, hnil, rfl⟩ := mapM_cons_eq_ok.mp hrest
  obtain rfl := mapM_nil_eq_ok.mp hnil
  exact ⟨type', initializer', htype, hinitializer, rfl, mapM_nil_eq_ok.mp h.lists⟩

theorem function {name library : Option Span} {params returns : NodeRange} {body : Slot}
    (h : q.Reads f levels (.function name params returns body library) slots lists) :
    ∃ body' params' returns', ifFilled (fun s => q.foldFrom f s levels) body = .ok body' ∧
      q.readList (fun s => q.foldFrom f s levels) params = .ok params' ∧
      q.readList (fun s => q.foldFrom f s levels) returns = .ok returns' ∧ slots = [body'] ∧
      lists = [params', returns'] := by
  obtain ⟨body', _, hbody, hnil, hslots⟩ := mapM_cons_eq_ok.mp h.slots
  obtain rfl := mapM_nil_eq_ok.mp hnil
  obtain ⟨params', _, hparams, hrest, rfl⟩ := mapM_cons_eq_ok.mp h.lists
  obtain ⟨returns', _, hreturns, hend, rfl⟩ := mapM_cons_eq_ok.mp hrest
  obtain rfl := mapM_nil_eq_ok.mp hend
  exact ⟨body', params', returns', hbody, hparams, hreturns, hslots, rfl⟩

theorem ifStmt {condition consequent alternative : Slot}
    (h : q.Reads f levels (.ifStmt condition consequent alternative) slots lists) :
    ∃ condition' consequent' alternative', ifFilled (fun s => q.foldFrom f s levels) condition =
      .ok condition' ∧ ifFilled (fun s => q.foldFrom f s levels) consequent = .ok consequent' ∧
      ifFilled (fun s => q.foldFrom f s levels) alternative = .ok alternative' ∧
      slots = [condition', consequent', alternative'] ∧ lists = [] := by
  obtain ⟨condition', _, hcondition, hrest, rfl⟩ := mapM_cons_eq_ok.mp h.slots
  obtain ⟨consequent', _, hconsequent, hlast, rfl⟩ := mapM_cons_eq_ok.mp hrest
  obtain ⟨alternative', _, halternative, hnil, rfl⟩ := mapM_cons_eq_ok.mp hlast
  obtain rfl := mapM_nil_eq_ok.mp hnil
  exact ⟨condition', consequent', alternative', hcondition, hconsequent, halternative, rfl,
    mapM_nil_eq_ok.mp h.lists⟩

theorem assignment {targets values : NodeRange}
    (h : q.Reads f levels (.assignment targets values) slots lists) :
    ∃ targets' values', q.readList (fun s => q.foldFrom f s levels) targets = .ok targets' ∧
      q.readList (fun s => q.foldFrom f s levels) values = .ok values' ∧ slots = [] ∧
      lists = [targets', values'] := by
  obtain ⟨targets', _, htargets, hrest, rfl⟩ := mapM_cons_eq_ok.mp h.lists
  obtain ⟨values', _, hvalues, hnil, rfl⟩ := mapM_cons_eq_ok.mp hrest
  obtain rfl := mapM_nil_eq_ok.mp hnil
  exact ⟨targets', values', htargets, hvalues, mapM_nil_eq_ok.mp h.slots, rfl⟩

end Reads

theorem length_of_list {range : NodeRange} {slots : List Slot} (h : q.list range = .ok slots) :
    slots.length = range.length := by
  have hrange := le_of_list h
  rw [list_eq hrange] at h
  obtain rfl := Except.ok.inj h
  rw [entries, List.length_take, List.length_drop, Array.length_toList]
  omega

/-- As many values are read from a list as it has slots. -/
theorem length_of_readList {read : Slot → Except Fault β} {range : NodeRange} {bs : List β}
    (h : q.readList read range = .ok bs) : bs.length = range.length := by
  obtain ⟨slots, hslots, hbs⟩ := bind_eq_ok.mp h
  rw [← (mapM_eq_ok.mp hbs).length_eq, length_of_list hslots]

section

variable {g : Node → List (Option γ) → List (List γ) → γ}
  {g' : Node → List (Option γ) → List (List γ) → γ}

theorem ifFilled_meet {read : Slot → Except Fault β} {read' : Slot → Except Fault β}
    {other : Slot → Except Fault γ} {other' : Slot → Except Fault γ} {b : Option β}
    (h : ∀ s s' b, read s = .ok b → read' s' = .ok b → ∃ c, other s = .ok c ∧ other' s' = .ok c)
    (hb : ifFilled read slot = .ok b) (hb' : ifFilled read' slot' = .ok b) :
    ∃ c, ifFilled other slot = .ok c ∧ ifFilled other' slot' = .ok c := by
  cases b with
  | none =>
    rw [ifFilled_eq_none] at hb hb'
    exact ⟨none, ifFilled_eq_none.mpr hb, ifFilled_eq_none.mpr hb'⟩
  | some b =>
    obtain ⟨id, rfl, hread⟩ := ifFilled_eq_some.mp hb
    obtain ⟨id', rfl, hread'⟩ := ifFilled_eq_some.mp hb'
    obtain ⟨c, hc, hc'⟩ := h _ _ _ hread hread'
    exact ⟨some c, ifFilled_eq_some.mpr ⟨id, rfl, hc⟩, ifFilled_eq_some.mpr ⟨id', rfl, hc'⟩⟩

theorem readList_meet {read : Slot → Except Fault β} {read' : Slot → Except Fault β}
    {other : Slot → Except Fault γ} {other' : Slot → Except Fault γ} {range range' : NodeRange}
    {bs : List β} (h : ∀ s s' b, read s = .ok b → read' s' = .ok b → ∃ c, other s = .ok c ∧
      other' s' = .ok c)
    (hbs : q.readList read range = .ok bs) (hbs' : q'.readList read' range' = .ok bs) :
    ∃ cs, q.readList other range = .ok cs ∧ q'.readList other' range' = .ok cs := by
  obtain ⟨slots, hslots, hread⟩ := bind_eq_ok.mp hbs
  obtain ⟨slots', hslots', hread'⟩ := bind_eq_ok.mp hbs'
  obtain ⟨cs, hcs, hcs'⟩ := mapM_meet h hread hread'
  exact ⟨cs, bind_eq_ok.mpr ⟨slots, hslots, hcs⟩, bind_eq_ok.mpr ⟨slots', hslots', hcs'⟩⟩

/-- Two subtrees that one fold cannot tell apart. If it tells what it was given at each node, and
what another fold does there, then the other fold cannot tell them apart either. -/
theorem foldFrom_meet
    (hstep : ∀ levels levels' n n' slots slots' lists lists', n ∈ q.nodes → n' ∈ q'.nodes →
      q.Reads f levels n.kind slots lists → q'.Reads f' levels' n'.kind slots' lists' →
      f n slots lists = f' n' slots' lists' → slots = slots' ∧ lists = lists' ∧ g n = g' n')
    (h : q.foldFrom f slot levels = .ok b) (h' : q'.foldFrom f' slot' levels' = .ok b) :
    ∃ c, q.foldFrom g slot levels = .ok c ∧ q'.foldFrom g' slot' levels' = .ok c := by
  induction levels generalizing slot slot' levels' b with
  | zero => cases h
  | succ levels ih =>
    cases levels' with
    | zero => cases h'
    | succ levels' =>
      obtain ⟨n, slots, lists, hn, hreads, rfl⟩ := foldFrom_succ.mp h
      obtain ⟨n', slots', lists', hn', hreads', hb⟩ := foldFrom_succ.mp h'
      obtain ⟨rfl, rfl, hg⟩ := hstep _ _ _ _ _ _ _ _ (mem_of_get hn) (mem_of_get hn')
        hreads hreads' hb.symm
      have hmeet : ∀ s s' b, q.foldFrom f s levels = .ok b → q'.foldFrom f' s' levels' = .ok b →
          ∃ c, q.foldFrom g s levels = .ok c ∧ q'.foldFrom g' s' levels' = .ok c :=
          fun _ _ _ hs hs' => ih hs hs'
      obtain ⟨cs, hcs, hcs'⟩ := mapM_meet (fun _ _ _ => ifFilled_meet hmeet)
        hreads.slots hreads'.slots
      obtain ⟨ds, hds, hds'⟩ := mapM_meet (fun _ _ _ => readList_meet hmeet)
        hreads.lists hreads'.lists
      exact ⟨g n cs ds, foldFrom_succ.mpr ⟨n, cs, ds, hn, ⟨hcs, hds⟩, rfl⟩,
        foldFrom_succ.mpr ⟨n', cs, ds, hn', ⟨hcs', hds'⟩, by rw [hg]⟩⟩

end

end Pool

/-! ### Trees -/

/-- A tree without positions. -/
inductive Tree where
  | node (label : Label) (flags : Flags) (slots : List (Option Tree)) (lists : List (List Tree))

/-- The tree of a node, from what its slots and its lists give. -/
def Tree.ofNode (src : Source) (n : Node) (slots : List (Option Tree)) (lists : List (List Tree)) :
    Tree :=
  .node (n.kind.label src) n.flags slots lists

namespace Pool

/-- The subtree in a slot, with texts in place of spans. The last argument bounds its depth. -/
def treeFrom (q : Pool) (src : Source) : Slot → Nat → Except Fault Tree :=
  q.foldFrom (Tree.ofNode src)

/-- The subtree in a slot. -/
def tree (q : Pool) (src : Source) (root : Slot) : Except Fault Tree :=
  q.treeFrom src root (q.size + 1)

end Pool

end Ast

end MicroCompiler
