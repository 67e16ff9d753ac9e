import Mathlib.Data.List.Range
import Mathlib.Logic.Relation
import MicroCompiler.Proofs.Pool

/-! The graph that a pool holds. A node names its children in single slots and in ranges of the list
table. What a stretch of nodes holds is gathered in a list, node by node, so references can be
counted and the ranges compared with the list table; each change of a pool changes what is gathered
in one place only. -/

namespace MicroCompiler

namespace Span

/-- The first span is no reversed one and lies in the second. -/
def Within (s t : Span) : Prop := t.start ≤ s.start ∧ s.start ≤ s.stop ∧ s.stop ≤ t.stop

/-- The first span lies in the second and leaves out a part of it. -/
def Inside (s t : Span) : Prop := s.Within t ∧ (t.start < s.start ∨ s.stop < t.stop)

end Span

namespace Ast

namespace NodeKind

/-- The slots for single children. -/
@[simp] def slots : NodeKind → List Slot
  | .unary _ operand => [operand]
  | .binary _ left right => [left, right]
  | .call callee _ => [callee]
  | .subscript container index => [container, index]
  | .cast operand type => [operand, type]
  | .member container _ => [container]
  | .pointerType pointee => [pointee]
  | .const _ value => [value]
  | .var _ type initializer => [type, initializer]
  | .function _ _ _ body _ => [body]
  | .ifStmt condition consequent alternative => [condition, consequent, alternative]
  | .whileStmt condition body => [condition, body]
  | .deferStmt statement => [statement]
  | .expression expr => [expr]
  | _ => []

/-- The slots that must not be left empty: all but the type and the initializer of a variable, the
body of a function and what follows an `else`. -/
@[simp] def required : NodeKind → List Slot
  | .var _ _ _ | .function _ _ _ _ _ => []
  | .ifStmt condition consequent _ => [condition, consequent]
  | kind => kind.slots

/-- The lists of children. -/
@[simp] def ranges : NodeKind → List NodeRange
  | .call _ args => [args]
  | .file declarations => [declarations]
  | .struct _ members => [members]
  | .function _ params returns _ _ => [params, returns]
  | .block statements => [statements]
  | .definition vars => [vars]
  | .returnStmt values => [values]
  | .assignment targets values => [targets, values]
  | _ => []

/-- The list whose children are variables. -/
def variables? : NodeKind → Option NodeRange
  | .definition vars => some vars
  | .function _ params _ _ _ => some params
  | _ => none

/-- The pieces of source text that a node keeps. -/
@[simp] def spans : NodeKind → List Span
  | .identifier s | .string s | .member _ s | .namedType s | .load s | .const s _ | .var s _ _ =>
    [s]
  | .struct name _ => name.toList
  | .function name _ _ _ library => name.toList ++ library.toList
  | _ => []

theorem mem_ranges_of_variables? {kind : NodeKind} {r : NodeRange} (h : kind.variables? = some r) :
    r ∈ kind.ranges := by
  cases kind with
  | definition vars => simpa [variables?, ranges, eq_comm] using h
  | function name params returns body library =>
    obtain rfl : params = r := by simpa [variables?] using h
    simp [ranges]
  | _ => cases h

end NodeKind

/-! ### Tilings of the list table -/

/-- The ranges lie behind each other in this order, from the entry at `start` up to the one at
`stop`. -/
def Tiles : Nat → List NodeRange → Nat → Prop
  | start, [], stop => start = stop
  | start, r :: rest, stop => r.start = start ∧ Tiles (start + r.length) rest stop

theorem tiles_append {start stop : Nat} {before after : List NodeRange} :
    Tiles start (before ++ after) stop ↔ ∃ middle, Tiles start before middle ∧
    Tiles middle after stop := by
  induction before generalizing start with
  | nil => simp [Tiles]
  | cons r rest ih =>
    simp only [List.cons_append, Tiles, ih]
    constructor
    · rintro ⟨hr, middle, hrest, hafter⟩
      exact ⟨middle, ⟨hr, hrest⟩, hafter⟩
    · rintro ⟨middle, ⟨hr, hrest⟩, hafter⟩
      exact ⟨hr, middle, hrest, hafter⟩

/-- Every entry between the ends lies in a tile. -/
theorem Tiles.cover {start stop i : Nat} {ranges : List NodeRange} (h : Tiles start ranges stop)
    (hle : start ≤ i) (hlt : i < stop) : ∃ r ∈ ranges, r.start ≤ i ∧ i < r.start + r.length := by
  induction ranges generalizing start with
  | nil =>
    have hempty : start = stop := h
    omega
  | cons r rest ih =>
    obtain ⟨hr, hrest⟩ := h
    by_cases hi : i < start + r.length
    · exact ⟨r, by simp, by omega, by omega⟩
    · obtain ⟨r', hr', hcover⟩ := ih hrest (by omega)
      exact ⟨r', List.mem_cons_of_mem r hr', hcover⟩

/-- A tile lies between the ends of its tiling. -/
theorem Tiles.bounds {start stop : Nat} {ranges : List NodeRange} (h : Tiles start ranges stop) :
    start ≤ stop ∧ ∀ r ∈ ranges, start ≤ r.start ∧ r.start + r.length ≤ stop := by
  induction ranges generalizing start with
  | nil => exact ⟨Nat.le_of_eq h, by simp⟩
  | cons r rest ih =>
    obtain ⟨hr, hrest⟩ := h
    obtain ⟨hle, hbounds⟩ := ih hrest
    refine ⟨by omega, ?_⟩
    intro r' hr'
    rcases List.mem_cons.mp hr' with rfl | hr'
    · omega
    · have := hbounds r' hr'
      omega

namespace Pool

variable {α : Type} {p q r : Pool} {i : Nat} {n : Node} {id : NodeId}

/-! ### Children -/

/-- The slots of a list. -/
def entries (q : Pool) (range : NodeRange) : List Slot :=
  (q.lists.toList.drop range.start).take range.length

/-- All slots of a node, those of its lists included. -/
def slotsOf (q : Pool) (n : Node) : List Slot := n.kind.slots ++ n.kind.ranges.flatMap q.entries

/-- The first node has a slot for the second. -/
def Child (q : Pool) (parent child : NodeId) : Prop :=
  ∃ n, q.nodes[parent.index]? = some n ∧ some child ∈ q.slotsOf n

theorem mem_slotsOf {q : Pool} {n : Node} {s : Slot} :
    s ∈ q.slotsOf n ↔ s ∈ n.kind.slots ∨ ∃ range ∈ n.kind.ranges, s ∈ q.entries range := by
  simp [slotsOf]

theorem list_eq {range : NodeRange} (h : range.start + range.length ≤ q.lists.size) :
    q.list range = .ok (q.entries range) := by
  simp only [list, BoundsError.slice, entries, Except.mapError]
  rw [if_neg (by omega), if_neg (by omega)]
  simp [Array.toList_extract]

theorem entries_congr (h : ∀ i < p.lists.size, q.lists[i]? = p.lists[i]?) {range : NodeRange}
    (hrange : range.start + range.length ≤ p.lists.size) : q.entries range = p.entries range := by
  apply List.ext_getElem?
  intro j
  simp only [entries, List.getElem?_take, List.getElem?_drop, Array.getElem?_toList]
  split_ifs with hj
  · exact h _ (by omega)
  · rfl

theorem Extends.entries (h : p.Extends q) {range : NodeRange}
    (hrange : range.start + range.length ≤ p.lists.size) :
    q.entries range = p.entries range := entries_congr h.lists hrange

/-! ### Gathering -/

/-- What the nodes from position `a` up to position `b` hold, in order. -/
def gather (q : Pool) (f : Node → List α) (a b : Nat) : List α :=
  (List.range' a (b - a)).flatMap fun i => (q.nodes[i]?.map f).getD []

section

variable {f : Node → List α} {a b c : Nat}

@[simp] theorem gather_self : q.gather f a a = [] := by simp [gather]

theorem gather_append (hab : a ≤ b) (hbc : b ≤ c) :
    q.gather f a c = q.gather f a b ++ q.gather f b c := by
  have hsplit : List.range' a (c - a) = List.range' a (b - a) ++ List.range' b (c - b) := by
    have hjoin : List.range' a (b - a) ++ List.range' (a + (b - a)) (c - b) =
        List.range' a (b - a + (c - b)) :=
      List.range'_append_1
    rw [show a + (b - a) = b by omega, show b - a + (c - b) = c - a by omega] at hjoin
    exact hjoin.symm
  rw [gather, hsplit, List.flatMap_append]
  rfl

theorem gather_one (h : q.nodes[i]? = some n) : q.gather f i (i + 1) = f n := by
  simp [gather, h]

theorem gather_congr (h : ∀ i, a ≤ i → i < b → r.nodes[i]?.map f = q.nodes[i]?.map f) :
    r.gather f a b = q.gather f a b := by
  unfold gather
  apply List.flatMap_congr
  intro i hi
  rw [List.mem_range'_1] at hi
  rw [h i hi.1 (by omega)]

/-- One of the nodes, and those before and behind it. -/
theorem gather_split (hab : a ≤ i) (hib : i < b) (h : q.nodes[i]? = some n) :
    q.gather f a b = q.gather f a i ++ (f n ++ q.gather f (i + 1) b) := by
  rw [gather_append hab (Nat.le_of_lt hib), gather_append (Nat.le_succ i) hib, gather_one h]

theorem mem_gather {x : α} :
    x ∈ q.gather f a b ↔ ∃ i n, a ≤ i ∧ i < b ∧ q.nodes[i]? = some n ∧ x ∈ f n := by
  simp only [gather, List.mem_flatMap, List.mem_range'_1]
  constructor
  · rintro ⟨i, hi, hx⟩
    cases hn : q.nodes[i]? with
    | none => simp [hn] at hx
    | some n => exact ⟨i, n, hi.1, by omega, hn, by simpa [hn] using hx⟩
  · rintro ⟨i, n, hai, hib, hn, hx⟩
    exact ⟨i, by omega, by simpa [hn] using hx⟩

end

theorem Extends.gather (h : p.Extends q) {f : Node → List α} {a b : Nat} (hb : b ≤ p.size) :
    q.gather f a b = p.gather f a b := gather_congr fun i _ hi => by rw [h.nodes i (by omega)]

/-! ### References -/

/-- The slots that are in `q` but not in `p`. -/
def slotsSince (p q : Pool) : List Slot :=
  q.gather (·.kind.slots) p.size q.size ++ q.lists.toList.drop p.lists.size

/-- The ranges of the nodes that are in `q` but not in `p`. -/
def rangesSince (p q : Pool) : List NodeRange := q.gather (·.kind.ranges) p.size q.size

/-- The number of slots that are in `q` but not in `p` and refer to a node. -/
def refs (p q : Pool) (id : NodeId) : Nat := (p.slotsSince q).count (some id)

@[simp] theorem drop_lists : q.lists.toList.drop q.lists.size = [] :=
  List.drop_eq_nil_of_le (by simp)

@[simp] theorem refs_self : refs p p id = 0 := by simp [refs, slotsSince]

theorem refs_trans (h : p.Extends q) (h' : q.Extends r) :
    refs p r id = refs p q id + refs q r id := by
  have hnodes := gather_append (q := r) (f := (·.kind.slots)) h.size_le h'.size_le
  rw [h'.gather le_rfl] at hnodes
  have hlists : r.lists.toList.drop p.lists.size =
      q.lists.toList.drop p.lists.size ++ r.lists.toList.drop q.lists.size := by
    apply List.ext_getElem?
    intro j
    have hp := h.lists_le
    rw [List.getElem?_append]
    simp only [List.getElem?_drop, List.length_drop, Array.getElem?_toList, Array.length_toList]
    split_ifs with hj
    · exact h'.lists _ (by omega)
    · congr 1
      omega
  simp only [refs, slotsSince, hnodes, hlists, List.count_append]
  omega

theorem rangesSince_trans (h : p.Extends q) (h' : q.Extends r) :
    p.rangesSince r = p.rangesSince q ++ q.rangesSince r := by
  rw [rangesSince, gather_append h.size_le h'.size_le, h'.gather le_rfl]
  rfl

@[simp] theorem refs_alloc (kind : NodeKind) (span : Span) :
    refs q (q.alloc kind span).2 id = kind.slots.count (some id) := by
  have hnodes : (q.alloc kind span).2.gather (·.kind.slots) q.size (q.size + 1) = kind.slots :=
    gather_one (q.alloc_node kind span)
  have hlists : (q.alloc kind span).2.lists = q.lists := rfl
  rw [refs, slotsSince, alloc_size, hnodes, hlists, drop_lists, List.append_nil]

@[simp] theorem rangesSince_alloc (kind : NodeKind) (span : Span) :
    q.rangesSince (q.alloc kind span).2 = kind.ranges := by
  rw [rangesSince, alloc_size]
  exact gather_one (q.alloc_node kind span)

@[simp] theorem refs_allocList (slots : List Slot) :
    refs q (q.allocList slots).2 id = slots.count (some id) := by
  simp [refs, slotsSince, allocList, size]

@[simp] theorem entries_allocList (slots : List Slot) :
    (q.allocList slots).2.entries (q.allocList slots).1 = slots := by
  simp [entries, allocList]

/-- The pool with a node changed. -/
def change (q : Pool) (i : Nat) (f : Node → Node) : Pool := { q with nodes := q.nodes.modify i f }

@[simp] theorem change_size (f : Node → Node) :
    (q.change i f).size = q.size := by simp [change, size]

@[simp] theorem change_lists (f : Node → Node) : (q.change i f).lists = q.lists := rfl

theorem change_node {j : Nat} (f : Node → Node) :
    (q.change i f).nodes[j]? = if i = j then q.nodes[j]?.map f else q.nodes[j]? := by
  simp [change, Array.getElem?_modify]

theorem change_node_self (hn : q.nodes[i]? = some n) (f : Node → Node) :
    (q.change i f).nodes[i]? = some (f n) := by
  simp [change_node, hn]

theorem change_node_ne {j : Nat} (hne : i ≠ j) (f : Node → Node) :
    (q.change i f).nodes[j]? = q.nodes[j]? := by
  rw [change_node, if_neg hne]

@[simp] theorem change_entries (f : Node → Node) (range : NodeRange) :
    (q.change i f).entries range = q.entries range := rfl

/-- A changed node refers to the new slots in place of the old ones. -/
theorem refs_change (hp : p.size ≤ i) (hn : q.nodes[i]? = some n) (f : Node → Node) :
    refs p (q.change i f) id + n.kind.slots.count (some id) =
    refs p q id + (f n).kind.slots.count (some id) := by
  have hi : i < q.size := (Array.getElem?_eq_some_iff.mp hn).1
  have hnew := change_node_self hn f
  have hbefore : (q.change i f).gather (·.kind.slots) p.size i = q.gather (·.kind.slots) p.size i :=
    gather_congr fun j _ hj => by rw [change_node_ne (by omega)]
  have hbehind : (q.change i f).gather (·.kind.slots) (i + 1) q.size =
      q.gather (·.kind.slots) (i + 1) q.size :=
    gather_congr fun j hj _ => by rw [change_node_ne (by omega)]
  simp only [refs, slotsSince, change_size, change_lists, gather_split hp hi hn, gather_split hp hi
    hnew, hbefore, hbehind, List.count_append]
  omega

/-- A change that keeps the ranges of a node keeps all ranges. -/
theorem rangesSince_change (f : Node → Node)
    (hf : ∀ n, q.nodes[i]? = some n → (f n).kind.ranges = n.kind.ranges) :
    p.rangesSince (q.change i f) = p.rangesSince q := by
  unfold rangesSince
  rw [change_size]
  apply gather_congr
  intro j _ _
  rw [change_node]
  split_ifs with hj
  · subst hj
    cases hn : q.nodes[i]? with
    | none => rfl
    | some n => simpa using hf n hn
  · rfl

/-- A node that is referred to has a parent. -/
theorem exists_child_of_refs (htiles : Tiles p.lists.size (p.rangesSince q) q.lists.size)
    (h : 0 < refs p q id) : ∃ parent, p.size ≤ parent.index ∧ q.Child parent id := by
  rw [refs, List.count_pos_iff, slotsSince, List.mem_append] at h
  rcases h with h | h
  · obtain ⟨i, n, hpi, -, hn, hslot⟩ := mem_gather.mp h
    exact ⟨⟨i⟩, hpi, n, hn, mem_slotsOf.mpr (.inl hslot)⟩
  · -- The entry lies in one of the ranges, and the node with that range is the parent.
    obtain ⟨j, hj⟩ := List.getElem?_of_mem h
    rw [List.getElem?_drop, Array.getElem?_toList] at hj
    have hlt := (Array.getElem?_eq_some_iff.mp hj).1
    obtain ⟨range, hrange, hle, hcover⟩ := htiles.cover (Nat.le_add_right _ j) hlt
    obtain ⟨i, n, hpi, -, hn, hmem⟩ := mem_gather.mp hrange
    refine ⟨⟨i⟩, hpi, n, hn, mem_slotsOf.mpr (.inr ⟨range, hmem, ?_⟩)⟩
    apply List.mem_of_getElem? (i := p.lists.size + j - range.start)
    rw [entries, List.getElem?_take, if_pos (by omega), List.getElem?_drop,
      Array.getElem?_toList, ← hj]
    congr 1
    omega

/-- The lists of a tiling hold all entries between its ends. -/
theorem flatMap_entries {start stop : Nat} {ranges : List NodeRange} (h : Tiles start ranges stop) :
    ranges.flatMap q.entries = (q.lists.toList.drop start).take (stop - start) := by
  induction ranges generalizing start with
  | nil =>
    obtain rfl : start = stop := h
    simp
  | cons range rest ih =>
    obtain ⟨hstart, hrest⟩ := h
    have hle := hrest.bounds.1
    rw [List.flatMap_cons, ih hrest, entries, hstart,
      show stop - start = range.length + (stop - (start + range.length)) by
      omega, List.take_add, List.drop_drop]

/-- The references are those in the slots of the nodes, lists included. -/
theorem refs_eq (htiles : Tiles p.lists.size (p.rangesSince q) q.lists.size) :
    refs p q id = (q.gather q.slotsOf p.size q.size).count (some id) := by
  have hlists : q.lists.toList.drop p.lists.size =
      q.gather (fun n => n.kind.ranges.flatMap q.entries) p.size q.size := by
    have hentries := flatMap_entries (q := q) htiles
    rw [List.take_of_length_le (by simp)] at hentries
    rw [← hentries, rangesSince, gather, gather, List.flatMap_assoc]
    apply List.flatMap_congr
    intro i _
    cases q.nodes[i]? <;> simp
  rw [refs, slotsSince, hlists]
  apply List.Perm.count_eq
  apply (List.flatMap_append_perm _ _ _).trans
  apply List.Perm.of_eq
  apply List.flatMap_congr
  intro i _
  cases q.nodes[i]? <;> simp [slotsOf]

theorem length_filter_le_count {f : Nat → List Slot} (is : List Nat) (s : Slot) :
    (is.filter fun i => s ∈ f i).length ≤ (is.flatMap f).count s := by
  induction is with
  | nil => simp
  | cons i rest ih =>
    rw [List.flatMap_cons, List.count_append, List.filter_cons]
    split_ifs with hi
    · have hpos : 0 < (f i).count s := List.count_pos_iff.mpr (by simpa using hi)
      rw [List.length_cons]
      omega
    · omega

/-- Every parent accounts for a reference. -/
theorem length_le_refs (htiles : Tiles p.lists.size (p.rangesSince q) q.lists.size)
    {parents : List NodeId} (hnodup : parents.Nodup) (hparents : ∀ v ∈ parents, p.size ≤ v.index ∧
      q.Child v id) :
    parents.length ≤ refs p q id := by
  rw [refs_eq htiles, ← List.length_map NodeId.index]
  refine Nat.le_trans (List.Subperm.length_le ?_) (length_filter_le_count _ _)
  apply List.Nodup.subperm
  · apply hnodup.map
    rintro ⟨i⟩ ⟨j⟩ rfl
    rfl
  · intro i hi
    obtain ⟨v, hv, rfl⟩ := List.mem_map.mp hi
    obtain ⟨hle, n, hn, hslot⟩ := hparents v hv
    have hlt : v.index < q.size := (Array.getElem?_eq_some_iff.mp hn).1
    rw [List.mem_filter, List.mem_range'_1]
    exact ⟨⟨hle, by omega⟩, by simp [hn, hslot]⟩

end Pool

end Ast

end MicroCompiler
