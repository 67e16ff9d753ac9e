import Mathlib.Data.List.ReduceOption
import MicroCompiler.Grammar.Expression
import MicroCompiler.Proofs.Ast.Graph
import MicroCompiler.Proofs.TokenEdges

/-! What a pool gained is a forest. Between two moments a pool gains nodes whose spans nest, whose
children are among the nodes gained, and whose lists tile the entries gained. Some of these nodes
are roots, which nothing refers to yet; every other one has a single reference, but for a type that
the variables of one group of names share. Forests that follow each other make one forest; a new
node takes roots as its children; a root may be changed as long as its span does not shrink; and
joining two roots by an operator makes one root of them. -/

namespace MicroCompiler

namespace Ast

open Pool (refs)

variable {src : Source} {p q r : Pool} {n : Node} {id : NodeId}

/-! ### Single nodes -/

/-- The span is a piece of the source, and the texts that the node keeps lie in it. -/
structure Sited (src : Source) (kind : NodeKind) (span : Span) : Prop where
  nonempty : span.start < span.stop
  fits : span.stop ≤ src.size
  starts : src.Edge span.start
  stops : src.Edge span.stop
  texts : ∀ s ∈ kind.spans, s.Within span

/-- The node has its place in the source, and its children are in `q` but not in `p` and lie in its
span; those of an operator lie there in order. -/
structure Settled (src : Source) (p q : Pool) (n : Node) : Prop where
  sited : Sited src n.kind n.span
  required : none ∉ n.kind.required
  entries : ∀ range ∈ n.kind.ranges, none ∉ q.entries range
  child : ∀ c, some c ∈ q.slotsOf n → p.size ≤ c.index ∧ ∃ m, q.nodes[c.index]? = some m ∧
    m.span.Inside n.span
  ordered : ∀ op left right, n.kind = .binary op (some left) (some right) → ∀ m m',
    q.nodes[left.index]? = some m → q.nodes[right.index]? = some m' → m.span.stop ≤ m'.span.start

theorem Settled.weaken (h : Settled src q r n) (hle : p.size ≤ q.size) : Settled src p r n := by
  refine ⟨h.sited, h.required, h.entries, fun c hc => ?_, h.ordered⟩
  obtain ⟨hnew, hm⟩ := h.child c hc
  exact ⟨hle.trans hnew, hm⟩

theorem slotsOf_congr (h : ∀ range ∈ n.kind.ranges, r.entries range = q.entries range) :
    r.slotsOf n = q.slotsOf n := by
  rw [Pool.slotsOf, Pool.slotsOf, List.flatMap_congr h]

/-- A node stays settled while its lists and the spans of its children do. -/
theorem Settled.congr (h : Settled src p q n)
    (hentries : ∀ range ∈ n.kind.ranges, r.entries range = q.entries range)
    (hchild : ∀ c m, some c ∈ q.slotsOf n → q.nodes[c.index]? = some m →
      ∃ m', r.nodes[c.index]? = some m' ∧ m'.span = m.span) : Settled src p r n := by
  refine ⟨h.sited, h.required, fun range hrange => ?_, fun c hc => ?_, ?_⟩
  · rw [hentries range hrange]
    exact h.entries range hrange
  · rw [slotsOf_congr hentries] at hc
    obtain ⟨hnew, m, hm, hinside⟩ := h.child c hc
    obtain ⟨m', hm', hspan⟩ := hchild c m hc hm
    exact ⟨hnew, m', hm', by rwa [hspan]⟩
  · intro op left right hkind m m' hm hm'
    have hslots : ∀ c, c = left ∨ c = right → some c ∈ q.slotsOf n := by
      intro c hc
      rw [Pool.mem_slotsOf, hkind]
      left
      rcases hc with rfl | rfl <;> simp [NodeKind.slots]
    obtain ⟨-, l, hl, -⟩ := h.child left (hslots left (.inl rfl))
    obtain ⟨-, l', hl', -⟩ := h.child right (hslots right (.inr rfl))
    obtain ⟨k, hk, hspan⟩ := hchild left l (hslots left (.inl rfl)) hl
    obtain ⟨k', hk', hspan'⟩ := hchild right l' (hslots right (.inr rfl)) hl'
    obtain rfl : k = m := Option.some.inj (hk.symm.trans hm)
    obtain rfl : k' = m' := Option.some.inj (hk'.symm.trans hm')
    rw [hspan, hspan']
    exact h.ordered op left right hkind l l' hl hl'

/-! ### Nodes gained -/

/-- The nodes that are in `q` but not in `p` are settled, and their lists tile the entries that are
in `q` but not in `p`. -/
structure Woods (src : Source) (p q : Pool) : Prop where
  grown : p.Extends q
  settled : ∀ (i : Nat) n, p.size ≤ i → q.nodes[i]? = some n → Settled src p q n
  tiles : Tiles p.lists.size (p.rangesSince q) q.lists.size

namespace Woods

theorem refl (src : Source) (p : Pool) : Woods src p p := by
  refine ⟨.refl p, fun i n hi hn => ?_, ?_⟩
  · have hlt : i < p.size := (Array.getElem?_eq_some_iff.mp hn).1
    omega
  · simp [Pool.rangesSince, Tiles]

theorem range_le (h : Woods src p q) {i : Nat} (hi : p.size ≤ i) (hn : q.nodes[i]? = some n)
    {range : NodeRange} (hrange : range ∈ n.kind.ranges) :
    range.start + range.length ≤ q.lists.size := by
  have hlt : i < q.size := (Array.getElem?_eq_some_iff.mp hn).1
  exact (h.tiles.bounds.2 range (Pool.mem_gather.mpr ⟨i, n, hi, hlt, hn, hrange⟩)).2

/-- Settled nodes stay settled when the pool grows. -/
theorem settled_of_grown (h : Woods src p q) (hgrown : q.Extends r) {i : Nat} (hi : p.size ≤ i)
    (hn : q.nodes[i]? = some n) : Settled src p r n := by
  apply (h.settled i n hi hn).congr
  · intro range hrange
    exact hgrown.entries (h.range_le hi hn hrange)
  · intro c m _ hm
    exact ⟨m, hgrown.node hm, rfl⟩

theorem trans (h : Woods src p q) (h' : Woods src q r) : Woods src p r := by
  refine ⟨h.grown.trans h'.grown, fun i n hi hn => ?_, ?_⟩
  · by_cases hlt : i < q.size
    · rw [h'.grown.nodes i hlt] at hn
      exact h.settled_of_grown h'.grown hi hn
    · exact (h'.settled i n (by omega) hn).weaken h.grown.size_le
  · rw [Pool.rangesSince_trans h.grown h'.grown]
    exact tiles_append.mpr ⟨_, h.tiles, h'.tiles⟩

/-- What a node gained has in a slot is in a slot gained. -/
theorem mem_slotsSince (h : Woods src p q) {i : Nat} (hi : p.size ≤ i) (hn : q.nodes[i]? = some n)
    {s : Slot} (hslot : s ∈ q.slotsOf n) : s ∈ p.slotsSince q := by
  have hlt : i < q.size := (Array.getElem?_eq_some_iff.mp hn).1
  rcases Pool.mem_slotsOf.mp hslot with hslot | ⟨range, hrange, hentry⟩
  · exact List.mem_append_left _ (Pool.mem_gather.mpr ⟨i, n, hi, hlt, hn, hslot⟩)
  · have hle := (h.tiles.bounds.2 range (Pool.mem_gather.mpr ⟨i, n, hi, hlt, hn, hrange⟩)).1
    have hdrop : q.lists.toList.drop range.start =
        (q.lists.toList.drop p.lists.size).drop (range.start - p.lists.size) := by
      rw [List.drop_drop]
      congr 1
      omega
    rw [Pool.entries, hdrop] at hentry
    exact List.mem_append_right _ (List.mem_of_mem_drop (List.mem_of_mem_take hentry))

theorem child_bounds (h : Woods src p q) {parent : NodeId} (hp : p.size ≤ parent.index)
    (hchild : q.Child parent id) : p.size ≤ id.index ∧ id.index < q.size := by
  obtain ⟨n, hn, hslot⟩ := hchild
  obtain ⟨hnew, m, hm, -⟩ := (h.settled _ n hp hn).child id hslot
  exact ⟨hnew, (Array.getElem?_eq_some_iff.mp hm).1⟩

/-- Nothing that was gained refers to an older node, or to one that is still to come. -/
theorem refs_eq_zero (h : Woods src p q) (hid : id.index < p.size ∨ q.size ≤ id.index) :
    refs p q id = 0 := by
  by_contra hne
  obtain ⟨parent, hp, hchild⟩ := Pool.exists_child_of_refs h.tiles (Nat.pos_of_ne_zero hne)
  have := h.child_bounds hp hchild
  omega

end Woods

/-! ### Lists -/

/-- Adds several lists of children. -/
def Pool.allocLists (q : Pool) : List (List NodeId) → List NodeRange × Pool
  | [] => ([], q)
  | ids :: rest =>
    let (range, q) := q.allocList (ids.map some)
    let (ranges, q) := q.allocLists rest
    (range :: ranges, q)

section

variable (q : Pool) (lists : List (List NodeId))

theorem allocLists_extends : q.Extends (q.allocLists lists).2 := by
  induction lists generalizing q with
  | nil => exact .refl q
  | cons ids rest ih => exact (Pool.Extends.allocList q _).trans (ih _)

@[simp] theorem allocLists_nodes : (q.allocLists lists).2.nodes = q.nodes := by
  induction lists generalizing q with
  | nil => rfl
  | cons ids rest ih => exact ih _

@[simp] theorem allocLists_size : (q.allocLists lists).2.size = q.size := by simp [Pool.size]

theorem refs_allocLists (id : NodeId) :
    refs q (q.allocLists lists).2 id = lists.flatten.count id := by
  induction lists generalizing q with
  | nil => exact Pool.refs_self
  | cons ids rest ih =>
    have hcount : (ids.map some).count (some id) = ids.count id :=
      List.count_map_of_injective ids some (Option.some_injective _) id
    rw [List.flatten_cons, List.count_append, ← hcount, ← Pool.refs_allocList (q := q), ← ih]
    exact Pool.refs_trans (Pool.Extends.allocList q _) (allocLists_extends _ rest)

theorem tiles_allocLists :
    Tiles q.lists.size (q.allocLists lists).1 (q.allocLists lists).2.lists.size := by
  induction lists generalizing q with
  | nil => rfl
  | cons ids rest ih =>
    refine ⟨rfl, ?_⟩
    have hsize : (q.allocList (ids.map some)).2.lists.size =
        q.lists.size + (ids.map some).length := by
      simp [Pool.allocList, ← Array.length_toList]
    have hrest := ih (q.allocList (ids.map some)).2
    rwa [hsize] at hrest

theorem entries_allocLists :
    (q.allocLists lists).1.map (q.allocLists lists).2.entries = lists.map (·.map some) := by
  induction lists generalizing q with
  | nil => rfl
  | cons ids rest ih =>
    simp only [Pool.allocLists, List.map_cons, ih, List.cons.injEq, and_true]
    rw [(allocLists_extends _ rest).entries, Pool.entries_allocList]
    simp [Pool.allocList, ← Array.length_toList]

end

/-- The pool with a new node, whose lists are added first. -/
def Pool.build (q : Pool) (lists : List (List NodeId)) (kind : NodeKind) (span : Span) : Pool :=
  ((q.allocLists lists).2.alloc kind span).2

section

variable {lists : List (List NodeId)} {kind : NodeKind} {span : Span}

theorem build_extends (q : Pool) (lists : List (List NodeId)) (kind : NodeKind) (span : Span) :
    q.Extends (q.build lists kind span) := (allocLists_extends q lists).trans (.alloc _ kind span)

@[simp] theorem build_size : (q.build lists kind span).size = q.size + 1 := by simp [Pool.build]

theorem build_node (q : Pool) (lists : List (List NodeId)) (kind : NodeKind) (span : Span) :
    ∃ n, (q.build lists kind span).nodes[q.size]? = some n ∧ n.kind = kind ∧ n.span = span := by
  have hnode := (q.allocLists lists).2.alloc_node kind span
  rw [allocLists_size] at hnode
  exact ⟨_, hnode, rfl, rfl⟩

/-- A node of the pool is an old one or the new one. -/
theorem build_cases {i : Nat} (hn : (q.build lists kind span).nodes[i]? = some n) :
    i < q.size ∧ q.nodes[i]? = some n ∨ i = q.size ∧ n.kind = kind ∧ n.span = span := by
  by_cases hlt : i < q.size
  · rw [(build_extends q lists kind span).nodes i hlt] at hn
    exact .inl ⟨hlt, hn⟩
  · have hbound : i < (q.build lists kind span).size := (Array.getElem?_eq_some_iff.mp hn).1
    rw [build_size] at hbound
    obtain rfl : i = q.size := by omega
    obtain ⟨n', hn', hkind, hspan⟩ := build_node q lists kind span
    obtain rfl : n' = n := Option.some.inj (hn'.symm.trans hn)
    exact .inr ⟨rfl, hkind, hspan⟩

theorem build_entries (hranges : kind.ranges = (q.allocLists lists).1) :
    kind.ranges.map (q.build lists kind span).entries = lists.map (·.map some) := by
  rw [hranges]
  exact entries_allocLists q lists

/-- The lists of a new node have no gaps. -/
theorem build_filled (hranges : kind.ranges = (q.allocLists lists).1) {range : NodeRange}
    (hrange : range ∈ kind.ranges) : none ∉ (q.build lists kind span).entries range := by
  intro hnone
  have hentry : none ∈ (kind.ranges.map (q.build lists kind span).entries).flatten :=
    List.mem_flatten.mpr ⟨_, List.mem_map_of_mem hrange, hnone⟩
  rw [build_entries hranges] at hentry
  simp at hentry

/-- The slots of a new node are those of its kind and its lists. -/
theorem mem_slotsOf_build (hranges : kind.ranges = (q.allocLists lists).1) (hn : n.kind = kind)
    {s : Slot} : s ∈ (q.build lists kind span).slotsOf n ↔ s ∈ kind.slots ∨ ∃ c ∈ lists.flatten,
    s = some c := by
  rw [Pool.slotsOf, List.mem_append, hn, List.flatMap_def, build_entries hranges]
  simp only [List.mem_flatten, List.mem_map]
  constructor
  · rintro (h | ⟨_, ⟨ids, hids, rfl⟩, h⟩)
    · exact .inl h
    · obtain ⟨c, hc, rfl⟩ := List.mem_map.mp h
      exact .inr ⟨c, ⟨ids, hids, hc⟩, rfl⟩
  · rintro (h | ⟨c, ⟨ids, hids, hc⟩, rfl⟩)
    · exact .inl h
    · exact .inr ⟨_, ⟨ids, hids, rfl⟩, List.mem_map_of_mem hc⟩

theorem refs_build (h : p.Extends q) :
    refs p (q.build lists kind span) id =
    refs p q id + (kind.slots.count (some id) + lists.flatten.count id) := by
  rw [Pool.build, Pool.refs_trans (h.trans (allocLists_extends q lists)) (.alloc _ kind span),
    Pool.refs_alloc, Pool.refs_trans h (allocLists_extends q lists), refs_allocLists]
  omega

theorem tiles_build (h : p.Extends q) (htiles : Tiles p.lists.size (p.rangesSince q) q.lists.size)
    (hranges : kind.ranges = (q.allocLists lists).1) :
    Tiles p.lists.size (p.rangesSince (q.build lists kind span))
    (q.build lists kind span).lists.size := by
  have hsince : p.rangesSince (q.build lists kind span) = p.rangesSince q ++ kind.ranges := by
    rw [Pool.build, Pool.rangesSince_trans (h.trans (allocLists_extends q lists))
      (.alloc _ kind span), Pool.rangesSince_alloc, Pool.rangesSince_trans h
      (allocLists_extends q lists)]
    have hnone : q.rangesSince (q.allocLists lists).2 = [] := by simp [Pool.rangesSince]
    rw [hnone, List.append_nil]
  rw [hsince, hranges]
  exact tiles_append.mpr ⟨_, htiles, tiles_allocLists q lists⟩

/-- A new node takes nodes gained before as its children. -/
theorem Woods.build (h : Woods src p q) (hranges : kind.ranges = (q.allocLists lists).1)
    (hsited : Sited src kind span) (hrequired : none ∉ kind.required)
    (hchild : ∀ c, some c ∈ kind.slots ∨ c ∈ lists.flatten →
      p.size ≤ c.index ∧ ∃ m, q.nodes[c.index]? = some m ∧ m.span.Inside span)
    (hordered : ∀ op left right, kind = .binary op (some left) (some right) → ∀ m m',
      q.nodes[left.index]? = some m → q.nodes[right.index]? = some m' →
      m.span.stop ≤ m'.span.start) : Woods src p (q.build lists kind span) := by
  have hgrown := build_extends q lists kind span
  refine ⟨h.grown.trans hgrown, fun i n hi hn => ?_, ?_⟩
  · rcases build_cases hn with ⟨-, hn⟩ | ⟨-, hkind, hspan⟩
    · exact h.settled_of_grown hgrown hi hn
    · refine ⟨by rwa [hkind, hspan], by rwa [hkind], fun range hrange => ?_, fun c hc => ?_, ?_⟩
      · rw [hkind] at hrange
        exact build_filled hranges hrange
      · rw [mem_slotsOf_build hranges hkind] at hc
        obtain ⟨hnew, m, hm, hinside⟩ := hchild c (by simpa using hc)
        exact ⟨hnew, m, hgrown.node hm, by rwa [hspan]⟩
      · intro op left right heq m m' hm hm'
        rw [hkind] at heq
        obtain ⟨-, l, hl, -⟩ := hchild left (.inl (by simp [heq, NodeKind.slots]))
        obtain ⟨-, l', hl', -⟩ := hchild right (.inl (by simp [heq, NodeKind.slots]))
        obtain rfl : l = m := Option.some.inj ((hgrown.node hl).symm.trans hm)
        obtain rfl : l' = m' := Option.some.inj ((hgrown.node hl').symm.trans hm')
        exact hordered op left right heq l l' hl hl'
  · exact tiles_build h.grown h.tiles hranges

end

/-- A root may be changed as long as its slots and lists stay and its span does not shrink. -/
theorem Woods.change (h : Woods src p q) {i : Nat} (hi : p.size ≤ i) (hn : q.nodes[i]? = some n)
    (hroot : refs p q ⟨i⟩ = 0)
    (f : Node → Node) (hsited : Sited src (f n).kind (f n).span) (hspan : n.span.Within (f n).span)
    (hslots : (f n).kind.slots = n.kind.slots) (hrequired : (f n).kind.required = n.kind.required)
    (hranges : (f n).kind.ranges = n.kind.ranges)
    (hbinary : ∀ op left right, (f n).kind = .binary op left right →
      n.kind = .binary op left right) :
    Woods src p (q.change i f) := by
  have hnot : ∀ (j : Nat) m, p.size ≤ j → q.nodes[j]? = some m → some ⟨i⟩ ∉ q.slotsOf m := by
    intro j m hj hm hslot
    have hpos : 0 < refs p q ⟨i⟩ := List.count_pos_iff.mpr (h.mem_slotsSince hj hm hslot)
    omega
  have hsettled : ∀ (j : Nat) m, p.size ≤ j → q.nodes[j]? = some m →
      Settled src p (q.change i f) m := by
    intro j m hj hm
    apply (h.settled j m hj hm).congr
    · exact fun range _ => rfl
    · intro c m' hc hm'
      have hne : i ≠ c.index := by
        rintro rfl
        exact hnot j m hj hm hc
      exact ⟨m', by rw [Pool.change_node_ne hne, hm'], rfl⟩
  refine ⟨h.grown.modify hi f, fun j m hj hm => ?_, ?_⟩
  · rw [Pool.change_node] at hm
    split_ifs at hm with heq
    · subst heq
      rw [hn] at hm
      obtain rfl : f n = m := by simpa using hm
      have hself := hsettled i n hi hn
      have hslotsOf : (q.change i f).slotsOf (f n) = (q.change i f).slotsOf n := by
        simp only [Pool.slotsOf, hslots, hranges]
      refine ⟨hsited, by rw [hrequired]; exact hself.required, by rw [hranges]; exact hself.entries,
        fun c hc => ?_, ?_⟩
      · rw [hslotsOf] at hc
        obtain ⟨hnew, m', hm', hinside⟩ := hself.child c hc
        refine ⟨hnew, m', hm', ?_⟩
        unfold Span.Inside Span.Within at *
        omega
      · intro op left right hkind
        exact hself.ordered op left right (hbinary _ _ _ hkind)
    · exact hsettled j m hj hm
  · rw [Pool.rangesSince_change f fun m hm => by
      obtain rfl : n = m := Option.some.inj (hn.symm.trans hm)
      exact hranges]
    exact h.tiles

/-! ### Types that variables share -/

namespace NodeKind

/-- The type of a variable that has one. -/
def variableType? : NodeKind → Option NodeId
  | .var _ type _ => type
  | _ => none

/-- What matters of a node to those that share a type: whether it is a type, whose variable it is,
and which variables are listed in it. -/
def role (kind : NodeKind) : Bool × Option NodeId × Option NodeRange :=
  (kind.isType, kind.variableType?, kind.variables?)

end NodeKind

/-- Every node keeps its role. -/
def Pool.Keeps (q r : Pool) : Prop :=
  ∀ (i : Nat) n, q.nodes[i]? = some n → ∃ n', r.nodes[i]? = some n' ∧ n'.kind.role = n.kind.role

theorem Pool.Extends.keeps (h : q.Extends r) : q.Keeps r := by
  exact fun i n hn => ⟨n, h.node hn, rfl⟩

/-- A type and the variables that have it. -/
structure Group where
  type : NodeId
  vars : List NodeId

/-- The type came with `q`, and the slots that refer to it are those of the variables. -/
structure Group.Holds (g : Group) (p q : Pool) : Prop where
  new : p.size ≤ g.type.index
  type : ∃ n, q.nodes[g.type.index]? = some n ∧ n.kind.isType = true
  vars : ∀ v ∈ g.vars, p.size ≤ v.index ∧ ∃ n, q.nodes[v.index]? = some n ∧
    n.kind.variableType? = some g.type
  nodup : g.vars.Nodup
  refs : refs p q g.type = g.vars.length

theorem Group.Holds.congr {g : Group} (h : g.Holds p q) (hkeeps : q.Keeps r)
    (hrefs : Pool.refs p r g.type = Pool.refs p q g.type) : g.Holds p r := by
  refine ⟨h.new, ?_, fun v hv => ?_, h.nodup, hrefs.trans h.refs⟩
  · obtain ⟨n, hn, htype⟩ := h.type
    obtain ⟨n', hn', hrole⟩ := hkeeps _ n hn
    exact ⟨n', hn', (congrArg Prod.fst hrole).trans htype⟩
  · obtain ⟨hle, n, hn, htype⟩ := h.vars v hv
    obtain ⟨n', hn', hrole⟩ := hkeeps _ n hn
    exact ⟨hle, n', hn', (congrArg (·.2.1) hrole).trans htype⟩

/-- The variables stand next to each other in the variables of one definition or the parameters of
one function. -/
def Pool.Listed (q : Pool) (vars : List NodeId) : Prop :=
  ∃ (i : Nat) (n : Node) (range : NodeRange), q.nodes[i]? = some n ∧
    n.kind.variables? = some range ∧ range.start + range.length ≤ q.lists.size ∧
    vars.map some <:+: q.entries range

/-- A type that the variables of one group of names share. -/
def Pool.Shared (p q : Pool) (id : NodeId) : Prop :=
  ∃ vars, vars ≠ [] ∧ Group.Holds ⟨id, vars⟩ p q ∧ q.Listed vars

theorem Pool.Listed.congr {vars : List NodeId} (h : q.Listed vars) (hkeeps : q.Keeps r)
    (hle : q.lists.size ≤ r.lists.size) (hlists : ∀ i < q.lists.size, r.lists[i]? = q.lists[i]?) :
    r.Listed vars := by
  obtain ⟨i, n, range, hn, hrange, hfits, hinfix⟩ := h
  obtain ⟨n', hn', hrole⟩ := hkeeps i n hn
  refine ⟨i, n', range, hn', (congrArg (·.2.2) hrole).trans hrange, hfits.trans hle, ?_⟩
  have hentries : r.entries range = q.entries range := by
    apply List.ext_getElem?
    intro j
    simp only [Pool.entries, List.getElem?_take, List.getElem?_drop, Array.getElem?_toList]
    split_ifs with hj
    · exact hlists _ (by omega)
    · rfl
  rwa [hentries]

theorem Pool.Shared.congr (h : p.Shared q id) (hkeeps : q.Keeps r)
    (hle : q.lists.size ≤ r.lists.size) (hlists : ∀ i < q.lists.size, r.lists[i]? = q.lists[i]?)
    (hrefs : refs p r id = refs p q id) : p.Shared r id := by
  obtain ⟨vars, hne, hholds, hlisted⟩ := h
  exact ⟨vars, hne, hholds.congr hkeeps hrefs, hlisted.congr hkeeps hle hlists⟩

theorem Pool.Shared.refs_pos (h : p.Shared q id) : 0 < refs p q id := by
  obtain ⟨vars, hne, hholds, -⟩ := h
  rw [hholds.refs]
  exact List.length_pos_iff.mpr hne

/-! ### Forests -/

/-- Every node that `q` gained is a root, which nothing gained refers to, or has its place in a
single slot, or is a type that variables share. The types of the groups are not placed yet: their
variables are still to be listed. -/
structure Placed (p q : Pool) (roots : List NodeId) (groups : List Group) : Prop where
  nodup : roots.Nodup
  root : ∀ id ∈ roots, p.size ≤ id.index ∧ id.index < q.size ∧ refs p q id = 0
  group : ∀ g ∈ groups, g.Holds p q ∧ g.type ∉ roots
  placed : ∀ id : NodeId, p.size ≤ id.index → id.index < q.size →
    id ∈ roots ∨ refs p q id = 1 ∨ (∃ g ∈ groups, g.type = id) ∨ p.Shared q id

/-- What `q` gained is a forest with these roots. -/
structure Forest (src : Source) (p q : Pool) (roots : List NodeId) (groups : List Group) : Prop
    extends Woods src p q, Placed p q roots groups

variable {roots roots' : List NodeId} {groups groups' : List Group}

/-- The pool gains a node. Of this node and the former roots, some are taken by a single slot each,
and the others are the roots now; types of groups may be referred to more often. -/
theorem Placed.grow (h : Placed p q roots groups) (hbase : p.size ≤ q.size)
    (hfresh : refs p q ⟨q.size⟩ = 0) {taken : List NodeId}
    (hroots : (⟨q.size⟩ :: roots).Perm (taken ++ roots')) (hsize : r.size = q.size + 1)
    (hkeeps : q.Keeps r) (hle : q.lists.size ≤ r.lists.size)
    (hlists : ∀ i < q.lists.size, r.lists[i]? = q.lists[i]?)
    (hgroups : ∀ g ∈ groups', g.Holds p r ∧ g.type ∉ roots')
    (htypes : ∀ g ∈ groups, ∃ g' ∈ groups', g'.type = g.type)
    (hrefs : ∀ id, (∀ g ∈ groups', g.type ≠ id) → refs p r id = refs p q id + taken.count id) :
    Placed p r roots' groups' := by
  have hroot : ∀ id ∈ (⟨q.size⟩ :: roots : List NodeId), p.size ≤ id.index ∧ id.index < r.size ∧
      refs p q id = 0 := by
    intro id hid
    rcases List.mem_cons.mp hid with rfl | hid
    · exact ⟨hbase, by simp [hsize], hfresh⟩
    · obtain ⟨hle, hlt, hzero⟩ := h.root id hid
      exact ⟨hle, by omega, hzero⟩
  have hnodup : (taken ++ roots').Nodup := by
    refine hroots.nodup_iff.mp (List.nodup_cons.mpr ⟨fun hmem => ?_, h.nodup⟩)
    have hlt := (h.root _ hmem).2.1
    simp at hlt
  obtain ⟨htaken, hroots', hapart⟩ := List.nodup_append.mp hnodup
  -- What is not taken keeps its references.
  have hother : ∀ id, (∀ g ∈ groups', g.type ≠ id) → id ∉ taken → refs p r id = refs p q id := by
    intro id hne hid
    rw [hrefs id hne, List.count_eq_zero.mpr hid, Nat.add_zero]
  have hreferred : ∀ id : NodeId, 0 < refs p q id → id ∉ taken := by
    intro id hpos hmem
    have hzero := (hroot id (hroots.mem_iff.mpr (List.mem_append_left _ hmem))).2.2
    omega
  refine ⟨hroots', fun id hid => ?_, hgroups, fun id hnew hlt => ?_⟩
  · obtain ⟨hnew, hlt, hzero⟩ := hroot id (hroots.mem_iff.mpr (List.mem_append_right _ hid))
    refine ⟨hnew, hlt, ?_⟩
    rw [hother id ?_ fun hmem => hapart id hmem id hid rfl, hzero]
    rintro g hg rfl
    exact (hgroups g hg).2 hid
  · by_cases hgroup : ∃ g ∈ groups', g.type = id
    · exact .inr (.inr (.inl hgroup))
    have hne : ∀ g ∈ groups', g.type ≠ id := fun g hg heq => hgroup ⟨g, hg, heq⟩
    by_cases hid : id ∈ (⟨q.size⟩ :: roots : List NodeId)
    · rcases List.mem_append.mp (hroots.mem_iff.mp hid) with hmem | hmem
      · refine .inr (.inl ?_)
        rw [hrefs id hne, (hroot id hid).2.2, List.count_eq_one_of_mem htaken hmem]
      · exact .inl hmem
    have hold : id.index ≠ q.size := by
      rintro heq
      exact hid (List.mem_cons.mpr (.inl (by cases id; simp_all)))
    rcases h.placed id hnew (by omega) with hmem | hone | ⟨g, hg, rfl⟩ | hshared
    · exact absurd (List.mem_cons_of_mem _ hmem) hid
    · exact .inr (.inl ((hother id hne (hreferred id (by omega))).trans hone))
    · exact absurd (htypes g hg) hgroup
    · have hsame := hother id hne (hreferred id hshared.refs_pos)
      exact .inr (.inr (.inr (hshared.congr hkeeps hle hlists hsame)))

namespace Forest

theorem nil (src : Source) (p : Pool) : Forest src p p [] [] where
  toWoods := .refl src p
  nodup := .nil
  root := by simp
  group := by simp
  placed id hle hlt := by omega

theorem perm (h : Forest src p q roots groups) (hperm : roots.Perm roots') :
    Forest src p q roots' groups where
  toWoods := h.toWoods
  nodup := hperm.nodup_iff.mp h.nodup
  root id hid := h.root id (hperm.mem_iff.mpr hid)
  group g hg := ⟨(h.group g hg).1, fun hmem => (h.group g hg).2 (hperm.mem_iff.mpr hmem)⟩
  placed id hle hlt := (h.placed id hle hlt).imp_left hperm.mem_iff.mp

/-- One forest after the other. -/
theorem append (h : Forest src p q roots groups) (h' : Forest src q r roots' groups') :
    Forest src p r (roots ++ roots') (groups ++ groups') := by
  have hgrown := h.grown
  have hgrown' := h'.grown
  have hrefs : ∀ id : NodeId, refs p r id = refs p q id + refs q r id :=
    fun id => Pool.refs_trans hgrown hgrown'
  have hold : ∀ id : NodeId, id.index < q.size → refs p r id = refs p q id := by
    intro id hid
    rw [hrefs, h'.refs_eq_zero (.inl hid), Nat.add_zero]
  have hnew : ∀ id : NodeId, q.size ≤ id.index → refs p r id = refs q r id := by
    intro id hid
    rw [hrefs, h.refs_eq_zero (.inr hid), Nat.zero_add]
  have hlater : ∀ {g : Group}, g.Holds q r → g.Holds p r := fun hg =>
    ⟨hgrown.size_le.trans hg.new, hg.type, fun v hv => (hg.vars v hv).imp_left hgrown.size_le.trans,
      hg.nodup, (hnew _ hg.new).trans hg.refs⟩
  refine ⟨h.toWoods.trans h'.toWoods, ?_, ?_, ?_, ?_⟩
  · refine List.nodup_append.mpr ⟨h.nodup, h'.nodup, ?_⟩
    rintro a ha b hb rfl
    have := h.root a ha
    have := h'.root a hb
    omega
  · intro id hid
    rcases List.mem_append.mp hid with hid | hid
    · obtain ⟨hle, hlt, hzero⟩ := h.root id hid
      exact ⟨hle, hlt.trans_le hgrown'.size_le, (hold id hlt).trans hzero⟩
    · obtain ⟨hle, hlt, hzero⟩ := h'.root id hid
      exact ⟨hgrown.size_le.trans hle, hlt, (hnew id hle).trans hzero⟩
  · intro g hg
    rcases List.mem_append.mp hg with hg | hg
    · obtain ⟨hholds, hnot⟩ := h.group g hg
      obtain ⟨n, hn, -⟩ := hholds.type
      have hlt : g.type.index < q.size := (Array.getElem?_eq_some_iff.mp hn).1
      refine ⟨hholds.congr hgrown'.keeps (hold _ hlt), fun hmem => ?_⟩
      rcases List.mem_append.mp hmem with hmem | hmem
      · exact hnot hmem
      · have := h'.root _ hmem
        omega
    · obtain ⟨hholds, hnot⟩ := h'.group g hg
      refine ⟨hlater hholds, fun hmem => ?_⟩
      rcases List.mem_append.mp hmem with hmem | hmem
      · have := h.root _ hmem
        have := hholds.new
        omega
      · exact hnot hmem
  · intro id hle hlt
    by_cases hid : id.index < q.size
    · rcases h.placed id hle hid with hroot | hone | ⟨g, hg, hgid⟩ | hshared
      · exact .inl (List.mem_append_left _ hroot)
      · exact .inr (.inl ((hold id hid).trans hone))
      · exact .inr (.inr (.inl ⟨g, List.mem_append_left _ hg, hgid⟩))
      · exact .inr (.inr (.inr (hshared.congr hgrown'.keeps hgrown'.lists_le hgrown'.lists
          (hold id hid))))
    · rcases h'.placed id (by omega) hlt with hroot | hone | ⟨g, hg, hgid⟩ |
        ⟨vars, hne, hholds, hlisted⟩
      · exact .inl (List.mem_append_right _ hroot)
      · exact .inr (.inl ((hnew id (by omega)).trans hone))
      · exact .inr (.inr (.inl ⟨g, List.mem_append_right _ hg, hgid⟩))
      · exact .inr (.inr (.inr ⟨vars, hne, hlater hholds, hlisted⟩))

/-- A root that is a type may wait for its variables. -/
theorem await {t : NodeId} (h : Forest src p q (t :: roots) []) (ht : q.nodes[t.index]? = some n)
    (htype : n.kind.isType = true) : Forest src p q roots [⟨t, []⟩] := by
  obtain ⟨hle, -, hzero⟩ := h.root t (by simp)
  obtain ⟨hnot, hnodup⟩ := List.nodup_cons.mp h.nodup
  refine ⟨h.toWoods, hnodup, fun id hid => h.root id (by simp [hid]), ?_, ?_⟩
  · intro g hg
    obtain rfl := List.mem_singleton.mp hg
    exact ⟨⟨hle, ⟨n, ht, htype⟩, by simp, .nil, hzero⟩, hnot⟩
  · intro id hle hlt
    rcases h.placed id hle hlt with hroot | hone | ⟨g, hg, -⟩ | hshared
    · rcases List.mem_cons.mp hroot with rfl | hroot
      · exact .inr (.inr (.inl ⟨_, List.mem_singleton_self _, rfl⟩))
      · exact .inl hroot
    · exact .inr (.inl hone)
    · cases hg
    · exact .inr (.inr (.inr hshared))

/-- A group is placed once its variables are listed. -/
theorem place (h : Forest src p q roots groups)
    (hlisted : ∀ g ∈ groups, g.vars ≠ [] ∧ q.Listed g.vars) :
    Forest src p q roots [] := by
  refine ⟨h.toWoods, h.nodup, h.root, by simp, fun id hle hlt => ?_⟩
  rcases h.placed id hle hlt with hroot | hone | ⟨g, hg, rfl⟩ | hshared
  · exact .inl hroot
  · exact .inr (.inl hone)
  · exact .inr (.inr (.inr ⟨g.vars, (hlisted g hg).1, (h.group g hg).1, (hlisted g hg).2⟩))
  · exact .inr (.inr (.inr hshared))

/-! ### New nodes -/

theorem count_reduceOption (slots : List Slot) (id : NodeId) :
    slots.count (some id) = slots.reduceOption.count id := by
  induction slots with
  | nil => rfl
  | cons s rest ih =>
    cases s with
    | none => simpa [List.count_cons] using ih
    | some c => simp [List.count_cons, ih]

section

variable {lists : List (List NodeId)} {taken ids rest : List NodeId} {kind : NodeKind} {span : Span}

/-- The pool gains a node, and some of the roots are taken. -/
theorem grow (h : Forest src p q roots groups) (hroots : (⟨q.size⟩ :: roots).Perm (taken ++ roots'))
    (hwoods : Woods src p r) (hsize : r.size = q.size + 1) (hkeeps : q.Keeps r)
    (hle : q.lists.size ≤ r.lists.size) (hlists : ∀ i < q.lists.size, r.lists[i]? = q.lists[i]?)
    (hgroups : ∀ g ∈ groups', g.Holds p r ∧ g.type ∉ roots')
    (htypes : ∀ g ∈ groups, ∃ g' ∈ groups', g'.type = g.type)
    (hrefs : ∀ id, (∀ g ∈ groups', g.type ≠ id) → refs p r id = refs p q id + taken.count id) :
    Forest src p r roots' groups' :=
  ⟨hwoods, h.toPlaced.grow h.grown.size_le (h.refs_eq_zero (.inr le_rfl)) hroots hsize
    hkeeps hle hlists hgroups htypes hrefs⟩

/-- A root is a node that was gained. -/
theorem node_of_root (h : Forest src p q roots groups) (hid : id ∈ roots) :
    p.size ≤ id.index ∧ ∃ m, q.nodes[id.index]? = some m := by
  obtain ⟨hle, hlt, -⟩ := h.root id hid
  exact ⟨hle, _, Array.getElem?_eq_getElem hlt⟩

/-- The type of a group is a node that was gained, and no root. -/
theorem type_of_group (h : Forest src p q roots groups) {g : Group} (hg : g ∈ groups) :
    p.size ≤ g.type.index ∧ g.type.index < q.size ∧ g.type ∉ roots := by
  obtain ⟨hholds, hnot⟩ := h.group g hg
  obtain ⟨n, hn, -⟩ := hholds.type
  exact ⟨hholds.new, (Array.getElem?_eq_some_iff.mp hn).1, hnot⟩

theorem not_mem_new_cons (hlt : id.index < q.size) (hrest : id ∉ rest) :
    id ∉ (⟨q.size⟩ :: rest : List NodeId) := by
  intro hmem
  rcases List.mem_cons.mp hmem with rfl | hmem
  · simp at hlt
  · exact hrest hmem

/-- A new node takes roots as its children. -/
theorem build (h : Forest src p q roots groups) (hroots : roots.Perm (ids ++ lists.flatten ++ rest))
    (hslots : kind.slots.reduceOption = ids) (hranges : kind.ranges = (q.allocLists lists).1)
    (hrequired : none ∉ kind.required) (hbinary : ∀ op left right, kind ≠ .binary op left right)
    (hsited : Sited src kind span)
    (hinside : ∀ id ∈ ids ++ lists.flatten, ∀ m, q.nodes[id.index]? = some m → m.span.Inside span) :
    Forest src p (q.build lists kind span) (⟨q.size⟩ :: rest) groups := by
  have h := h.perm hroots
  have hgrown := build_extends q lists kind span
  have hrefs : ∀ id : NodeId,
      refs p (q.build lists kind span) id = refs p q id + (ids ++ lists.flatten).count id := by
    intro id
    rw [refs_build h.grown, count_reduceOption, hslots, List.count_append]
  apply h.grow List.perm_middle.symm _ build_size hgrown.keeps hgrown.lists_le hgrown.lists
  · intro g hg
    obtain ⟨-, hlt, hnot⟩ := h.type_of_group hg
    refine ⟨(h.group g hg).1.congr hgrown.keeps ?_, ?_⟩
    · rw [hrefs, List.count_eq_zero.mpr fun hmem => hnot (List.mem_append_left _ hmem),
        Nat.add_zero]
    · exact not_mem_new_cons hlt fun hmem => hnot (List.mem_append_right _ hmem)
  · exact fun g hg => ⟨g, hg, rfl⟩
  · exact fun id _ => hrefs id
  · refine h.toWoods.build hranges hsited hrequired (fun c hc => ?_) fun op left right heq =>
      absurd heq (hbinary _ _ _)
    have hmem : c ∈ ids ++ lists.flatten := by
      rcases hc with hc | hc
      · rw [← hslots]
        exact List.mem_append_left _ (List.reduceOption_mem_iff.mpr hc)
      · exact List.mem_append_right _ hc
    obtain ⟨hle, m, hm⟩ := h.node_of_root (List.mem_append_left _ hmem)
    exact ⟨hle, m, hm, hinside c hmem m hm⟩

/-- A new variable has the type of its group, and perhaps an initializer. -/
theorem declare {t : NodeId} {vars : List NodeId} {name : Span} {init : Slot}
    (h : Forest src p q roots [⟨t, vars⟩]) (hroots : roots.Perm (init.toList ++ rest))
    (hsited : Sited src (.var name (some t) init) span)
    (hinside : ∀ id ∈ t :: init.toList, ∀ m, q.nodes[id.index]? = some m → m.span.Inside span) :
    Forest src p (q.build [] (.var name (some t) init) span) (⟨q.size⟩ :: rest)
    [⟨t, vars ++ [⟨q.size⟩]⟩] := by
  have h := h.perm hroots
  have hgrown := build_extends q [] (.var name (some t) init) span
  obtain ⟨hnew, htlt, hnot⟩ := h.type_of_group (List.mem_singleton_self _)
  obtain ⟨hholds, -⟩ := h.group _ (List.mem_singleton_self _)
  simp only at hnew htlt hnot
  have hslots : (NodeKind.var name (some t) init).slots.reduceOption = t :: init.toList := by
    cases init <;> rfl
  have hrefs : ∀ id : NodeId, refs p (q.build [] (.var name (some t) init) span) id =
      refs p q id + (t :: init.toList).count id := by
    intro id
    rw [refs_build h.grown, count_reduceOption, hslots]
    rfl
  apply h.grow List.perm_middle.symm _ build_size hgrown.keeps hgrown.lists_le hgrown.lists
  · intro g hg
    obtain rfl := List.mem_singleton.mp hg
    refine ⟨⟨hnew, ?_, fun v hv => ?_, ?_, ?_⟩, not_mem_new_cons htlt fun hmem =>
      hnot (List.mem_append_right _ hmem)⟩
    · obtain ⟨m, hm, htype⟩ := hholds.type
      exact ⟨m, hgrown.node hm, htype⟩
    · rcases List.mem_append.mp hv with hv | hv
      · obtain ⟨hle, m, hm, htype⟩ := hholds.vars v hv
        exact ⟨hle, m, hgrown.node hm, htype⟩
      · obtain rfl := List.mem_singleton.mp hv
        obtain ⟨m, hm, hkind, -⟩ := build_node q [] (.var name (some t) init) span
        exact ⟨h.grown.size_le, m, hm, by rw [hkind]; rfl⟩
    · refine List.nodup_append.mpr ⟨hholds.nodup, by simp, ?_⟩
      rintro a ha b hb rfl
      obtain rfl := List.mem_singleton.mp hb
      obtain ⟨-, m, hm, -⟩ := hholds.vars _ ha
      have hlt : q.size < q.size := (Array.getElem?_eq_some_iff.mp hm).1
      omega
    · have hzero : init.toList.count t = 0 := List.count_eq_zero.mpr fun hmem =>
        hnot (List.mem_append_left _ hmem)
      have hbefore := hholds.refs
      simp only [hrefs, List.count_cons_self, hzero, List.length_append,
        List.length_singleton] at hbefore ⊢
      omega
  · intro g hg
    obtain rfl := List.mem_singleton.mp hg
    exact ⟨_, List.mem_singleton_self _, rfl⟩
  · intro id hne
    rw [hrefs, List.count_cons_of_ne (hne _ (List.mem_singleton_self _))]
  · refine h.toWoods.build rfl hsited (by simp [NodeKind.required]) (fun c hc => ?_) (by simp)
    have hmem : c ∈ t :: init.toList := by
      rw [← hslots]
      exact List.reduceOption_mem_iff.mpr (by simpa using hc)
    have hnode : p.size ≤ c.index ∧ ∃ m, q.nodes[c.index]? = some m := by
      rcases List.mem_cons.mp hmem with rfl | hmem
      · exact ⟨hnew, _, Array.getElem?_eq_getElem htlt⟩
      · exact h.node_of_root (List.mem_append_left _ hmem)
    obtain ⟨hle, m, hm⟩ := hnode
    exact ⟨hle, m, hm, hinside c hmem m hm⟩

end

/-- A root may be changed as long as its slots, lists and role stay and its span does not shrink. -/
theorem change (h : Forest src p q roots groups) {root : NodeId} (hroot : root ∈ roots)
    (hn : q.nodes[root.index]? = some n) (f : Node → Node)
    (hsited : Sited src (f n).kind (f n).span) (hspan : n.span.Within (f n).span)
    (hslots : (f n).kind.slots = n.kind.slots) (hrequired : (f n).kind.required = n.kind.required)
    (hranges : (f n).kind.ranges = n.kind.ranges)
    (hrole : (f n).kind.role = n.kind.role)
    (hbinary : ∀ op left right, (f n).kind = .binary op left right →
      n.kind = .binary op left right) :
    Forest src p (q.change root.index f) roots groups := by
  obtain ⟨hle, hlt, hzero⟩ := h.root root hroot
  have hrefs : ∀ id : NodeId, refs p (q.change root.index f) id = refs p q id := by
    intro id
    have hcount : _ = refs p q id + _ := Pool.refs_change hle hn f
    rw [hslots] at hcount
    omega
  have hkeeps : q.Keeps (q.change root.index f) := by
    intro i m hm
    by_cases heq : root.index = i
    · subst heq
      obtain rfl : n = m := Option.some.inj (hn.symm.trans hm)
      exact ⟨f n, Pool.change_node_self hn f, hrole⟩
    · exact ⟨m, by rw [Pool.change_node_ne heq, hm], rfl⟩
  refine ⟨h.toWoods.change hle hn hzero f hsited hspan hslots hrequired hranges hbinary,
    h.nodup, ?_, ?_, ?_⟩
  · intro id hid
    rw [hrefs, Pool.change_size]
    exact h.root id hid
  · intro g hg
    obtain ⟨hholds, hnot⟩ := h.group g hg
    exact ⟨hholds.congr hkeeps (hrefs _), hnot⟩
  · intro id hid hbound
    rw [Pool.change_size] at hbound
    rw [hrefs]
    rcases h.placed id hid hbound with hroot | hone | hgroup | hshared
    · exact .inl hroot
    · exact .inr (.inl hone)
    · exact .inr (.inr (.inl hgroup))
    · exact .inr (.inr (.inr (hshared.congr hkeeps le_rfl (fun _ _ => rfl) (hrefs id))))

end Forest

end Ast

end MicroCompiler
