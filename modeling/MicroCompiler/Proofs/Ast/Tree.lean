import Mathlib.Data.Finset.Card
import MicroCompiler.Ast.Outline
import MicroCompiler.Proofs.Ast.Grove

/-! Whole trees. A pool that grew from nothing into a forest with a single root is a tree: spans
shrink from a parent to its children, so no path comes back to where it was, every node has a path
from the root, and its outline can be written with as many levels as there are nodes. -/

namespace MicroCompiler

/-- The offset is an end of the source or stands next to an ASCII byte. -/
def Source.Cuts (src : Source) (offset : Nat) : Prop :=
  offset = 0 ∨ offset = src.size ∨ src.Edge offset

namespace Ast

open Pool (refs)

variable {src : Source} {p q : Pool} {n : Node} {id root : NodeId} {ids : List NodeId}

/-! ### Trees -/

namespace Pool

/-- The number of slots that refer to a node, those in lists included. -/
def references (q : Pool) (id : NodeId) : Nat := (q.gather q.slotsOf 0 q.size).count (some id)

/-- The type of one group of names: all slots that refer to it are those of variables that stand
next to each other in one definition or in the parameters of one function. -/
def IsShared (q : Pool) (id : NodeId) : Prop :=
  (∃ n, q.nodes[id.index]? = some n ∧ n.kind.isType = true) ∧ ∃ vars : List NodeId, vars ≠ [] ∧
    vars.Nodup ∧ (∀ v ∈ vars, ∃ n, q.nodes[v.index]? = some n ∧ n.kind.variableType? = some id) ∧
    q.references id = vars.length ∧ q.Listed vars

/-- The pool is a tree: only optional slots are empty and all others refer to nodes of the pool, no
node is below itself, every node is below the root, the lists of the nodes fill the list table one
behind the other, and every node but the root is referred to once, unless it is the type of a group
of names. -/
structure IsTree (q : Pool) (root : NodeId) : Prop where
  top : root.index < q.size ∧ q.references root = 0
  filled : ∀ n ∈ q.nodes, none ∉ n.kind.required ∧ ∀ range ∈ n.kind.ranges, none ∉ q.entries range
  valid : ∀ parent child, q.Child parent child → child.index < q.size
  acyclic : ∀ id, ¬ Relation.TransGen q.Child id id
  reachable : ∀ id : NodeId, id.index < q.size → Relation.ReflTransGen q.Child root id
  tiles : Tiles 0 (q.gather (·.kind.ranges) 0 q.size) q.lists.size
  unique : ∀ id : NodeId, id.index < q.size → id ≠ root → q.references id = 1 ∨ q.IsShared id

end Pool

/-! ### Nesting -/

/-- The node is a piece of the source, the texts that it keeps are pieces of it, and so are its
children; the operands of an operator come in order. -/
structure Nested (src : Source) (q : Pool) (n : Node) : Prop where
  ends : n.span.start ≤ n.span.stop ∧ n.span.stop ≤ src.size
  texts : ∀ s ∈ n.kind.spans, s.Within n.span
  child : ∀ c, some c ∈ q.slotsOf n → ∃ m, q.nodes[c.index]? = some m ∧ m.span.Within n.span
  operands : ∀ op left right, n.kind = .binary op left right →
    ∃ m m', q.get left = .ok m ∧ q.get right = .ok m' ∧ m.span.stop ≤ m'.span.start

theorem Sited.cuts {kind : NodeKind} {span : Span} (h : Sited src kind span) :
    src.Cuts span.start ∧ src.Cuts span.stop := ⟨.inr (.inr h.starts), .inr (.inr h.stops)⟩

theorem Settled.nested (h : Settled src p q n) : Nested src q n := by
  have hchild : ∀ c, some c ∈ q.slotsOf n → ∃ m, q.nodes[c.index]? = some m ∧
      m.span.Within n.span := by
    intro c hc
    obtain ⟨-, m, hm, hinside⟩ := h.child c hc
    exact ⟨m, hm, hinside.1⟩
  refine ⟨⟨h.sited.nonempty.le, h.sited.fits⟩, h.sited.texts, hchild, ?_⟩
  intro op left right hkind
  have hrequired := h.required
  simp only [hkind, NodeKind.required, NodeKind.slots, List.mem_cons, List.not_mem_nil, or_false,
    not_or] at hrequired
  obtain ⟨l, rfl⟩ := Option.ne_none_iff_exists'.mp (Ne.symm hrequired.1)
  obtain ⟨r, rfl⟩ := Option.ne_none_iff_exists'.mp (Ne.symm hrequired.2)
  obtain ⟨m, hm, -⟩ := hchild l (Pool.mem_slotsOf.mpr (.inl (by simp [hkind])))
  obtain ⟨m', hm', -⟩ := hchild r (Pool.mem_slotsOf.mpr (.inl (by simp [hkind])))
  exact ⟨m, m', Pool.get_eq hm, Pool.get_eq hm', h.ordered op l r hkind m m' hm hm'⟩

/-- The pool `q` grew from the empty pool `p` to a single root, and below the root spans shrink. -/
structure Rooted (src : Source) (p q : Pool) (root : NodeId) : Prop where
  nodes_empty : p.size = 0
  lists_empty : p.lists.size = 0
  nested : ∀ (i : Nat) n, q.nodes[i]? = some n → Nested src q n
  cuts : ∀ (i : Nat) n, q.nodes[i]? = some n → src.Cuts n.span.start ∧ src.Cuts n.span.stop
  filled : ∀ (i : Nat) n, q.nodes[i]? = some n →
    none ∉ n.kind.required ∧ ∀ range ∈ n.kind.ranges, none ∉ q.entries range
  shrinks : ∀ (i : Nat) n, q.nodes[i]? = some n → i ≠ root.index → ∀ c m, some c ∈ q.slotsOf n →
    q.nodes[c.index]? = some m → m.span.Inside n.span
  tiles : Tiles p.lists.size (p.rangesSince q) q.lists.size
  placed : Placed p q [root] []

theorem Forest.rooted (h : Forest src p q [root] []) (hnodes : p.size = 0)
    (hlists : p.lists.size = 0) : Rooted src p q root := by
  refine ⟨hnodes, hlists, fun i n hn => ?_, fun i n hn => ?_, fun i n hn => ?_,
    fun i n hn _ c m hc hm => ?_, h.tiles, h.toPlaced⟩
  · exact (h.settled i n (by omega) hn).nested
  · exact (h.settled i n (by omega) hn).sited.cuts
  · have hsettled := h.settled i n (by omega) hn
    exact ⟨hsettled.required, hsettled.entries⟩
  · obtain ⟨-, m', hm', hinside⟩ := (h.settled i n (by omega) hn).child c hc
    obtain rfl : m' = m := Option.some.inj (hm'.symm.trans hm)
    exact hinside

/-- The node of a file spans the whole source, be it larger than the declarations in it or not. -/
theorem Forest.rooted_file (h : Forest src p q ids []) (hnodes : p.size = 0)
    (hlists : p.lists.size = 0) :
    Rooted src p (q.build [ids] (.file (q.allocList (ids.map some)).1) ⟨0, src.size⟩) ⟨q.size⟩ := by
  have hfile : (NodeKind.file (q.allocList (ids.map some)).1).ranges = (q.allocLists [ids]).1 := rfl
  have hgrown := build_extends q [ids] (.file (q.allocList (ids.map some)).1) ⟨0, src.size⟩
  refine ⟨hnodes, hlists, fun i n hn => ?_, fun i n hn => ?_, fun i n hn => ?_,
    fun i n hn hi c m hc hm => ?_, tiles_build h.grown h.tiles hfile, ?_⟩
  · rcases build_cases hn with ⟨-, hn⟩ | ⟨-, hkind, hspan⟩
    · exact (h.settled_of_grown hgrown (by omega) hn).nested
    · refine ⟨by simp [hspan], by simp [hkind], fun c hc => ?_, ?_⟩
      · rw [mem_slotsOf_build hfile hkind] at hc
        obtain ⟨hle, m, hm⟩ := h.node_of_root (by simpa using hc : c ∈ ids)
        have hsited := (h.settled _ m hle hm).sited
        rw [hspan]
        exact ⟨m, hgrown.node hm, Nat.zero_le _, hsited.nonempty.le, hsited.fits⟩
      · intro op left right heq
        rw [hkind] at heq
        cases heq
  · rcases build_cases hn with ⟨-, hn⟩ | ⟨-, -, hspan⟩
    · exact (h.settled _ n (by omega) hn).sited.cuts
    · rw [hspan]
      exact ⟨.inl rfl, .inr (.inl rfl)⟩
  · rcases build_cases hn with ⟨-, hn⟩ | ⟨-, hkind, -⟩
    · have hsettled := h.settled_of_grown hgrown (by omega) hn
      exact ⟨hsettled.required, hsettled.entries⟩
    · rw [hkind]
      exact ⟨by simp, fun range hrange => build_filled hfile hrange⟩
  · rcases build_cases hn with ⟨-, hn⟩ | ⟨rfl, -⟩
    · obtain ⟨-, m', hm', hinside⟩ := (h.settled_of_grown hgrown (by omega) hn).child c hc
      obtain rfl : m' = m := Option.some.inj (hm'.symm.trans hm)
      exact hinside
    · exact absurd rfl hi
  · have hroots : (⟨q.size⟩ :: ids).Perm (ids ++ [⟨q.size⟩]) :=
      (List.perm_append_singleton _ _).symm
    apply h.toPlaced.grow h.grown.size_le (h.refs_eq_zero (.inr le_rfl)) hroots build_size
      hgrown.keeps hgrown.lists_le hgrown.lists (by simp) (by simp)
    intro id _
    simp [refs_build h.grown]

namespace Rooted

/-! ### References -/

theorem references_eq (h : Rooted src p q root) (id : NodeId) : q.references id = refs p q id := by
  rw [Pool.refs_eq h.tiles, h.nodes_empty]
  rfl

theorem child_exists (h : Rooted src p q root) {parent child : NodeId}
    (hchild : q.Child parent child) : ∃ m, q.nodes[child.index]? = some m := by
  obtain ⟨n, hn, hslot⟩ := hchild
  obtain ⟨m, hm, -⟩ := (h.nested _ n hn).child child hslot
  exact ⟨m, hm⟩

theorem child_ne_root (h : Rooted src p q root) {parent child : NodeId}
    (hchild : q.Child parent child) : child ≠ root := by
  rintro rfl
  have hone : [parent].length ≤ refs p q child :=
    Pool.length_le_refs h.tiles (by simp) (by simpa [h.nodes_empty] using hchild)
  simp [(h.placed.root child (by simp)).2.2] at hone

/-- No group is left open. -/
theorem refs_of_ne_root (h : Rooted src p q root) (hid : id.index < q.size) (hne : id ≠ root) :
    refs p q id = 1 ∨ p.Shared q id := by
  rcases h.placed.placed id (by rw [h.nodes_empty]; exact Nat.zero_le _) hid with hroot | hone |
    ⟨g, hg, -⟩ | hshared
  · exact absurd (List.mem_singleton.mp hroot) hne
  · exact .inl hone
  · cases hg
  · exact .inr hshared

theorem exists_parent (h : Rooted src p q root) (hid : id.index < q.size) (hne : id ≠ root) :
    ∃ parent, q.Child parent id := by
  have hpos : 0 < refs p q id := by
    rcases h.refs_of_ne_root hid hne with hone | hshared
    · omega
    · exact hshared.refs_pos
  obtain ⟨parent, -, hchild⟩ := Pool.exists_child_of_refs h.tiles hpos
  exact ⟨parent, hchild⟩

/-! ### Paths -/

/-- How much a node covers; the root counts as more than the whole source. -/
def rank (q : Pool) (root : NodeId) (bound : Nat) (id : NodeId) : Nat :=
  if id = root then bound + 1 else (q.nodes[id.index]?.map fun n =>
    n.span.stop - n.span.start).getD 0

section

variable (h : Rooted src p q root)

include h

theorem rank_le (id : NodeId) : rank q root src.size id ≤ src.size + 1 := by
  unfold rank
  split_ifs
  · exact le_rfl
  · cases hn : q.nodes[id.index]? with
    | none => simp
    | some n =>
      have hspan := (h.nested _ n hn).ends
      simp only [Option.map_some, Option.getD_some]
      omega

/-- A child covers less than its parent. -/
theorem rank_lt {parent child : NodeId} (hchild : q.Child parent child) :
    rank q root src.size child < rank q root src.size parent := by
  obtain ⟨m, hm⟩ := h.child_exists hchild
  have hspan := (h.nested _ m hm).ends
  have hsize : rank q root src.size child = m.span.stop - m.span.start := by
    rw [rank, if_neg (h.child_ne_root hchild), hm]
    rfl
  obtain ⟨n, hn, hslot⟩ := hchild
  by_cases hroot : parent = root
  · rw [hsize, rank, if_pos hroot]
    omega
  · have hindex : parent.index ≠ root.index :=
      fun heq => hroot (by cases parent; cases root; simp_all)
    have hinside := h.shrinks _ n hn hindex child m hslot hm
    have hsize' : rank q root src.size parent = n.span.stop - n.span.start := by
      rw [rank, if_neg hroot, hn]
      rfl
    unfold Span.Inside Span.Within at hinside
    omega

theorem rank_lt_of_transGen {a b : NodeId} (hpath : Relation.TransGen q.Child a b) :
    rank q root src.size b < rank q root src.size a := by
  induction hpath with
  | single hchild => exact h.rank_lt hchild
  | tail _ hchild ih => exact (h.rank_lt hchild).trans ih

theorem acyclic (id : NodeId) : ¬ Relation.TransGen q.Child id id := fun hpath =>
  Nat.lt_irrefl _ (h.rank_lt_of_transGen hpath)

/-- Going up from parent to parent ends at the root. -/
theorem reachable (hid : id.index < q.size) : Relation.ReflTransGen q.Child root id := by
  induction hgap : src.size + 1 - rank q root src.size id using Nat.strongRecOn generalizing id with
  | _ gap ih =>
    by_cases hroot : id = root
    · rw [hroot]
    · obtain ⟨parent, hchild⟩ := h.exists_parent hid hroot
      have hlt := h.rank_lt hchild
      have hle := h.rank_le parent
      have hparent : parent.index < q.size := by
        obtain ⟨n, hn, -⟩ := hchild
        exact (Array.getElem?_eq_some_iff.mp hn).1
      exact (ih _ (by omega) hparent rfl).tail hchild

theorem isShared (hshared : p.Shared q id) : q.IsShared id := by
  obtain ⟨vars, hne, hholds, hlisted⟩ := hshared
  exact ⟨hholds.type, vars, hne, hholds.nodup, fun v hv => (hholds.vars v hv).2,
    (h.references_eq id).trans hholds.refs, hlisted⟩

theorem isTree : q.IsTree root where
  top := by
    obtain ⟨-, hlt, hzero⟩ := h.placed.root root (by simp)
    exact ⟨hlt, (h.references_eq root).trans hzero⟩
  filled n hn := by
    obtain ⟨i, hi⟩ := Array.getElem?_of_mem hn
    exact h.filled i n hi
  valid parent child hchild := by
    obtain ⟨m, hm⟩ := h.child_exists hchild
    exact (Array.getElem?_eq_some_iff.mp hm).1
  acyclic := h.acyclic
  reachable id hid := h.reachable hid
  tiles := by
    have htiles := h.tiles
    rwa [Pool.rangesSince, h.nodes_empty, h.lists_empty] at htiles
  unique id hid hne := by
    rw [h.references_eq]
    exact (h.refs_of_ne_root hid hne).imp_right h.isShared

end

end Rooted

/-! ### Outlines -/

namespace NodeKind

variable {kind : NodeKind} {deeper : Nat}

theorem mem_ifPresent {part : Part} {s : Slot} :
    part ∈ ifPresent s ↔ part = .child 0 s ∧ s ≠ none := by
  cases s <;> simp [ifPresent]

/-- The outline visits slots of the node, and an empty one only if it had to be filled. -/
theorem child_of_mem_parts {s : Slot} (h : .child deeper s ∈ kind.parts) :
    s ∈ kind.slots ∧ (s = none → s ∈ kind.required) := by
  cases kind with
  | ifStmt condition consequent alternative =>
    simp only [parts, slots, required, List.mem_cons] at h ⊢
    cases alternative <;> grind
  | _ => grind [parts, mem_ifPresent, slots, required]

/-- The outline visits lists of the node. -/
theorem children_of_mem_parts {range : NodeRange} (h : .children deeper range ∈ kind.parts) :
    range ∈ kind.ranges := by
  cases kind <;> grind [parts, mem_ifPresent, ranges]

end NodeKind

theorem bind_ok {α β ε : Type} {x : Except ε α} {f : α → Except ε β} (hx : ∃ a, x = .ok a)
    (hf : ∀ a, x = .ok a → ∃ b, f a = .ok b) : ∃ b, (x >>= f) = .ok b := by
  obtain ⟨a, rfl⟩ := hx
  exact hf a rfl

theorem mapM_ok {α β ε : Type} {f : α → Except ε β} {xs : List α} (h : ∀ x ∈ xs, ∃ y, f x = .ok y) :
    ∃ ys, xs.mapM f = .ok ys := by
  induction xs with
  | nil => exact ⟨[], rfl⟩
  | cons x rest ih =>
    obtain ⟨y, hy⟩ := h x (by simp)
    obtain ⟨ys, hys⟩ := ih fun z hz => h z (List.mem_cons_of_mem x hz)
    exact ⟨y :: ys, by rw [List.mapM_cons, hy, hys]; rfl⟩

namespace Pool.IsTree

/-- The outline of a node can be written if at least as many levels are left as there are nodes that
were not passed on the way to it. -/
theorem linesFrom_ok (h : q.IsTree root) (levels depth : Nat) (passed : Finset NodeId)
    (hid : id.index < q.size) (hpassed : ∀ a ∈ passed, Relation.TransGen q.Child a id)
    (hlevels : q.size + 1 ≤ levels + passed.card) :
    ∃ ls, q.linesFrom src depth (some id) levels = .ok ls := by
  induction levels generalizing depth passed id with
  | zero =>
    -- The nodes passed would be more than there are.
    have hsubset : passed.image NodeId.index ⊆ Finset.range q.size := by
      intro i hi
      obtain ⟨a, ha, rfl⟩ := Finset.mem_image.mp hi
      obtain ⟨c, ⟨n, hn, -⟩, -⟩ := Relation.TransGen.head'_iff.mp (hpassed a ha)
      exact Finset.mem_range.mpr (Array.getElem?_eq_some_iff.mp hn).1
    have hcard := Finset.card_le_card hsubset
    have hinjective : Function.Injective NodeId.index := by
      rintro ⟨i⟩ ⟨j⟩ rfl
      rfl
    rw [Finset.card_image_of_injective _ hinjective, Finset.card_range] at hcard
    omega
  | succ levels ih =>
    obtain ⟨n, hn⟩ : ∃ n, q.nodes[id.index]? = some n := ⟨_, Array.getElem?_eq_getElem hid⟩
    have hmem := Array.mem_of_getElem? hn
    have hbelow : ∀ depth' s, s ∈ q.slotsOf n → s ≠ none → ∃ ls,
        q.linesFrom src depth' s levels = .ok ls := by
      intro depth' s hs hne
      obtain ⟨c, rfl⟩ := Option.ne_none_iff_exists'.mp hne
      have hchild : q.Child id c := ⟨n, hn, hs⟩
      have hnew : id ∉ passed := fun hid => h.acyclic id (hpassed id hid)
      apply ih depth' (insert id passed) (h.valid id c hchild)
      · intro a ha
        rcases Finset.mem_insert.mp ha with rfl | ha
        · exact .single hchild
        · exact (hpassed a ha).tail hchild
      · rw [Finset.card_insert_of_notMem hnew]
        omega
    rw [Pool.linesFrom, Pool.get_eq hn]
    refine bind_ok ⟨n, rfl⟩ fun _ heq => bind_ok (mapM_ok fun part hpart => ?_) fun below _ =>
      ⟨_, rfl⟩
    obtain rfl := Except.ok.inj heq
    cases part with
    | title text => exact ⟨_, rfl⟩
    | child deeper s =>
      obtain ⟨hslot, hrequired⟩ := NodeKind.child_of_mem_parts hpart
      apply hbelow _ s (Pool.mem_slotsOf.mpr (.inl hslot))
      rintro rfl
      exact (h.filled n hmem).1 (hrequired rfl)
    | children deeper range =>
      have hrange := NodeKind.children_of_mem_parts hpart
      have hlist : q.list range = .ok (q.entries range) := by
        apply Pool.list_eq
        exact (h.tiles.bounds.2 range (Pool.mem_gather.mpr ⟨id.index, n, Nat.zero_le _,
          hid, hn, hrange⟩)).2
      refine bind_ok ⟨_, hlist⟩ fun slots hslots => bind_ok (mapM_ok fun s hs => ?_) fun groups _ =>
        ⟨_, rfl⟩
      obtain rfl : q.entries range = slots := Except.ok.inj (hlist.symm.trans hslots)
      apply hbelow _ s (Pool.mem_slotsOf.mpr (.inr ⟨range, hrange, hs⟩))
      rintro rfl
      exact (h.filled n hmem).2 range hrange hs

theorem outline_ok (h : q.IsTree root) (hid : id.index < q.size) :
    ∃ text, q.outline src (some id) = .ok text := by
  obtain ⟨ls, hls⟩ := h.linesFrom_ok (q.size + 1) 0 ∅ hid (by simp) (by simp)
  exact ⟨_, by rw [Pool.outline, Pool.lines, hls]; rfl⟩

end Pool.IsTree

end Ast

end MicroCompiler
