import MicroCompiler.Proofs.Ast.Joining

/-! Forests in reading order. The roots of a grove stand behind each other between two offsets, and
no types wait for variables. A new node takes a whole grove below it if its span covers the grove
and more. -/

namespace MicroCompiler.Ast

variable {src : Source} {p q r : Pool} {id : NodeId} {n : Node} {ids ids' : List NodeId}
  {lo lo' mid hi hi' : Nat}

/-- The node lies between two offsets. -/
def Lies (q : Pool) (id : NodeId) (lo hi : Nat) : Prop :=
  ∃ n, q.nodes[id.index]? = some n ∧ lo ≤ n.span.start ∧ n.span.start < n.span.stop ∧
    n.span.stop ≤ hi

theorem Lies.weaken (h : Lies q id lo hi) (hlo : lo' ≤ lo) (hhi : hi ≤ hi') :
    Lies q id lo' hi' := by
  obtain ⟨n, hn, hstart, hpos, hstop⟩ := h
  exact ⟨n, hn, hlo.trans hstart, hpos, hstop.trans hhi⟩

theorem Lies.grow (h : Lies q id lo hi) (hgrown : q.Extends r) : Lies r id lo hi := by
  obtain ⟨n, hn, hspan⟩ := h
  exact ⟨n, hgrown.node hn, hspan⟩

theorem Lies.span (h : Lies q id lo hi) (hn : q.nodes[id.index]? = some n) :
    lo ≤ n.span.start ∧ n.span.start < n.span.stop ∧ n.span.stop ≤ hi := by
  obtain ⟨m, hm, hspan⟩ := h
  obtain rfl : m = n := Option.some.inj (hm.symm.trans hn)
  exact hspan

theorem Lies.lt (h : Lies q id lo hi) : lo < hi := by
  obtain ⟨n, -, hstart, hpos, hstop⟩ := h
  omega

/-- The nodes stand behind each other between two offsets. -/
def Row (q : Pool) : Nat → List NodeId → Nat → Prop
  | lo, [], hi => lo ≤ hi
  | lo, id :: rest, hi => ∃ mid, Lies q id lo mid ∧ Row q mid rest hi

namespace Row

theorem le (h : Row q lo ids hi) : lo ≤ hi := by
  induction ids generalizing lo with
  | nil => exact h
  | cons id rest ih =>
    obtain ⟨mid, hlies, hrest⟩ := h
    exact hlies.lt.le.trans (ih hrest)

theorem weaken (h : Row q lo ids hi) (hlo : lo' ≤ lo) (hhi : hi ≤ hi') : Row q lo' ids hi' := by
  induction ids generalizing lo lo' with
  | nil => exact hlo.trans (Nat.le_trans h hhi)
  | cons id rest ih =>
    obtain ⟨mid, hlies, hrest⟩ := h
    exact ⟨mid, hlies.weaken hlo le_rfl, ih hrest le_rfl⟩

theorem grow (h : Row q lo ids hi) (hgrown : q.Extends r) : Row r lo ids hi := by
  induction ids generalizing lo with
  | nil => exact h
  | cons id rest ih =>
    obtain ⟨mid, hlies, hrest⟩ := h
    exact ⟨mid, hlies.grow hgrown, ih hrest⟩

theorem append (h : Row q lo ids mid) (h' : Row q mid ids' hi) : Row q lo (ids ++ ids') hi := by
  induction ids generalizing lo with
  | nil => exact h'.weaken h le_rfl
  | cons id rest ih =>
    obtain ⟨mid', hlies, hrest⟩ := h
    exact ⟨mid', hlies, ih hrest⟩

theorem split (h : Row q lo (ids ++ ids') hi) : ∃ mid, Row q lo ids mid ∧ Row q mid ids' hi := by
  induction ids generalizing lo with
  | nil => exact ⟨lo, le_rfl, h⟩
  | cons id rest ih =>
    obtain ⟨mid, hlies, hrest⟩ := h
    obtain ⟨mid', hrow, hrow'⟩ := ih hrest
    exact ⟨mid', ⟨mid, hlies, hrow⟩, hrow'⟩

theorem lies (h : Row q lo ids hi) (hid : id ∈ ids) : Lies q id lo hi := by
  induction ids generalizing lo with
  | nil => cases hid
  | cons first rest ih =>
    obtain ⟨mid, hlies, hrest⟩ := h
    rcases List.mem_cons.mp hid with rfl | hid
    · exact hlies.weaken le_rfl hrest.le
    · exact (ih hrest hid).weaken hlies.lt.le le_rfl

theorem singleton (h : Lies q id lo hi) : Row q lo [id] hi := ⟨hi, h, le_rfl⟩

/-- The row starts where its first node does. -/
theorem from_first (h : Row q lo (id :: ids) hi) (hn : q.nodes[id.index]? = some n) :
    Row q n.span.start (id :: ids) hi := by
  obtain ⟨mid, hlies, hrest⟩ := h
  obtain ⟨-, hpos, hstop⟩ := hlies.span hn
  exact ⟨mid, ⟨n, hn, le_rfl, hpos, hstop⟩, hrest⟩

/-- The row ends where its last node does. -/
theorem to_last (h : Row q lo (ids ++ [id]) hi) (hn : q.nodes[id.index]? = some n) :
    Row q lo (ids ++ [id]) n.span.stop := by
  induction ids generalizing lo with
  | nil =>
    obtain ⟨mid, hlies, -⟩ := h
    obtain ⟨hstart, hpos, -⟩ := hlies.span hn
    exact singleton ⟨n, hn, hstart, hpos, le_rfl⟩
  | cons first rest ih =>
    obtain ⟨mid, hlies, hrest⟩ := h
    exact ⟨mid, hlies, ih hrest⟩

end Row

/-- What `q` gained is a forest whose roots stand in reading order between two offsets. -/
structure Grove (src : Source) (p q : Pool) (ids : List NodeId) (lo hi : Nat) : Prop where
  forest : Forest src p q ids []
  row : Row q lo ids hi

namespace Grove

theorem nil (src : Source) (p : Pool) (h : lo ≤ hi) : Grove src p p [] lo hi := ⟨.nil src p, h⟩

theorem weaken (h : Grove src p q ids lo hi) (hlo : lo' ≤ lo) (hhi : hi ≤ hi') :
    Grove src p q ids lo' hi' :=
  ⟨h.forest, h.row.weaken hlo hhi⟩

theorem append (h : Grove src p q ids lo mid) (h' : Grove src q r ids' mid hi) :
    Grove src p r (ids ++ ids') lo hi :=
  ⟨h.forest.append h'.forest, (h.row.grow h'.forest.grown).append h'.row⟩

/-- What was tried before and undone leaves no trace. -/
theorem of_tables (h : Grove src q r ids lo hi) (hnodes : q.nodes = p.nodes)
    (hlists : q.lists = p.lists) : Grove src p r ids lo hi := by
  have hsize : q.size = p.size := by rw [Pool.size, Pool.size, hnodes]
  have hwoods : Woods src p q := by
    refine ⟨.of_tables hnodes hlists, fun i n hi hn => ?_, ?_⟩
    · have hlt : i < q.size := (Array.getElem?_eq_some_iff.mp hn).1
      omega
    · simp [Pool.rangesSince, hsize, hlists, Tiles]
  have hnothing : Forest src p q [] [] := by
    refine ⟨hwoods, .nil, by simp, by simp, fun id hle hlt => ?_⟩
    omega
  exact ⟨hnothing.append h.forest, h.row⟩

theorem sited (h : Grove src p q ids lo hi) (hid : id ∈ ids) (hn : q.nodes[id.index]? = some n) :
    Sited src n.kind n.span :=
  (h.forest.settled _ n (h.forest.root id hid).1 hn).sited

end Grove

/-! ### New nodes -/

/-- The nodes and lists that the kind refers to, unless a required slot is empty or the node is an
operator between two operands. -/
def NodeKind.refers? (kind : NodeKind) : Option (List NodeId × List NodeRange) :=
  match kind with
  | .binary _ _ _ => none
  | _ => if none ∈ kind.required then none else some (kind.slots.reduceOption, kind.ranges)

theorem NodeKind.of_refers? {kind : NodeKind} {ids : List NodeId} {ranges : List NodeRange}
    (h : kind.refers? = some (ids, ranges)) : kind.slots.reduceOption = ids ∧ kind.ranges = ranges ∧
    none ∉ kind.required ∧ ∀ op left right, kind ≠ .binary op left right := by
  unfold refers? at h
  split at h
  next => cases h
  next hbinary =>
    split_ifs at h with hrequired
    obtain ⟨rfl, rfl⟩ := Prod.mk.inj (Option.some.inj h)
    exact ⟨rfl, rfl, hrequired, fun op left right heq => hbinary op left right heq⟩

/-- The span covers all between two offsets, and more. -/
def Surrounds (span : Span) (lo hi : Nat) : Prop :=
  span.start ≤ lo ∧ hi ≤ span.stop ∧ (span.start < lo ∨ hi < span.stop)

section

variable {single roots : List NodeId} {groups : List Group} {lists : List (List NodeId)}
  {kind : NodeKind} {span : Span}

/-- A new node covers its children and more. -/
theorem Forest.node (h : Forest src p q roots groups)
    (hkind : kind.refers? = some (single, (q.allocLists lists).1))
    (hroots : roots.Perm (single ++ lists.flatten)) (hsited : Sited src kind span)
    (hlies : ∀ id ∈ roots, Lies q id lo hi) (hspan : Surrounds span lo hi) :
    Forest src p (q.build lists kind span) [⟨q.size⟩] groups := by
  obtain ⟨hslots, hranges, hrequired, hplain⟩ := NodeKind.of_refers? hkind
  refine h.build (by simpa using hroots) hslots hranges hrequired hplain hsited
    fun id hid m hm => ?_
  obtain ⟨hstart, hpos, hstop⟩ := (hlies id (hroots.mem_iff.mpr hid)).span hm
  unfold Surrounds at hspan
  unfold Span.Inside Span.Within
  omega

theorem lies_build (hspan : span.start < span.stop) :
    Lies (q.build lists kind span) ⟨q.size⟩ span.start span.stop := by
  obtain ⟨n, hn, -, rfl⟩ := build_node q lists kind span
  exact ⟨n, hn, le_rfl, hspan, le_rfl⟩

/-- The same for a grove. -/
theorem Grove.node (h : Grove src p q ids lo hi)
    (hkind : kind.refers? = some (single, (q.allocLists lists).1))
    (hroots : ids.Perm (single ++ lists.flatten)) (hsited : Sited src kind span)
    (hspan : Surrounds span lo hi) :
    Grove src p (q.build lists kind span) [⟨q.size⟩] span.start span.stop :=
  ⟨h.forest.node hkind hroots hsited (fun _ hid => h.row.lies hid) hspan,
  .singleton (lies_build hsited.nonempty)⟩

end

/-- A root in a larger span. -/
theorem Grove.change (h : Grove src p q [id] lo hi) (hn : q.nodes[id.index]? = some n)
    (f : Node → Node) (hsited : Sited src (f n).kind (f n).span) (hspan : n.span.Within (f n).span)
    (hslots : (f n).kind.slots = n.kind.slots) (hrequired : (f n).kind.required = n.kind.required)
    (hranges : (f n).kind.ranges = n.kind.ranges) (hrole : (f n).kind.role = n.kind.role)
    (hbinary : ∀ op left right, (f n).kind = .binary op left right →
      n.kind = .binary op left right) :
    Grove src p (q.change id.index f) [id] (f n).span.start (f n).span.stop := by
  refine ⟨h.forest.change (by simp) hn f hsited hspan hslots hrequired hranges hrole hbinary,
    .singleton ?_⟩
  exact ⟨f n, Pool.change_node_self hn f, le_rfl, hsited.nonempty, le_rfl⟩

end MicroCompiler.Ast
