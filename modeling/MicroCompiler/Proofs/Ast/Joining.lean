import MicroCompiler.Proofs.Ast.Forest

/-! Joining two roots of a forest by an operator. The walk down the right spine stops at one node,
makes it the left operand of the new operator, and hands the new node back to the spine, whose nodes
grow to the right on the way up. What a call at one node of the spine does to the pool is said once
and for all nodes: all of them but those above are settled again, and the references have moved by
one. At a root there is nothing above, so one root takes the place of two. -/

namespace MicroCompiler.Ast

open Pool (refs)

variable {src : Source} {p q r : Pool} {id x right : NodeId} {n m : Node}

namespace Pool

/-- The two things that a call of the walk can do. -/
theorem attachAt_cases {op : BinaryOp} {levels : Nat} {result : Slot × Nat × Pool}
    (hn : q.nodes[x.index]? = some n) (hm : q.nodes[right.index]? = some m)
    (h : q.attachAt op right (some x) (levels + 1) = .ok result) :
    result = (some ⟨q.size⟩, (n.span.merge m.span).stop,
      q.build [] (.binary op x right) (n.span.merge m.span)) ∨
      ∃ lower left child joined stop r, n.kind = .binary lower left child ∧
        q.attachAt op right child levels = .ok (joined, stop, r) ∧
        r.modify (some x) (·.extendRight joined stop) = .ok result.2.2 ∧
        result = (some x, stop, result.2.2) := by
  rw [attachAt, get_eq hn] at h
  simp only [bind, Except.bind] at h
  split at h
  · rw [get_eq hm] at h
    exact .inl (Except.ok.inj h).symm
  · rename_i child hchild
    right
    obtain ⟨lower, left, hkind⟩ : ∃ lower left, n.kind = .binary lower left child := by
      unfold Node.rotationChild? at hchild
      split at hchild
      · rename_i lower left right' hkind
        split_ifs at hchild
        obtain rfl : right' = child := Option.some.inj hchild
        exact ⟨lower, left, hkind⟩
      · cases hchild
    split at h
    · cases h
    · rename_i below hbelow
      obtain ⟨joined, stop, r⟩ := below
      simp only at h
      split at h
      · cases h
      · rename_i r' hmodify
        obtain rfl := Except.ok.inj h
        exact ⟨lower, left, child, joined, stop, r, hkind, hbelow, hmodify, rfl⟩

theorem slotsOf_binary (q : Pool) {op : BinaryOp} {left right : Slot}
    (hkind : n.kind = .binary op left right) : q.slotsOf n = [left, right] := by
  simp [slotsOf, hkind, NodeKind.slots, NodeKind.ranges]

end Pool

theorem Node.extendRight_kind {op : BinaryOp} {left child : Slot}
    (hkind : n.kind = .binary op left child) (right : Slot) (stop : Nat) :
    (n.extendRight right stop).kind = .binary op left right := by
  simp [extendRight, hkind]

theorem Node.extendRight_span (right : Slot) {stop : Nat} (hle : n.span.stop ≤ stop) :
    (n.extendRight right stop).span = ⟨n.span.start, stop⟩ := by
  simp [extendRight, hle]

/-- What the walk from `x` makes of the pool. The node handed back covers `x` and the new operand;
only nodes in the span of `x` have changed, and those that had `x` as a child may no longer cover
it. Of `x` and the new node, one is handed back and the other now has a slot. -/
structure Attached (src : Source) (p q : Pool) (x right : NodeId) (n m : Node)
    (joined other : NodeId) (r : Pool) : Prop where
  grown : p.Extends r
  size : r.size = q.size + 1
  lists : r.lists = q.lists
  ranges : p.rangesSince r = p.rangesSince q
  place : joined = x ∧ other = ⟨q.size⟩ ∨ joined = ⟨q.size⟩ ∧ other = x
  span : ∃ k, r.nodes[joined.index]? = some k ∧ k.span = ⟨n.span.start, m.span.stop⟩
  kept : ∀ (i : Nat) a, q.nodes[i]? = some a → ¬ a.span.Within n.span → r.nodes[i]? = some a
  keeps : q.Keeps r
  slots : ∀ (i : Nat) a b, q.nodes[i]? = some a → r.nodes[i]? = some b →
    ∀ s ∈ r.slotsOf b, s ∈ q.slotsOf a ∨ s = some ⟨q.size⟩
  fresh : ∃ k, r.nodes[q.size]? = some k ∧ n.span.start ≤ k.span.start
  settled : ∀ (i : Nat) b, p.size ≤ i → r.nodes[i]? = some b → (∀ a, q.nodes[i]? = some a →
    some x ∉ q.slotsOf a) → Settled src p r b
  refs : ∀ id, refs p r id = refs p q id + [other, right].count id

/-- A node of the spine with its operands, in a pool where the walk from the right operand has
ended. The walk has left the node and its left operand alone, since both start before the right
one. -/
structure Spine (p r : Pool) (x l j : NodeId) (n a k : Node) : Prop where
  left_new : p.size ≤ l.index
  joined_new : p.size ≤ j.index
  starts : n.span.start ≤ a.span.start
  nonempty : a.span.start < a.span.stop
  ordered : a.span.stop ≤ k.span.start
  right : k.span.Within n.span
  node : r.nodes[x.index]? = some n
  left : r.nodes[l.index]? = some a
  ne_left : x.index ≠ l.index
  ne_joined : x.index ≠ j.index

section

variable {op : BinaryOp} (h : Woods src p q) (hx : p.size ≤ x.index)
  (hn : q.nodes[x.index]? = some n) (hright : p.size ≤ right.index)
  (hm : q.nodes[right.index]? = some m) (hbefore : n.span.stop ≤ m.span.start)

include h hx hn hright hm hbefore

/-- The node that the walk stops at goes below the new operator. -/
theorem attached_here :
    Attached src p q x right n m ⟨q.size⟩ x (q.build [] (.binary op x right) ⟨n.span.start,
      m.span.stop⟩) := by
  have hgrown := build_extends q [] (.binary op x right) ⟨n.span.start, m.span.stop⟩
  have hxs := (h.settled _ n hx hn).sited
  have hms := (h.settled _ m hright hm).sited
  have hwoods : Woods src p (q.build [] (.binary op x right) ⟨n.span.start, m.span.stop⟩) := by
    apply h.build rfl
    · have := hxs.nonempty
      have := hms.nonempty
      exact ⟨by simp only; omega, hms.fits, hxs.starts, hms.stops, by simp [NodeKind.spans]⟩
    · simp [NodeKind.required, NodeKind.slots]
    · intro c hc
      have := hxs.nonempty
      have := hms.nonempty
      obtain rfl | rfl : c = x ∨ c = right := by simpa [NodeKind.slots] using hc
      · exact ⟨hx, n, hn, by unfold Span.Inside Span.Within; simp only; omega⟩
      · exact ⟨hright, m, hm, by unfold Span.Inside Span.Within; simp only; omega⟩
    · intro o left right' heq a b ha hb
      obtain ⟨-, rfl, rfl⟩ : op = o ∧ x = left ∧ right = right' := by simpa using heq
      obtain rfl : n = a := Option.some.inj (hn.symm.trans ha)
      obtain rfl : m = b := Option.some.inj (hm.symm.trans hb)
      exact hbefore
  obtain ⟨k, hk, -, hspan⟩ := build_node q [] (.binary op x right) ⟨n.span.start, m.span.stop⟩
  refine ⟨hwoods.grown, build_size, rfl, ?_, .inr ⟨rfl, rfl⟩, ⟨k, hk, hspan⟩, fun i a ha _ =>
    hgrown.node ha, hgrown.keeps, ?_, ⟨k, hk, by rw [hspan]⟩, fun i b hi hb _ =>
      hwoods.settled i b hi hb, fun id => ?_⟩
  · rw [Pool.rangesSince_trans h.grown hgrown]
    have hnone : q.rangesSince (q.build [] (.binary op x right) ⟨n.span.start, m.span.stop⟩) = [] :=
      Pool.rangesSince_alloc _ _
    rw [hnone, List.append_nil]
  · intro i a b ha hb s hs
    obtain rfl : a = b := Option.some.inj ((hgrown.node ha).symm.trans hb)
    exact .inl hs
  · have hslots : (NodeKind.binary op (some x) (some right)).slots.reduceOption = [x, right] := rfl
    rw [refs_build h.grown, Forest.count_reduceOption, hslots]
    rfl

section

variable {lower : BinaryOp} {l c j other : NodeId} {a k : Node}
  (hkind : n.kind = .binary lower (some l) (some c)) (hc : q.nodes[c.index]? = some k)
  (hbelow : Attached src p q c right k m j other r)

include hkind hbelow

include hc in
omit hright hm hbefore in
theorem Attached.spine : ∃ a, Spine p r x l j n a k := by
  have hxs := h.settled _ n hx hn
  have hslots := Pool.slotsOf_binary q hkind
  obtain ⟨hlnew, a, hl, hlin⟩ := hxs.child l (by simp [hslots])
  obtain ⟨hcnew, k', hk', hcin⟩ := hxs.child c (by simp [hslots])
  obtain rfl : k = k' := Option.some.inj (hc.symm.trans hk')
  have horder := hxs.ordered lower l c hkind a k hl hc
  have hlpos := (h.settled _ a hlnew hl).sited.nonempty
  unfold Span.Inside Span.Within at hlin hcin
  refine ⟨a, hlnew, ?_, hlin.1.1, hlpos, horder, hcin.1, hbelow.kept _ n hn
    (by unfold Span.Within; omega), hbelow.kept _ a hl (by unfold Span.Within; omega), ?_, ?_⟩
  · rcases hbelow.place with ⟨rfl, -⟩ | ⟨rfl, -⟩
    · exact hcnew
    · exact h.grown.size_le
  · intro heq
    rw [heq, hl] at hn
    obtain rfl := Option.some.inj hn
    omega
  · rcases hbelow.place with ⟨rfl, -⟩ | ⟨rfl, -⟩
    · intro heq
      rw [heq, hc] at hn
      obtain rfl := Option.some.inj hn
      omega
    · exact Nat.ne_of_lt (Array.getElem?_eq_some_iff.mp hn).1

/-- The node of the spine is settled with its new right operand. -/
theorem Attached.settled_extended (hspine : Spine p r x l j n a k) :
    Settled src p (r.change x.index (·.extendRight (some j) m.span.stop))
    (n.extendRight (some j) m.span.stop) := by
  have hxs := (h.settled _ n hx hn).sited
  have hms := (h.settled _ m hright hm).sited
  have hxpos := hxs.nonempty
  have hmpos := hms.nonempty
  have hextended := Node.extendRight_kind hkind (some j) m.span.stop
  have hspan : (n.extendRight (some j) m.span.stop).span = ⟨n.span.start, m.span.stop⟩ :=
    Node.extendRight_span _ (by omega)
  obtain ⟨kj, hkj, hkjspan⟩ := hbelow.span
  have hstarts := hspine.starts
  have hpos := hspine.nonempty
  have horder := hspine.ordered
  have hwithin := hspine.right
  unfold Span.Within at hwithin
  refine ⟨?_, by simp [hextended, NodeKind.required, NodeKind.slots],
    by simp [hextended, NodeKind.ranges], ?_, ?_⟩
  · rw [hspan, hextended]
    exact ⟨by simp only; omega, hms.fits, hxs.starts, hms.stops, by simp [NodeKind.spans]⟩
  · intro d hd
    rw [hspan]
    rw [Pool.slotsOf_binary _ hextended] at hd
    obtain rfl | rfl : d = l ∨ d = j := by simpa using hd
    · refine ⟨hspine.left_new, a, by rw [Pool.change_node_ne hspine.ne_left, hspine.left], ?_⟩
      unfold Span.Inside Span.Within
      simp only
      omega
    · refine ⟨hspine.joined_new, kj, by rw [Pool.change_node_ne hspine.ne_joined, hkj], ?_⟩
      unfold Span.Inside Span.Within
      simp only [hkjspan]
      omega
  · intro o l' j' heq b b' hb hb'
    rw [hextended] at heq
    obtain ⟨-, rfl, rfl⟩ : lower = o ∧ l = l' ∧ j = j' := by simpa using heq
    rw [Pool.change_node_ne hspine.ne_left, hspine.left] at hb
    rw [Pool.change_node_ne hspine.ne_joined, hkj] at hb'
    obtain rfl := Option.some.inj hb
    obtain rfl := Option.some.inj hb'
    rw [hkjspan]
    exact horder

omit h hx hright hm hbefore hkind in
/-- No node that lacked the node of the spine as a child has it now: the slots of older ones only
gained the new operator, which begins behind the node. -/
theorem Attached.not_child (hspine : Spine p r x l j n a k) {i : Nat} {b : Node}
    (hb : r.nodes[i]? = some b) (hsettled : Settled src p r b)
    (hnot : ∀ b', q.nodes[i]? = some b' → some x ∉ q.slotsOf b') :
    some x ∉ r.slotsOf b := by
  intro hd
  have hxlt : x.index < q.size := (Array.getElem?_eq_some_iff.mp hn).1
  by_cases hlt : i < q.size
  · obtain ⟨b', hb'⟩ : ∃ b', q.nodes[i]? = some b' := ⟨_, Array.getElem?_eq_getElem hlt⟩
    rcases hbelow.slots i b' b hb' hb _ hd with hslot | hslot
    · exact hnot b' hb' hslot
    · obtain rfl : x = ⟨q.size⟩ := Option.some.inj hslot
      simp at hxlt
  · have hbound : i < r.size := (Array.getElem?_eq_some_iff.mp hb).1
    rw [hbelow.size] at hbound
    obtain rfl : i = q.size := by omega
    obtain ⟨new, hnew, hstart⟩ := hbelow.fresh
    obtain rfl : new = b := Option.some.inj (hnew.symm.trans hb)
    obtain ⟨-, e, he, hinside⟩ := hsettled.child x hd
    obtain rfl : n = e := Option.some.inj (hspine.node.symm.trans he)
    have hstarts := hspine.starts
    have hpos := hspine.nonempty
    have horder := hspine.ordered
    unfold Span.Inside Span.Within at hinside
    omega

omit h hn hright hm hbefore in
/-- The right operand gives its reference to the node that takes its place. -/
theorem Attached.refs_extended (hspine : Spine p r x l j n a k) (id : NodeId) (stop : Nat) :
    Pool.refs p (r.change x.index (·.extendRight (some j) stop)) id =
      Pool.refs p q id + [⟨q.size⟩, right].count id := by
  have hmoved : _ = Pool.refs p r id + _ := Pool.refs_change hx hspine.node
    (·.extendRight (some j) stop)
  rw [Node.extendRight_kind hkind, hkind, Forest.count_reduceOption, Forest.count_reduceOption,
    show (NodeKind.binary lower (some l) (some c)).slots.reduceOption = [l, c] from rfl,
    show (NodeKind.binary lower (some l) (some j)).slots.reduceOption = [l, j] from rfl,
      hbelow.refs id] at hmoved
  rcases hbelow.place with ⟨rfl, rfl⟩ | ⟨rfl, rfl⟩ <;>
  · simp only [List.count_cons, List.count_nil] at hmoved ⊢
    omega

include hc in
/-- A node of the spine takes what the walk from its right operand hands back. -/
theorem Attached.above (hunique : ∀ v, p.size ≤ v.index → q.Child v c → v = x) :
    Attached src p q x right n m x ⟨q.size⟩
    (r.change x.index (·.extendRight (some j) m.span.stop)) := by
  obtain ⟨a, hspine⟩ := hbelow.spine h hx hn hkind hc
  have hxpos := (h.settled _ n hx hn).sited.nonempty
  have hmpos := (h.settled _ m hright hm).sited.nonempty
  have hextended := Node.extendRight_kind hkind (some j) m.span.stop
  have hself := Pool.change_node_self hspine.node (·.extendRight (some j) m.span.stop)
  have hwithin := hspine.right
  refine ⟨hbelow.grown.modify hx _, by rw [Pool.change_size, hbelow.size], hbelow.lists, ?_,
    .inl ⟨rfl, rfl⟩, ⟨_, hself, Node.extendRight_span _ (by omega)⟩, ?_, ?_, ?_, ?_, ?_,
    fun id => hbelow.refs_extended hx hkind hspine id _⟩
  · rw [Pool.rangesSince_change _, hbelow.ranges]
    intro n' hn'
    obtain rfl : n = n' := Option.some.inj (hspine.node.symm.trans hn')
    rw [hextended, hkind]
    rfl
  · intro i b hb hnot
    have hne : x.index ≠ i := by
      rintro rfl
      obtain rfl : n = b := Option.some.inj (hn.symm.trans hb)
      exact hnot ⟨le_rfl, hxpos.le, le_rfl⟩
    rw [Pool.change_node_ne hne]
    refine hbelow.kept i b hb fun hinner => hnot ?_
    unfold Span.Within at *
    omega
  · intro i b hb
    by_cases hne : x.index = i
    · subst hne
      obtain rfl : n = b := Option.some.inj (hn.symm.trans hb)
      exact ⟨_, hself, by rw [hextended, hkind]; rfl⟩
    · obtain ⟨b', hb', hrole⟩ := hbelow.keeps i b hb
      exact ⟨b', by rw [Pool.change_node_ne hne, hb'], hrole⟩
  · intro i b b' hb hb' s hs
    by_cases hne : x.index = i
    · subst hne
      obtain rfl : n = b := Option.some.inj (hn.symm.trans hb)
      obtain rfl : n.extendRight (some j) m.span.stop = b' := Option.some.inj (hself.symm.trans hb')
      rw [Pool.slotsOf_binary _ hextended] at hs
      rw [Pool.slotsOf_binary q hkind]
      rcases hbelow.place with ⟨rfl, -⟩ | ⟨rfl, -⟩
      · exact .inl hs
      · simp only [List.mem_cons, List.not_mem_nil, or_false] at hs ⊢
        exact hs.imp_left .inl
    · rw [Pool.change_node_ne hne] at hb'
      exact hbelow.slots i b b' hb hb' s hs
  · obtain ⟨new, hnew, hstart⟩ := hbelow.fresh
    have hxlt : x.index < q.size := (Array.getElem?_eq_some_iff.mp hn).1
    exact ⟨new, by rw [Pool.change_node_ne (Nat.ne_of_lt hxlt), hnew], hwithin.1.trans hstart⟩
  · intro i b hi hb hnot
    by_cases hne : x.index = i
    · subst hne
      obtain rfl : n.extendRight (some j) m.span.stop = b := Option.some.inj (hself.symm.trans hb)
      exact hbelow.settled_extended h hx hn hright hm hbefore hkind hspine
    · rw [Pool.change_node_ne hne] at hb
      have hsettled : Settled src p r b := by
        refine hbelow.settled i b hi hb fun b' hb' hslot => hne ?_
        exact congrArg NodeId.index (hunique ⟨i⟩ hi ⟨b', hb', hslot⟩).symm
      refine hsettled.congr (fun range _ => rfl) fun d e hd he => ⟨e, ?_, rfl⟩
      rw [Pool.change_node_ne ?_, he]
      intro heq
      obtain rfl : x = d := by cases x; cases d; simp_all
      exact hbelow.not_child hn hspine hb hsettled hnot hd

end

omit hx hn hbefore in
/-- The walk does what each call of it does, if every right operand of an operator has that operator
as its only parent. -/
theorem attached_of_attachAt (hunique : ∀ (b : NodeId) nb lower left c, p.size ≤ b.index →
      q.nodes[b.index]? = some nb → nb.kind = .binary lower left (some c) → ∀ v, p.size ≤ v.index →
      q.Child v c → v = b)
    {levels stop : Nat} {joined : Slot} {x : NodeId} {n : Node} (hx : p.size ≤ x.index)
    (hn : q.nodes[x.index]? = some n) (hbefore : n.span.stop ≤ m.span.start)
    (hwalk : q.attachAt op right (some x) levels = .ok (joined, stop, r)) :
    stop = m.span.stop ∧ ∃ j other, joined = some j ∧ Attached src p q x right n m j other r := by
  induction levels generalizing joined stop r x n with
  | zero => cases hwalk
  | succ levels ih =>
    have hxs := h.settled _ n hx hn
    have hmpos := (h.settled _ m hright hm).sited.nonempty
    have hxpos := hxs.sited.nonempty
    have hmerge : n.span.merge m.span = ⟨n.span.start, m.span.stop⟩ := by
      simp only [Span.merge, Span.mk.injEq]
      omega
    rcases Pool.attachAt_cases hn hm hwalk with heq | ⟨lower, left, child, j, stop', r', hkind,
      hbelow, hmodify, heq⟩
    · rw [hmerge] at heq
      obtain ⟨rfl, rfl, rfl⟩ : joined = _ ∧ stop = _ ∧ r = _ := by simpa using heq
      exact ⟨rfl, _, _, rfl, attached_here h hx hn hright hm hbefore⟩
    · obtain ⟨rfl, rfl⟩ : joined = some x ∧ stop = stop' := by simpa using heq
      obtain ⟨hleft, hchild⟩ : left ≠ none ∧ child ≠ none := by
        simpa [hkind, NodeKind.required, NodeKind.slots, eq_comm] using hxs.required
      obtain ⟨l, rfl⟩ := Option.ne_none_iff_exists'.mp hleft
      obtain ⟨c, rfl⟩ := Option.ne_none_iff_exists'.mp hchild
      obtain ⟨hcnew, k, hk, hinside⟩ := hxs.child c (by simp [Pool.slotsOf_binary q hkind])
      unfold Span.Inside Span.Within at hinside
      obtain ⟨rfl, j, other, rfl, hattached⟩ := ih hcnew hk (by omega) hbelow
      refine ⟨rfl, x, ⟨q.size⟩, rfl, ?_⟩
      have hlt : x.index < r'.size := by
        have hlt : x.index < q.size := (Array.getElem?_eq_some_iff.mp hn).1
        rw [hattached.size]
        omega
      rw [Pool.modify_eq hlt] at hmodify
      obtain rfl := Except.ok.inj hmodify
      exact hattached.above h hx hn hright hm hbefore hkind hk
        (hunique x n lower (some l) c hx hn hkind)

end

namespace Forest

variable {roots rest : List NodeId} {groups : List Group}

/-- A child of an operator has no other parent. -/
theorem parent_unique (h : Forest src p q roots groups) {b v c : NodeId} {nb : Node} {op : BinaryOp}
    {left right : Slot} (hb : p.size ≤ b.index) (hnb : q.nodes[b.index]? = some nb)
    (hkind : nb.kind = .binary op left right) (hc : q.Child b c) (hv : p.size ≤ v.index)
    (hvc : q.Child v c) : v = b := by
  have hbounds := h.child_bounds hb hc
  have hone : [b].length ≤ refs p q c := Pool.length_le_refs h.tiles (by simp)
    (by simpa using ⟨hb, hc⟩)
  -- No type has its variables and an operator as parents, for each of them counts.
  have hholds : ∀ vars, ¬ Group.Holds ⟨c, vars⟩ p q := by
    intro vars hholds
    have hcount : (b :: vars).length ≤ refs p q c := by
      apply Pool.length_le_refs h.tiles
      · refine List.nodup_cons.mpr ⟨fun hmem => ?_, hholds.nodup⟩
        obtain ⟨-, n, hn, htype⟩ := hholds.vars b hmem
        obtain rfl : nb = n := Option.some.inj (hnb.symm.trans hn)
        rw [hkind] at htype
        cases htype
      · intro u hu
        rcases List.mem_cons.mp hu with rfl | hu
        · exact ⟨hb, hc⟩
        · obtain ⟨hle, n, hn, htype⟩ := hholds.vars u hu
          refine ⟨hle, n, hn, Pool.mem_slotsOf.mpr (.inl ?_)⟩
          cases hvar : n.kind with
          | var name type init =>
            rw [hvar] at htype
            obtain rfl : type = some c := htype
            simp [NodeKind.slots]
          | _ =>
            rw [hvar] at htype
            cases htype
    have hlength : refs p q c = vars.length := hholds.refs
    rw [List.length_cons] at hcount
    omega
  rcases h.placed c hbounds.1 hbounds.2 with hroot | hrefs | ⟨g, hg, rfl⟩ | ⟨vars, -, hshared, -⟩
  · have hzero := (h.root c hroot).2.2
    simp [hzero] at hone
  · by_contra hne
    have htwo : [v, b].length ≤ refs p q c := by
      apply Pool.length_le_refs h.tiles (by simpa using hne)
      simp [hb, hv, hc, hvc]
    simp [hrefs] at htwo
  · exact absurd (h.group g hg).1 (hholds g.vars)
  · exact absurd hshared (hholds vars)

/-- Joining two roots makes one root of them, which reaches from the start of the first to the end
of the second. -/
theorem attach (h : Forest src p q (x :: right :: rest) groups) (hn : q.nodes[x.index]? = some n)
    (hm : q.nodes[right.index]? = some m) (hbefore : n.span.stop ≤ m.span.start) {op : BinaryOp}
    {joined : Slot} (hattach : q.attachBinary x op right = .ok (joined, r)) :
    ∃ j, joined = some j ∧ Forest src p r (j :: rest) groups ∧ ∃ k, r.nodes[j.index]? = some k ∧
      k.span = ⟨n.span.start, m.span.stop⟩ := by
  obtain ⟨hx, -, hzero⟩ := h.root x (by simp)
  have hright := (h.root right (by simp)).1
  obtain ⟨stop, hwalk⟩ : ∃ stop, q.attachAt op right (some x) (q.size + 1) =
      .ok (joined, stop, r) := by
    rw [Pool.attachBinary] at hattach
    cases hwalk : q.attachAt op right (some x) (q.size + 1) with
    | error f => simp [hwalk, Except.map] at hattach
    | ok result =>
      obtain ⟨joined', stop, r'⟩ := result
      obtain ⟨rfl, rfl⟩ : joined' = joined ∧ r' = r := by simpa [hwalk, Except.map] using hattach
      exact ⟨stop, rfl⟩
  obtain ⟨-, j, other, rfl, hjoined⟩ := attached_of_attachAt h.toWoods hright hm
    (fun b nb lower left c hb hnb hkind v hv hvc =>
      h.parent_unique hb hnb hkind ⟨nb, hnb, by simp [Pool.slotsOf, hkind, NodeKind.slots]⟩ hv hvc)
        hx hn hbefore hwalk
  refine ⟨j, rfl, ?_, hjoined.span⟩
  have hperm : (⟨q.size⟩ :: x :: right :: rest : List NodeId).Perm ([other, right] ++ j ::
      rest) := by
    rcases hjoined.place with ⟨rfl, rfl⟩ | ⟨rfl, rfl⟩
    · exact (List.Perm.swap _ _ _).cons _
    · exact (List.Perm.swap _ _ _).trans ((List.Perm.swap _ _ _).cons _)
  have hlists : ∀ i < q.lists.size, r.lists[i]? = q.lists[i]? := fun i _ => by rw [hjoined.lists]
  apply h.grow hperm _ hjoined.size hjoined.keeps (Nat.le_of_eq (by rw [hjoined.lists])) hlists
  · intro g hg
    obtain ⟨-, hlt, hnot⟩ := h.type_of_group hg
    have hout : g.type ∉ [other, right] ++ j :: rest := fun hmem => not_mem_new_cons hlt hnot
      (hperm.mem_iff.mpr hmem)
    refine ⟨(h.group g hg).1.congr hjoined.keeps ?_, fun hmem =>
      hout (List.mem_append_right _ hmem)⟩
    rw [hjoined.refs, List.count_eq_zero.mpr fun hmem => hout (List.mem_append_left _ hmem),
      Nat.add_zero]
  · exact fun g hg => ⟨g, hg, rfl⟩
  · exact fun id _ => hjoined.refs id
  · refine ⟨hjoined.grown, fun i b hi hb => hjoined.settled i b hi hb fun a ha hslot => ?_, ?_⟩
    · have hpos : 0 < refs p q x := List.count_pos_iff.mpr (h.mem_slotsSince hi ha hslot)
      omega
    · rw [hjoined.ranges, hjoined.lists]
      exact h.tiles

end Forest

end MicroCompiler.Ast
