import Mathlib.Data.Finset.Card
import Mathlib.Data.List.TakeWhile
import MicroCompiler.Grammar.Expression
import MicroCompiler.Proofs.Pool

/-! Chains of operands with binary operators between them. The tree of a chain is given in two ways:
operand by operand, each grafted onto the right spine of what stands before it, and by precedence
climbing, which reads the right operand of an operator with a higher bound. Both are the same tree,
and the pool grows it in place: only the nodes that joined the chain so far are changed, never an
operand. -/

namespace MicroCompiler.Ast

/-- The tree of a chain. Operands count as one piece. -/
inductive ChainTree where
  | operand (id : NodeId)
  | join (op : BinaryOp) (left right : ChainTree)
  deriving DecidableEq, Repr

/-- Operators with the operands behind them. -/
abbrev Links := List (BinaryOp × NodeId)

namespace ChainTree

/-- The leftmost operand. -/
def first : ChainTree → NodeId
  | .operand id => id
  | .join _ left _ => left.first

/-- What follows the leftmost operand, from left to right. -/
def links : ChainTree → Links
  | .operand _ => []
  | .join op left right => left.links ++ (op, right.first) :: right.links

/-- The operator at the root. -/
def top? : ChainTree → Option BinaryOp
  | .operand _ => none
  | .join op _ _ => some op

/-- Every left operand binds at least as tightly as its operator, and every right operand more
tightly. -/
def Ordered : ChainTree → Prop
  | .operand _ => True
  | .join op left right =>
    (∀ o ∈ left.top?, op.priority ≤ o.priority) ∧ (∀ o ∈ right.top?, op.priority < o.priority) ∧
      left.Ordered ∧ right.Ordered

/-! ### Grafting -/

/-- Adds an operand below every operator of lower priority on the right spine. -/
def graft (op : BinaryOp) (id : NodeId) : ChainTree → ChainTree
  | .operand v => .join op (.operand v) (.operand id)
  | .join o left right =>
    if o.priority < op.priority then .join o left (right.graft op id)
    else .join op (.join o left right) (.operand id)

def graftAll (t : ChainTree) (links : Links) : ChainTree :=
  links.foldl (fun t l => t.graft l.1 l.2) t

@[simp] theorem graftAll_nil (t : ChainTree) : t.graftAll [] = t := rfl

@[simp] theorem graftAll_cons (t : ChainTree) (l : BinaryOp × NodeId) (links : Links) :
    t.graftAll (l :: links) = (t.graft l.1 l.2).graftAll links := rfl

theorem graftAll_append (t : ChainTree) (xs ys : Links) :
    t.graftAll (xs ++ ys) = (t.graftAll xs).graftAll ys := List.foldl_append

theorem first_graft (op : BinaryOp) (id : NodeId) (t : ChainTree) :
    (t.graft op id).first = t.first := by
  cases t with
  | operand v => rfl
  | join o left right => simp only [graft]; split_ifs <;> rfl

theorem links_graft (op : BinaryOp) (id : NodeId) (t : ChainTree) :
    (t.graft op id).links = t.links ++ [(op, id)] := by
  induction t with
  | operand v => rfl
  | join o left right _ ih =>
    simp only [graft]
    split_ifs
    · simp [links, ih, first_graft]
    · simp [links, first]

theorem graft_eq_join (op : BinaryOp) (id : NodeId) (t : ChainTree) :
    ∃ o l r, t.graft op id = .join o l r := by
  cases t with
  | operand v => exact ⟨_, _, _, rfl⟩
  | join o left right =>
    simp only [graft]
    split_ifs
    · exact ⟨_, _, _, rfl⟩
    · exact ⟨_, _, _, rfl⟩

/-- The new root is the old one or the new operator, and the new operator only where it binds no
tighter. -/
theorem top?_graft {op o : BinaryOp} {id : NodeId} {t : ChainTree} (h : o ∈ (t.graft op id).top?) :
    o = op ∨ o ∈ t.top? := by
  cases t with
  | operand v => simp_all [graft, top?]
  | join p left right =>
    simp only [graft] at h
    split_ifs at h <;> simp_all [top?]

theorem ordered_graft (op : BinaryOp) (id : NodeId) (t : ChainTree) (h : t.Ordered) :
    (t.graft op id).Ordered := by
  induction t with
  | operand v => simp [graft, Ordered, top?]
  | join o left right _ ih =>
    obtain ⟨hl, hr, hleft, hright⟩ := h
    simp only [graft]
    split_ifs with hlt
    · refine ⟨hl, fun p hp => ?_, hleft, ih hright⟩
      rcases top?_graft hp with rfl | hp
      · exact hlt
      · exact hr p hp
    · refine ⟨?_, by simp [top?], ⟨hl, hr, hleft, hright⟩, trivial⟩
      rintro p hp
      obtain rfl : o = p := by simpa [top?] using hp
      exact Nat.le_of_not_lt hlt

theorem first_graftAll (t : ChainTree) (links : Links) : (t.graftAll links).first = t.first := by
  induction links generalizing t with
  | nil => rfl
  | cons l links ih => rw [graftAll_cons, ih, first_graft]

theorem links_graftAll (t : ChainTree) (links : Links) :
    (t.graftAll links).links = t.links ++ links := by
  induction links generalizing t with
  | nil => simp
  | cons l links ih => rw [graftAll_cons, ih, links_graft, List.append_assoc, List.singleton_append]

theorem ordered_graftAll (t : ChainTree) (links : Links) (h : t.Ordered) :
    (t.graftAll links).Ordered := by
  induction links generalizing t with
  | nil => exact h
  | cons l links ih => exact ih _ (ordered_graft _ _ _ h)

/-- Operators that bind tighter than the root all go into its right operand. -/
theorem graftAll_join (op : BinaryOp) (left right : ChainTree) (links : Links)
    (h : ∀ l ∈ links, op.priority < l.1.priority) :
    (join op left right).graftAll links = join op left (right.graftAll links) := by
  induction links generalizing right with
  | nil => rfl
  | cons l links ih =>
    have hl : op.priority < l.1.priority := h l (by simp)
    rw [graftAll_cons, graft, if_pos hl, ih _ fun k hk => h k (by simp [hk]), graftAll_cons]

/-- An operator that binds no tighter than the root becomes the root. -/
theorem graft_of_top (op : BinaryOp) (id : NodeId) (t : ChainTree)
    (h : ∀ o ∈ t.top?, op.priority ≤ o.priority) : t.graft op id = join op t (operand id) := by
  cases t with
  | operand v => rfl
  | join o left right =>
    have : ¬ o.priority < op.priority := by simpa [top?] using h
    rw [graft, if_neg this]

/-! ### Precedence climbing -/

/-- Reads operators while they have at least the priority `least`. The right operand of an operator
is read with a bound above its own priority, so that operators of equal priority join from the left.
Returns the tree and what is left to read. -/
def climb (least : Nat) (left : ChainTree) (links : Links) :
    { r : ChainTree × Links // r.2.length ≤ links.length } :=
  match links with
  | [] => ⟨(left, []), le_rfl⟩
  | (op, id) :: rest =>
    if op.priority < least then ⟨(left, (op, id) :: rest), le_rfl⟩
    else
      let right := climb (op.priority + 1) (.operand id) rest
      have : right.1.2.length < rest.length + 1 := Nat.lt_succ_of_le right.2
      let whole := climb least (.join op left right.1.1) right.1.2
      ⟨whole.1, Nat.le_trans whole.2 (Nat.le_of_lt this)⟩
  termination_by links.length
  decreasing_by
    · exact Nat.lt_succ_self _
    · exact this

/-- The tree that precedence climbing builds for a whole chain. -/
def climbAll (first : NodeId) (links : Links) : ChainTree := (climb 0 (.operand first) links).1.1

private theorem takeWhile_drop_takeWhile {α : Type} (p q : α → Bool) (hpq : ∀ a, q a → p a)
    (xs : List α) : xs.takeWhile p = xs.takeWhile q ++ (xs.dropWhile q).takeWhile p := by
  induction xs with
  | nil => rfl
  | cons x xs ih =>
    by_cases hq : q x
    · simp [hq, hpq x hq, ih]
    · simp [hq]

private theorem dropWhile_dropWhile {α : Type} (p q : α → Bool) (hpq : ∀ a, q a → p a)
    (xs : List α) : (xs.dropWhile q).dropWhile p = xs.dropWhile p := by
  induction xs with
  | nil => rfl
  | cons x xs ih =>
    by_cases hq : q x
    · simp [hq, hpq x hq, ih]
    · simp [hq]

/-- Climbing takes the operators down to its bound and grafts them, if the first of them binds no
tighter than the root that is already there. -/
theorem climb_eq (least : Nat) (left : ChainTree) (links : Links)
    (h : ∀ l ∈ links.head?, ∀ o ∈ left.top?, l.1.priority ≤ o.priority) :
    (climb least left links).1 =
      (left.graftAll (links.takeWhile fun l => least ≤ l.1.priority), links.dropWhile fun l =>
        least ≤ l.1.priority) := by
  fun_induction climb least left links with
  | case1 least left => rfl
  | case2 least left op id rest hlt => simp [Nat.not_le.mpr hlt]
  | case3 least left op id rest hlt right _ whole ihr ihw =>
    have hle : least ≤ op.priority := Nat.le_of_not_lt hlt
    have hright := ihr (by simp [top?])
    set tight := rest.takeWhile fun l => decide (op.priority + 1 ≤ l.1.priority) with htight
    set loose := rest.dropWhile fun l => decide (op.priority + 1 ≤ l.1.priority) with hloose
    -- the operators of the right operand bind tighter than `op`, so grafting puts them there too
    have hjoin : join op left right.1.1 = (left.graft op id).graftAll tight := by
      rw [hright, graft_of_top op id left (h (op, id) rfl), graftAll_join]
      intro l hl
      have := List.mem_takeWhile_imp hl
      simp only [decide_eq_true_eq] at this
      omega
    have hnext : ∀ l ∈ loose.head?, l.1.priority ≤ op.priority := by
      intro l hl
      have := List.head?_dropWhile_not (fun l : BinaryOp × NodeId => decide (op.priority + 1 ≤
        l.1.priority)) rest
      rw [← hloose, Option.mem_def.mp hl] at this
      simp only [decide_eq_false_iff_not] at this
      omega
    have hwhole := ihw (by rw [hright]; simpa [top?] using hnext)
    have hpq (l : BinaryOp × NodeId) : decide (op.priority + 1 ≤ l.1.priority) →
        decide (least ≤ l.1.priority) := by
      simp only [decide_eq_true_eq]
      omega
    rw [hwhole, hjoin, hright, ← graftAll_append]
    simp only [List.takeWhile_cons, List.dropWhile_cons, hle, decide_true, if_true, graftAll_cons]
    rw [takeWhile_drop_takeWhile _ _ hpq rest, dropWhile_dropWhile _ _ hpq rest]

theorem climbAll_eq (first : NodeId) (links : Links) :
    climbAll first links = (operand first).graftAll links := by
  rw [climbAll, climb_eq 0 _ _ (by simp [top?]), List.takeWhile_eq_self_iff.mpr (by simp)]

end ChainTree

/-! ### Chains in a pool -/

/-- Whether chains take the node as one piece: it is no operator, or one in parentheses. -/
def Node.isOperand (n : Node) : Bool :=
  match n.kind with
  | .binary _ _ _ => n.flags.inParens
  | _ => true

namespace Pool

variable {pool : Pool} {js : Finset ℕ} {t : ChainTree} {id : NodeId}

def IsOperand (pool : Pool) (id : NodeId) : Prop :=
  ∃ n, pool.nodes[id.index]? = some n ∧ n.isOperand

theorem IsOperand.lt {p : Pool} (h : p.IsOperand id) : id.index < p.size := by
  obtain ⟨n, hn, -⟩ := h
  exact (Array.getElem?_eq_some_iff.mp hn).1

theorem IsOperand.extend {p q : Pool} (h : p.IsOperand id) (hext : p.Extends q) :
    q.IsOperand id := by
  obtain ⟨n, hn, hop⟩ := h
  exact ⟨n, (hext.nodes _ (IsOperand.lt ⟨n, hn, hop⟩)).trans hn, hop⟩

/-- The chain that a node of the pool stands for, and the positions of the nodes that join it. No
node joins it twice, so that a change at one place of the tree shows nowhere else. -/
inductive Shows (pool : Pool) : NodeId → ChainTree → Finset ℕ → Prop
  | operand {id : NodeId} (h : pool.IsOperand id) : Shows pool id (.operand id) ∅
  | join {id l r : NodeId} {op : BinaryOp} {tl tr : ChainTree} {jl jr : Finset ℕ} {n : Node}
    (hn : pool.nodes[id.index]? = some n) (hkind : n.kind = .binary op l r)
    (hparens : n.flags.inParens = false) (hl : Shows pool l tl jl) (hr : Shows pool r tr jr)
    (hid : id.index ∉ jl ∪ jr) (hjoints : Disjoint jl jr) :
    Shows pool id (.join op tl tr) (insert id.index (jl ∪ jr))

theorem rotationChild?_of_isOperand {n : Node} (h : n.isOperand) (op : BinaryOp) :
    n.rotationChild? op = none := by
  unfold Node.isOperand at h
  unfold Node.rotationChild?
  split <;> simp_all

theorem Shows.joints_subset (h : pool.Shows id t js) : js ⊆ Finset.range pool.size := by
  induction h with
  | operand h => exact Finset.empty_subset _
  | join hn _ _ _ _ _ _ ihl ihr =>
    refine Finset.insert_subset ?_ (Finset.union_subset ihl ihr)
    exact Finset.mem_range.mpr (Array.getElem?_eq_some_iff.mp hn).1

theorem Shows.lt (h : pool.Shows id t js) : id.index < pool.size := by
  cases h with
  | operand h => exact h.lt
  | join hn => exact (Array.getElem?_eq_some_iff.mp hn).1

/-- A chain is seen in every pool that has its operands and the nodes that join it. -/
theorem Shows.transfer {p q : Pool} (h : p.Shows id t js)
    (hoperands : ∀ id, p.IsOperand id → q.IsOperand id)
    (hjoints : ∀ i ∈ js, q.nodes[i]? = p.nodes[i]?) :
    q.Shows id t js := by
  induction h with
  | operand h => exact .operand (hoperands _ h)
  | join hn hkind hparens _ _ hid hdis ihl ihr =>
    refine .join ((hjoints _ (by simp)).trans hn) hkind hparens (ihl fun i hi => ?_)
      (ihr fun i hi => ?_) hid hdis
    · exact hjoints i (by simp [hi])
    · exact hjoints i (by simp [hi])

/-- A node that joins a chain is no operand. -/
theorem Shows.joint_not_isOperand (h : pool.Shows id t js) {v : NodeId} (hv : v.index ∈ js) :
    ¬ pool.IsOperand v := by
  induction h with
  | operand h => simp at hv
  | @join id l r op tl tr jl jr n hn hkind hparens _ _ _ _ ihl ihr =>
    simp only [Finset.mem_insert, Finset.mem_union] at hv
    rcases hv with hv | hv | hv
    · rintro ⟨m, hm, hop⟩
      rw [hv, hn, Option.some.injEq] at hm
      subst hm
      simp [Node.isOperand, hkind, hparens] at hop
    · exact ihl hv
    · exact ihr hv

/-- All nodes of `p` outside `js` are nodes of `q`. -/
def KeepsOutside (p q : Pool) (js : Finset ℕ) : Prop :=
  ∀ i < p.size, i ∉ js → q.nodes[i]? = p.nodes[i]?

theorem KeepsOutside.isOperand {p q : Pool} (h : p.KeepsOutside q js) {v : NodeId}
    (hv : v.index ∉ js) (ho : p.IsOperand v) : q.IsOperand v := by
  obtain ⟨n, hn, hop⟩ := ho
  exact ⟨n, (h _ (Array.getElem?_eq_some_iff.mp hn).1 hv).trans hn, hop⟩

theorem KeepsOutside.mono {p q : Pool} {js ks : Finset ℕ} (h : p.KeepsOutside q js)
    (hsub : js ⊆ ks) : p.KeepsOutside q ks := fun i hi hk => h i hi fun hj => hk (hsub hj)

/-- The node of a chain that the walk stops at goes below the new operator. -/
private theorem attachAt_root {op : BinaryOp} {id right : NodeId} {n : Node}
    (h : pool.Shows id t js) (hright : pool.IsOperand right) (hn : pool.nodes[id.index]? = some n)
    (hstop : n.rotationChild? op = none) (levels : Nat) :
    ∃ root stop q, pool.attachAt op right (some id) (levels + 1) = .ok (some root, stop, q) ∧
      q.Shows root (.join op t (.operand right)) (insert pool.size js) ∧ pool.KeepsOutside q js ∧
      q.size = pool.size + 1 ∧ q.lists = pool.lists := by
  have ⟨operand, hoperand, _⟩ := hright
  let span := n.span.merge operand.span
  let q := (pool.alloc (.binary op id right) span).2
  have hkeep : pool.KeepsOutside q ∅ :=
    fun i hi _ => (Extends.alloc pool (.binary op id right) span).nodes i hi
  have hleft : q.Shows id t js :=
    h.transfer (fun _ => hkeep.isOperand (by simp)) fun i hi =>
      hkeep i (Finset.mem_range.mp (h.joints_subset hi)) (by simp)
  have hr : q.Shows right (.operand right) ∅ := .operand (hkeep.isOperand (by simp) hright)
  have hnew : pool.size ∉ js := fun hmem => by simpa using h.joints_subset hmem
  have hnode := alloc_node pool (.binary op id right) span
  refine ⟨⟨pool.size⟩, span.stop, q, ?_, ?_, hkeep.mono (Finset.empty_subset _),
    alloc_size _ _ _, rfl⟩
  · simp only [attachAt, get_eq hn, get_eq hoperand, hstop, bind, Except.bind]
    rfl
  · have hjoin : q.Shows ⟨pool.size⟩ (.join op t (.operand right)) (insert pool.size (js ∪ ∅)) :=
      .join hnode rfl rfl hleft hr (by simpa using hnew) (Finset.disjoint_empty_right _)
    simpa using hjoin

/-- The node at the head of a spine after its right operand was replaced. -/
private theorem shows_extendRight {pool q : Pool} {id l r r' : NodeId} {o : BinaryOp}
    {tl tr tr' : ChainTree} {jl jr : Finset ℕ} {n : Node} (stop : Nat)
    (hn : pool.nodes[id.index]? = some n) (hkind : n.kind = .binary o l r)
    (hparens : n.flags.inParens = false) (hl : pool.Shows l tl jl) (hr : pool.Shows r tr jr)
    (hid : id.index ∉ jl ∪ jr) (hdis : Disjoint jl jr) (hq : q.Shows r' tr' (insert pool.size jr))
    (hkeep : pool.KeepsOutside q jr) (hsize : q.size = pool.size + 1)
    (hlists : q.lists = pool.lists) : ∃ q', q.modify (some id) (·.extendRight (some r') stop) =
      .ok q' ∧ q'.Shows id (.join o tl tr') (insert pool.size (insert id.index (jl ∪ jr))) ∧
      pool.KeepsOutside q' (insert id.index (jl ∪ jr)) ∧ q'.size = pool.size + 1 ∧
      q'.lists = pool.lists := by
  have hlt : id.index < pool.size := (Array.getElem?_eq_some_iff.mp hn).1
  obtain ⟨hidl, hidr⟩ : id.index ∉ jl ∧ id.index ∉ jr := by simpa using hid
  have hqn : q.nodes[id.index]? = some n := (hkeep _ hlt hidr).trans hn
  let q' := { q with nodes := q.nodes.modify id.index (·.extendRight (some r') stop) }
  have hother (i : ℕ) (hi : i ≠ id.index) : q'.nodes[i]? = q.nodes[i]? := by
    simp [q', Array.getElem?_modify, hi.symm]
  have hhead : q'.nodes[id.index]? = some (n.extendRight (some r') stop) := by
    simp [q', Array.getElem?_modify, hqn]
  have hnop : n.isOperand = false := by simp [Node.isOperand, hkind, hparens]
  -- the head of the spine is no operand, before and after
  have hoperands (v : NodeId) (hv : q.IsOperand v) : q'.IsOperand v := by
    obtain ⟨m, hm, hop⟩ := hv
    refine ⟨m, (hother _ fun he => ?_).trans hm, hop⟩
    rw [he, hqn, Option.some.injEq] at hm
    simp [← hm, hnop] at hop
  have hleft : q'.Shows l tl jl := by
    refine hl.transfer (fun v hv => hoperands v (hkeep.isOperand (fun hj =>
      hr.joint_not_isOperand hj hv) hv)) ?_
    intro i hi
    rw [hother i fun he => hidl (he ▸ hi)]
    exact hkeep i (Finset.mem_range.mp (hl.joints_subset hi)) (Finset.disjoint_left.mp hdis hi)
  have hright : q'.Shows r' tr' (insert pool.size jr) := by
    refine hq.transfer hoperands fun i hi => hother i ?_
    rintro rfl
    rcases Finset.mem_insert.mp hi with hi | hi
    · omega
    · exact hidr hi
  have hnew : pool.size ∉ jl := fun hmem => by simpa using hl.joints_subset hmem
  refine ⟨q', modify_eq (by omega) _, ?_, ?_, by simpa [q', size] using hsize, hlists⟩
  · have hkind' : (n.extendRight (some r') stop).kind = .binary o l r' := by
      simp [Node.extendRight, hkind]
    have := Shows.join hhead hkind' hparens hleft hright
      (by simp [hidl, hidr, Nat.ne_of_lt hlt]) (by simp [hnew, hdis])
    rwa [Finset.union_insert, Finset.insert_comm] at this
  · intro i hi hmem
    simp only [Finset.mem_insert, Finset.mem_union, not_or] at hmem
    rw [hother i hmem.1, hkeep i hi hmem.2.2]

/-- The walk down the right spine grafts. It changes no node but those that join the chain, and adds
one. -/
theorem attachAt_shows (op : BinaryOp) {right id : NodeId}
    (h : pool.Shows id t js) (hright : pool.IsOperand right) {levels : Nat}
    (hlevels : js.card < levels) : ∃ root stop q, pool.attachAt op right (some id) levels =
      .ok (some root, stop, q) ∧ q.Shows root (t.graft op right) (insert pool.size js) ∧
      pool.KeepsOutside q js ∧ q.size = pool.size + 1 ∧
      q.lists = pool.lists := by
  induction h generalizing levels with
  | @operand id ho =>
    have ⟨n, hn, hop⟩ := ho
    obtain _ | levels := levels
    · omega
    exact attachAt_root (.operand ho) hright hn (rotationChild?_of_isOperand hop op) levels
  | @join id l r o tl tr jl jr n hn hkind hparens hl hr hid hdis _ ihr =>
    obtain _ | levels := levels
    · omega
    rw [Finset.card_insert_of_notMem hid, Finset.card_union_of_disjoint hdis] at hlevels
    have hrot : n.rotationChild? op = if o.priority < op.priority then some (some r) else none := by
      simp [Node.rotationChild?, hkind, hparens]
    by_cases hlt : o.priority < op.priority
    · rw [if_pos hlt] at hrot
      rw [ChainTree.graft, if_pos hlt]
      obtain ⟨r', stop, q, heq, hq, hkeep, hsize, hlists⟩ := @ihr levels (by omega)
      obtain ⟨q', hmod, hq'⟩ := shows_extendRight stop hn hkind hparens hl hr hid
        hdis hq hkeep hsize hlists
      refine ⟨id, stop, q', ?_, hq'⟩
      simp only [attachAt, get_eq hn, hrot, heq, hmod, bind, Except.bind]
      rfl
    · rw [if_neg hlt] at hrot
      rw [ChainTree.graft, if_neg hlt]
      exact attachAt_root (.join hn hkind hparens hl hr hid hdis) hright hn hrot levels

theorem attachBinary_shows {id right : NodeId} (h : pool.Shows id t js)
    (op : BinaryOp) (hright : pool.IsOperand right) :
    ∃ root q, pool.attachBinary id op right = .ok (some root, q) ∧
      q.Shows root (t.graft op right) (insert pool.size js) ∧
      pool.KeepsOutside q js ∧ q.size = pool.size + 1 ∧ q.lists = pool.lists := by
  have hcard : js.card < pool.size + 1 := by
    have := Finset.card_le_card h.joints_subset
    rw [Finset.card_range] at this
    omega
  obtain ⟨root, stop, q, heq, hq⟩ := attachAt_shows op h hright hcard
  exact ⟨root, q, by rw [attachBinary, heq]; rfl, hq⟩

/-! ### Chains that grow over a pool -/

/-- A chain whose joints are all newer than `base`, in a pool that extends `base`. -/
structure Grown (base pool : Pool) (root : NodeId) (t : ChainTree) (js : Finset ℕ) : Prop where
  extends_base : base.Extends pool
  chain : pool.Shows root t js
  new_joints : ∀ i ∈ js, base.size ≤ i

theorem Grown.extend {base p q : Pool} {root : NodeId} (h : Grown base p root t js)
    (hpq : p.Extends q) : Grown base q root t js := by
  refine ⟨h.extends_base.trans hpq, h.chain.transfer (fun _ ho => ho.extend hpq) fun i hi =>
    ?_, h.new_joints⟩
  exact hpq.nodes i (Finset.mem_range.mp (h.chain.joints_subset hi))

/-- One more operand: the step of every chain. -/
theorem Grown.attach {base pool : Pool} {root right : NodeId}
    (h : Grown base pool root t js) (op : BinaryOp) (hright : pool.IsOperand right) :
    ∃ root' q, pool.attachBinary root op right = .ok (some root', q) ∧
      Grown base q root' (t.graft op right) (insert pool.size js) ∧ base.size ≤ root'.index := by
  obtain ⟨root', q, heq, hshow, hkeep, hsize, hlists⟩ := attachBinary_shows h.chain op hright
  have hbase := h.extends_base
  have hle := hbase.size_le
  have hnew : ∀ i ∈ insert pool.size js, base.size ≤ i := by
    intro i hi
    rcases Finset.mem_insert.mp hi with rfl | hi
    · exact hle
    · exact h.new_joints i hi
  have hroot : root'.index ∈ insert pool.size js := by
    obtain ⟨o, l, r, hj⟩ := ChainTree.graft_eq_join op right t
    rw [hj] at hshow
    generalize insert pool.size js = ks at hshow
    cases hshow with
    | join => simp
  refine ⟨root', q, heq, ⟨⟨by omega, fun i hi => ?_, hlists ▸ hbase.lists_le, hlists ▸ hbase.lists⟩,
    hshow, hnew⟩, hnew _ hroot⟩
  rw [hkeep i (by omega) fun hj => absurd (h.new_joints i hj) (by omega), hbase.nodes i hi]

/-- Joins operands to a chain one after the other. -/
def attachAll (pool : Pool) (root : NodeId) : Links → Except Fault (NodeId × Pool)
  | [] => .ok (root, pool)
  | (op, id) :: rest => do
    let (joined, pool) ← pool.attachBinary root op id
    pool.attachAll (joined.getD root) rest

theorem Grown.attachAll {base pool : Pool} {root : NodeId} (links : Links)
    (h : Grown base pool root t js) (hlinks : ∀ l ∈ links, base.IsOperand l.2) :
    ∃ root' q ks, pool.attachAll root links = .ok (root', q) ∧
    Grown base q root' (t.graftAll links) ks := by
  induction links generalizing pool root t js with
  | nil => exact ⟨root, pool, js, rfl, h⟩
  | cons l rest ih =>
    obtain ⟨root', q, heq, hq, -⟩ := h.attach l.1 ((hlinks l (by simp)).extend h.extends_base)
    obtain ⟨root'', q', ks, heq', hrest⟩ := ih hq fun k hk => hlinks k (by simp [hk])
    refine ⟨root'', q', ks, ?_, hrest⟩
    simp only [Pool.attachAll, heq, bind, Except.bind, Option.getD_some, heq']

/-- Joining a chain always succeeds. It leaves the chain in its order, with every operator above
those that bind tighter and equal ones joined from the left, which is the tree of precedence
climbing. No node that was there before, operand or not, is changed. -/
theorem attachAll_precedence (pool : Pool) (first : NodeId) (links : Links)
    (hfirst : pool.IsOperand first) (hlinks : ∀ l ∈ links, pool.IsOperand l.2) :
    ∃ root q t joints, pool.attachAll first links = .ok (root, q) ∧ q.Shows root t joints ∧
      (t.first = first ∧ t.links = links) ∧ t.Ordered ∧ t = ChainTree.climbAll first links ∧
      (∀ i ∈ joints, pool.size ≤ i) ∧ ∀ i < pool.size, q.nodes[i]? = pool.nodes[i]? := by
  have hgrown : Grown pool pool first (.operand first) ∅ :=
    ⟨Extends.refl pool, .operand hfirst, by simp⟩
  obtain ⟨root, q, js, heq, hq⟩ := hgrown.attachAll links hlinks
  refine ⟨root, q, _, js, heq, hq.chain, ⟨?_, ?_⟩, ?_, ?_, hq.new_joints, hq.extends_base.nodes⟩
  · exact ChainTree.first_graftAll _ _
  · exact ChainTree.links_graftAll _ _
  · exact ChainTree.ordered_graftAll _ _ trivial
  · exact (ChainTree.climbAll_eq first links).symm

/-- In `a - (b + c) * d` the operand in parentheses stays whole, below a product below the
difference. -/
theorem attachAll_precedence_difference :
    let name : Node := ⟨.identifier ⟨0, 1⟩, ⟨0, 1⟩, {}, 0⟩
    let sum : Node := ⟨.binary .add (some ⟨0⟩) (some ⟨1⟩), ⟨0, 1⟩, { inParens := true }, 0⟩
    let pool : Pool := ⟨0, #[name, name, sum, name], #[], 4⟩
    ∃ root q t joints, pool.attachAll ⟨0⟩ [(.sub, ⟨2⟩), (.mul, ⟨3⟩)] = .ok (root, q) ∧
      q.Shows root t joints ∧ (t.first = ⟨0⟩ ∧ t.links = [(.sub, ⟨2⟩), (.mul, ⟨3⟩)]) ∧ t.Ordered ∧
      t = ChainTree.climbAll ⟨0⟩ [(.sub, ⟨2⟩), (.mul, ⟨3⟩)] ∧
      (∀ i ∈ joints, pool.size ≤ i) ∧ ∀ i < pool.size, q.nodes[i]? = pool.nodes[i]? := by
  intro name sum pool
  refine attachAll_precedence pool ⟨0⟩ [(.sub, ⟨2⟩), (.mul, ⟨3⟩)] ⟨name, rfl, rfl⟩ ?_
  simp only [List.forall_mem_cons, List.not_mem_nil, false_imp_iff, implies_true, and_true]
  exact ⟨⟨sum, rfl, rfl⟩, name, rfl, rfl⟩

end Pool

end MicroCompiler.Ast
