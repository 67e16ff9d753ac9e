import Mathlib.Data.Finset.Card
import MicroCompiler.Ast.Pool

/-! Pools that grow. One pool extends another if it has all of its nodes and lists at the same
places. Adding nodes and lists extends a pool, changing a node that came later keeps the extension,
and a rollback to the older pool's mark brings back exactly its tables. -/

namespace MicroCompiler.Ast.Pool

theorem get_eq {pool : Pool} {id : NodeId} {n : Node} (h : pool.nodes[id.index]? = some n) :
    pool.get (some id) = .ok n := by
  simp [get, Slot.index, BoundsError.fetch, h, Except.mapError]

theorem modify_eq {pool : Pool} {id : NodeId} (h : id.index < pool.size) (f : Node → Node) :
    pool.modify (some id) f = .ok { pool with nodes := pool.nodes.modify id.index f } := by
  simp only [size] at h
  simp [modify, Slot.index, h]

@[simp] theorem alloc_id (pool : Pool) (kind : NodeKind) (span : Span) :
    (pool.alloc kind span).1 = ⟨pool.size⟩ := rfl

@[simp] theorem alloc_size (pool : Pool) (kind : NodeKind) (span : Span) :
    (pool.alloc kind span).2.size = pool.size + 1 := by simp [alloc, size]

theorem alloc_node (pool : Pool) (kind : NodeKind) (span : Span) :
    (pool.alloc kind span).2.nodes[pool.size]? = some { kind, span, serial := pool.made } := by
    simp [alloc, size]

/-- The pool holds all that `p` holds, at the same places. -/
structure Extends (p q : Pool) : Prop where
  size_le : p.size ≤ q.size
  nodes : ∀ i < p.size, q.nodes[i]? = p.nodes[i]?
  lists_le : p.lists.size ≤ q.lists.size
  lists : ∀ i < p.lists.size, q.lists[i]? = p.lists[i]?

namespace Extends

theorem refl (p : Pool) : p.Extends p := ⟨le_rfl, fun _ _ => rfl, le_rfl, fun _ _ => rfl⟩

theorem of_tables {p q : Pool} (hn : q.nodes = p.nodes) (hl : q.lists = p.lists) : p.Extends q :=
  ⟨by simp [size, hn], fun i _ => by rw [hn], by rw [hl], fun i _ => by rw [hl]⟩

theorem trans {p q r : Pool} (h : p.Extends q) (h' : q.Extends r) : p.Extends r where
  size_le := h.size_le.trans h'.size_le
  nodes i hi := (h'.nodes i (hi.trans_le h.size_le)).trans (h.nodes i hi)
  lists_le := h.lists_le.trans h'.lists_le
  lists i hi := (h'.lists i (hi.trans_le h.lists_le)).trans (h.lists i hi)

theorem alloc (p : Pool) (kind : NodeKind) (span : Span) : p.Extends (p.alloc kind span).2 where
  size_le := by simp
  nodes i hi := by
    simp only [Pool.alloc, size] at hi ⊢
    rw [Array.getElem?_push_lt hi, Array.getElem?_eq_getElem hi]
  lists_le := le_rfl
  lists _ _ := rfl

theorem allocList (p : Pool) (slots : List Slot) : p.Extends (p.allocList slots).2 where
  size_le := le_rfl
  nodes _ _ := rfl
  lists_le := by simp [Pool.allocList, ← Array.length_toList]
  lists i hi := by
    rw [← Array.getElem?_toList, Pool.allocList, Array.toList_appendList, ← Array.getElem?_toList]
    exact List.getElem?_append_left (by simpa using hi)

theorem node {p q : Pool} (h : p.Extends q) {i : Nat} {n : Node} (hn : p.nodes[i]? = some n) :
    q.nodes[i]? = some n := by
  rw [h.nodes i (Array.getElem?_eq_some_iff.mp hn).1, hn]

/-- A node that is newer than `p` may be changed. -/
theorem modify {p q : Pool} (h : p.Extends q) {i : Nat} (hi : p.size ≤ i) (f : Node → Node) :
    p.Extends { q with nodes := q.nodes.modify i f } where
  size_le := by simpa [size] using h.size_le
  nodes j hj := by
    rw [Array.getElem?_modify, if_neg (by omega), h.nodes j hj]
  lists_le := h.lists_le
  lists := h.lists

private theorem shrink_size_eq {α : Type} {xs ys : Array α} (hle : xs.size ≤ ys.size)
    (h : ∀ i < xs.size, ys[i]? = xs[i]?) : ys.shrink xs.size = xs := by
  apply Array.ext
  · rw [Array.size_shrink]
    omega
  · intro i hi hi'
    rw [Array.getElem_shrink]
    simpa [hi', Nat.lt_of_lt_of_le hi' hle] using h i hi'

theorem rollback {p q : Pool} (h : p.Extends q) :
    (q.rollback p.mark).nodes = p.nodes ∧ (q.rollback p.mark).lists = p.lists :=
  ⟨shrink_size_eq h.size_le h.nodes, shrink_size_eq h.lists_le h.lists⟩

end Extends

end MicroCompiler.Ast.Pool
