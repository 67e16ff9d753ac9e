import MicroCompiler.Proofs.Grammar.Judgement
import MicroCompiler.Proofs.Grammar.Position
import MicroCompiler.Proofs.Layout.Tokens
import MicroCompiler.Proofs.Results

/-! Names and literals are tokens. A node keeps pieces of the source, and each of them is the span
of an identifier or what stands between the quotes of a string literal; a number is one that a
number token spells. This holds of a node that is made, and stays so when nodes are changed, joined
or given back. -/

namespace MicroCompiler

namespace Source

open Ast (Number)

variable (src : Source)

/-- The span is that of an identifier. -/
def HasName (s : Span) : Prop := ∃ t ∈ src.tokens, t.kind = .identifier ∧ s = t.span

/-- The span is that of a string literal without its quotes. -/
def HasLiteral (s : Span) : Prop := ∃ t ∈ src.tokens, t.kind = .string ∧ s = t.span.unquoted

/-- The number is the value of a number token. -/
def HasNumber (value : Number) : Prop :=
  ∃ t ∈ src.tokens, t.kind = .number ∧ Number.ofText? (src.text t.span) = some value

end Source

namespace Ast

variable {src : Source} {kind : NodeKind} {p q : Pool}

/-- What the node says stands in tokens of the source. -/
def NodeKind.Verbatim (src : Source) : NodeKind → Prop
  | .identifier s | .member _ s | .namedType s | .const s _ | .var s _ _ => src.HasName s
  | .string s | .load s => src.HasLiteral s
  | .number value => src.HasNumber value
  | .struct name _ => ∀ s ∈ name, src.HasName s
  | .function name _ _ _ library => (∀ s ∈ name, src.HasName s) ∧ ∀ s ∈ library, src.HasLiteral s
  | _ => True

theorem NodeKind.Verbatim.named {name : Span} {kind' : NodeKind} (h : kind.Verbatim src)
    (hname : src.HasName name) (hnamed : kind.named? name = some kind') : kind'.Verbatim src := by
  cases kind with
  | struct old members =>
    obtain rfl := Option.some.inj hnamed
    simpa [Verbatim] using hname
  | function old params returns body library =>
    obtain rfl := Option.some.inj hnamed
    exact ⟨by simpa using hname, h.2⟩
  | _ => cases hnamed

/-! ### Pools -/

theorem Pool.mem_of_get {s : Slot} {n : Node} (h : q.get s = .ok n) : n ∈ q.nodes :=
  Array.mem_of_getElem? (fetch_eq_ok.mp (mapError_eq_ok.mp h))

/-- What the nodes of the pool say stands in tokens of the source. -/
def Pool.Verbatim (src : Source) (q : Pool) : Prop := ∀ n ∈ q.nodes, n.kind.Verbatim src

namespace Pool.Verbatim

theorem get (h : q.Verbatim src) {s : Slot} {n : Node} (hn : q.get s = .ok n) :
    n.kind.Verbatim src :=
  h n (mem_of_get hn)

theorem alloc (h : q.Verbatim src) (hkind : kind.Verbatim src) (span : Span) :
    (q.alloc kind span).2.Verbatim src := by
  intro n hn
  rcases Array.mem_push.mp hn with hn | rfl
  · exact h n hn
  · exact hkind

theorem modify (h : q.Verbatim src) {s : Slot} {f : Node → Node}
    (hf : ∀ n : Node, n.kind.Verbatim src → (f n).kind.Verbatim src) (hq : q.modify s f = .ok p) :
    p.Verbatim src := by
  unfold Pool.modify at hq
  split_ifs at hq
  obtain rfl := Except.ok.inj hq
  intro n hn
  obtain ⟨i, hi⟩ := Array.getElem?_of_mem hn
  simp only [Array.getElem?_modify] at hi
  split_ifs at hi
  · obtain ⟨m, hm, rfl⟩ := Option.map_eq_some_iff.mp hi
    exact hf m (h m (Array.mem_of_getElem? hm))
  · exact h n (Array.mem_of_getElem? hi)

theorem rollback (h : q.Verbatim src) (m : Mark) : (q.rollback m).Verbatim src := by
  intro n hn
  rw [Pool.rollback, Array.shrink_eq_take, Array.take_eq_extract, Array.mem_def,
    Array.toList_extract, List.extract_eq_take_drop] at hn
  exact h n (Array.mem_def.mpr (List.mem_of_mem_drop (List.mem_of_mem_take hn)))

/-- Joining operands writes and changes operators alone, which keep no text. -/
theorem attachAt (h : q.Verbatim src) {op : BinaryOp} {right : NodeId} {left root : Slot}
    {stop levels : Nat} (hq : q.attachAt op right left levels = .ok (root, stop, p)) :
    p.Verbatim src := by
  induction levels generalizing left root stop p with
  | zero => cases hq
  | succ levels ih =>
    obtain ⟨n, hn, hq⟩ := bind_eq_ok.mp hq
    split at hq
    · obtain ⟨m, -, hq⟩ := bind_eq_ok.mp hq
      cases hq
      exact h.alloc (by exact trivial) _
    · obtain ⟨⟨joined, stop', r⟩, hr, hq⟩ := bind_eq_ok.mp hq
      obtain ⟨r', hr', hq⟩ := bind_eq_ok.mp hq
      cases hq
      refine (ih hr).modify (fun m hm => ?_) hr'
      obtain ⟨kind, span, flags, serial⟩ := m
      cases kind <;> exact hm

end Pool.Verbatim

end Ast

end MicroCompiler
