import Mathlib.Data.Option.Defs
import MicroCompiler.Ast.Outline
import MicroCompiler.Grammar.Expression
import MicroCompiler.Proofs.Ast.Graph
import MicroCompiler.Proofs.Layout.Tokens

/-! Nodes of two layouts. Nodes are alike if they differ in where they stand alone: they have the
same kind, flags and children, and the names and literals that they keep say the same. Pools of
nodes that are alike have the same outline, and every change of such pools leads to such pools
again, since it looks at offsets in order to compare them and no further. -/

namespace MicroCompiler.Ast

variable {src src' : Source} {kind kind' : NodeKind} {n n' : Node}

/-! ### Nodes -/

/-- The kinds differ in their spans alone, and these are related. -/
inductive NodeKind.Alike (same : Span → Span → Prop) : NodeKind → NodeKind → Prop
  | plain {kind : NodeKind} : kind.spans = [] → Alike same kind kind
  | identifier {s s' : Span} : same s s' → Alike same (.identifier s) (.identifier s')
  | string {s s' : Span} : same s s' → Alike same (.string s) (.string s')
  | member {s s' : Span} (container : Slot) : same s s' → Alike same (.member container s)
    (.member container s')
  | namedType {s s' : Span} : same s s' → Alike same (.namedType s) (.namedType s')
  | load {s s' : Span} : same s s' → Alike same (.load s) (.load s')
  | struct {name name' : Option Span} (members : NodeRange) :
    Option.Rel same name name' → Alike same (.struct name members) (.struct name' members)
  | const {s s' : Span} (value : Slot) : same s s' → Alike same (.const s value) (.const s' value)
  | var {s s' : Span} (type initializer : Slot) :
    same s s' → Alike same (.var s type initializer) (.var s' type initializer)
  | function {name name' library library' : Option Span} (params returns : NodeRange)
    (body : Slot) : Option.Rel same name name' → Option.Rel same library library' →
      Alike same (.function name params returns body library)
      (.function name' params returns body library')

/-- The nodes differ in where they stand alone. -/
structure Node.Alike (src src' : Source) (n n' : Node) : Prop where
  kind : n.kind.Alike (fun s s' => src.text s = src'.text s') n'.kind
  flags : n.flags = n'.flags
  serial : n.serial = n'.serial

theorem NodeKind.Alike.parts {same : Span → Span → Prop} (h : kind.Alike same kind') :
    kind.parts = kind'.parts := by
  cases h <;> rfl

theorem nameOr_congr {name name' : Option Span}
    (h : Option.Rel (fun s s' => src.text s = src'.text s') name name') :
    nameOr src name = nameOr src' name' := by
  cases h with
  | some hs => exact congrArg (" " ++ ·) hs
  | none => rfl

theorem quoted_congr {s s' : Span} (h : src.text s = src'.text s') :
    quoted src s = quoted src' s' := by
  rw [quoted, quoted, h]

theorem headline_function {name name' library library' : Option Span} {params returns : NodeRange}
    {body : Slot} {span span' : Span} {flags : Flags} {serial serial' : Nat}
    (hname : Option.Rel (fun s s' => src.text s = src'.text s') name name')
    (hlibrary : Option.Rel (fun s s' => src.text s = src'.text s') library library') :
    Node.headline ⟨.function name params returns body library, span, flags, serial⟩ src =
      Node.headline ⟨.function name' params returns body library', span', flags, serial'⟩ src' := by
  obtain ⟨inParens, foreign, variadic⟩ := flags
  simp only [Node.headline, nameOr_congr hname]
  cases hlibrary with
  | none => cases foreign <;> rfl
  | some hs =>
    cases foreign with
    | false => rfl
    | true => simp only [quoted_congr hs]

/-- The line of a node does not tell where it stands. -/
theorem Node.Alike.headline (h : n.Alike src src' n') : n.headline src = n'.headline src' := by
  obtain ⟨kind, span, flags, serial⟩ := n
  obtain ⟨kind', span', flags', serial'⟩ := n'
  obtain ⟨hkind, rfl, -⟩ := h
  cases hkind with
  | plain hplain =>
    cases kind with
    | identifier | string | member | namedType | load | const | var => cases hplain
    | struct name members =>
      obtain rfl : name = none := by simpa using hplain
      rfl
    | function name params returns body library =>
      obtain ⟨rfl, rfl⟩ : name = none ∧ library = none := by simpa using hplain
      exact headline_function .none .none
    | _ => rfl
  | identifier hs | namedType hs | member container hs | const value hs | var type init hs =>
    simp only [Node.headline, hs]
  | string hs | load hs => simp only [Node.headline, quoted_congr hs]
  | struct members hname => simp only [Node.headline, nameOr_congr hname]
  | function params returns body hname hlibrary => exact headline_function hname hlibrary

/-! ### Pools -/

/-- Both results are values, and related, or both are the same fault. -/
inductive Concur {α : Type} (V : α → α → Prop) : Except Fault α → Except Fault α → Prop
  | ok {a a' : α} : V a a' → Concur V (.ok a) (.ok a')
  | error (f : Fault) : Concur V (.error f) (.error f)

theorem Concur.bind {α β : Type} {V : α → α → Prop} {W : β → β → Prop} {x x' : Except Fault α}
    {f f' : α → Except Fault β} (h : Concur V x x') (hf : ∀ a a', V a a' → Concur W (f a) (f' a')) :
    Concur W (x >>= f) (x' >>= f') := by
  cases h with
  | ok hv => exact hf _ _ hv
  | error f => exact .error f

namespace Pool

/-- The pools have related nodes at the same places, and the same lists. -/
structure Related (R : Node → Node → Prop) (p p' : Pool) : Prop where
  size : p.size = p'.size
  nodes : ∀ (i : Nat) n n', p.nodes[i]? = some n → p'.nodes[i]? = some n' → R n n'
  lists : p.lists = p'.lists
  made : p.made = p'.made

variable {R : Node → Node → Prop} {p p' : Pool}

theorem Related.empty (file : Nat) : Related R (.empty file) (.empty file) :=
  ⟨rfl, by simp [Pool.empty], rfl, rfl⟩

section

variable (h : Related R p p')

include h

theorem Related.mono {R' : Node → Node → Prop} (himp : ∀ n n', R n n' → R' n n') :
    Related R' p p' :=
  ⟨h.size, fun i n n' hn hn' => himp n n' (h.nodes i n n' hn hn'), h.lists, h.made⟩

theorem Related.get (slot : Slot) : Concur R (p.get slot) (p'.get slot) := by
  have hsize : p.nodes.size = p'.nodes.size := h.size
  simp only [Pool.get, BoundsError.fetch, Except.mapError]
  by_cases hlt : slot.index < p.nodes.size
  · have hn : p.nodes[slot.index]? = some p.nodes[slot.index] := Array.getElem?_eq_getElem hlt
    have hn' : p'.nodes[slot.index]? = some p'.nodes[slot.index] :=
      Array.getElem?_eq_getElem (by omega)
    rw [hn, hn']
    exact .ok (h.nodes _ _ _ hn hn')
  · rw [Array.getElem?_eq_none (by omega), Array.getElem?_eq_none (by omega), hsize]
    exact .error _

theorem Related.alloc (span span' : Span)
    (hnode : R { kind, span, serial := p.made }
      { kind := kind', span := span', serial := p.made }) :
    (p.alloc kind span).1 = (p'.alloc kind' span').1 ∧
    Related R (p.alloc kind span).2 (p'.alloc kind' span').2 := by
  have hsize : p.nodes.size = p'.nodes.size := h.size
  refine ⟨by simp [Pool.alloc, hsize], by simp [h.size], fun i n n' hn hn' => ?_,
    h.lists, by simp [Pool.alloc, h.made]⟩
  simp only [Pool.alloc, Array.getElem?_push, ← hsize, ← h.made] at hn hn'
  split_ifs at hn hn' with hi
  · obtain rfl := Option.some.inj hn
    obtain rfl := Option.some.inj hn'
    exact hnode
  · exact h.nodes i n n' hn hn'

theorem Related.allocList (slots : List Slot) :
    (p.allocList slots).1 = (p'.allocList slots).1 ∧
    Related R (p.allocList slots).2 (p'.allocList slots).2 :=
  ⟨by simp [Pool.allocList, h.lists], h.size, h.nodes, by simp [Pool.allocList, h.lists], h.made⟩

theorem Related.modify (slot : Slot) {f f' : Node → Node} (hf : ∀ n n', R n n' → R (f n) (f' n')) :
    Concur (Related R) (p.modify slot f) (p'.modify slot f') := by
  have hsize : p.nodes.size = p'.nodes.size := h.size
  simp only [Pool.modify, ← hsize]
  split_ifs with hlt
  · refine .ok ⟨by simpa [Pool.size] using hsize, fun i n n' hn hn' => ?_, h.lists, h.made⟩
    simp only [Array.getElem?_modify] at hn hn'
    split_ifs at hn hn' with hi
    · obtain ⟨m, hm, rfl⟩ := Option.map_eq_some_iff.mp hn
      obtain ⟨m', hm', rfl⟩ := Option.map_eq_some_iff.mp hn'
      exact hf m m' (h.nodes i m m' hm hm')
    · exact h.nodes i n n' hn hn'
  · exact .error _

theorem Related.rollback (m : Mark) : Related R (p.rollback m) (p'.rollback m) := by
  have hsize : p.nodes.size = p'.nodes.size := h.size
  refine ⟨by simp [Pool.rollback, Pool.size, hsize], fun i n n' hn hn' =>
    ?_, by simp [Pool.rollback, h.lists], h.made⟩
  have hkept : ∀ {xs : Array Node} {k : Nat} {m : Node}, (xs.shrink k)[i]? = some m →
      xs[i]? = some m := by
    intro xs k m hm
    obtain ⟨hi, rfl⟩ := Array.getElem?_eq_some_iff.mp hm
    rw [Array.getElem_shrink]
    exact Array.getElem?_eq_getElem _
  exact h.nodes i n n' (hkept hn) (hkept hn')

theorem Related.list (range : NodeRange) : p.list range = p'.list range := by
  rw [Pool.list, Pool.list, h.lists]

end

/-- Pools of nodes that are alike have the same outlines. -/
theorem Related.linesFrom (h : Related (Node.Alike src src') p p') (depth : Nat) (slot : Slot)
    (levels : Nat) : p.linesFrom src depth slot levels = p'.linesFrom src' depth slot levels := by
  induction levels generalizing depth slot with
  | zero => rfl
  | succ levels ih =>
    have hget := h.get slot
    rw [Pool.linesFrom, Pool.linesFrom]
    generalize p.get slot = found at hget
    generalize p'.get slot = found' at hget
    cases hget with
    | ok halike => simp only [bind, Except.bind, halike.kind.parts, halike.headline, ih, h.list]
    | error f => rfl

theorem Related.outline (h : Related (Node.Alike src src') p p') (slot : Slot) :
    p.outline src slot = p'.outline src' slot := by
  rw [Pool.outline, Pool.outline, Pool.lines, Pool.lines, h.linesFrom, h.size]

end Pool

/-! ### Corresponding nodes -/

/-- The nodes are alike and stand at corresponding tokens. -/
structure Corresponds (src src' : Source) (n n' : Node) :
    Prop extends Node.Alike src src' n n' where
  span : SameEnds src src' n.span n'.span

theorem Node.Alike.rotationChild? (h : n.Alike src src' n') (op : BinaryOp) :
    n.rotationChild? op = n'.rotationChild? op := by
  obtain ⟨kind, span, flags, serial⟩ := n
  obtain ⟨kind', span', flags', serial'⟩ := n'
  obtain ⟨hkind, rfl, -⟩ := h
  cases hkind <;> rfl

theorem Corresponds.extendRight (hrelaid : Relaid src src') (h : Corresponds src src' n n')
    (right : Slot) {stop stop' : Nat} (hstop : SameStop src src' stop stop') :
    Corresponds src src' (n.extendRight right stop) (n'.extendRight right stop') := by
  obtain ⟨kind, span, flags, serial⟩ := n
  obtain ⟨kind', span', flags', serial'⟩ := n'
  obtain ⟨⟨hkind, hflags, hserial⟩, hbegins, hends⟩ := h
  refine ⟨⟨?_, hflags, hserial⟩, hbegins, hends.max hrelaid hstop⟩
  have hsame := hkind
  cases hkind with
  | plain hplain =>
    cases kind with
    | binary op left right => exact .plain rfl
    | _ => exact .plain hplain
  | _ => exact hsame

/-- Two pools take a further operand at the same place. -/
theorem Pool.Related.attachAt {p p' : Pool} (hrelaid : Relaid src src')
    (h : Pool.Related (Corresponds src src') p p')
    (op : BinaryOp) (right : NodeId) (left : Slot) (levels : Nat) :
    Concur (fun r r' => r.1 = r'.1 ∧ SameStop src src' r.2.1 r'.2.1 ∧
      Pool.Related (Corresponds src src') r.2.2 r'.2.2)
      (p.attachAt op right left levels) (p'.attachAt op right left levels) := by
  induction levels generalizing left with
  | zero => exact .error _
  | succ levels ih =>
    refine (h.get left).bind fun n n' hnode => ?_
    rw [hnode.rotationChild? op]
    split
    · refine (h.get right).bind fun m m' hoperand => ?_
      have hspan := hnode.span.merge hrelaid hoperand.span
      have hplain : NodeKind.spans (.binary op left right) = [] := rfl
      obtain ⟨hid, hpools⟩ := h.alloc (n.span.merge m.span) (n'.span.merge m'.span)
        ⟨⟨.plain hplain, rfl, rfl⟩, hspan⟩
      exact .ok ⟨congrArg some hid, hspan.2, hpools⟩
    · rename_i child hchild
      refine (ih child).bind ?_
      rintro ⟨joined, stop, q⟩ ⟨_, stop', q'⟩ ⟨rfl, hstop, hpools⟩
      refine (hpools.modify left fun m m' hm => hm.extendRight hrelaid joined hstop).bind
        fun r r' hr => ?_
      exact .ok ⟨rfl, hstop, hr⟩

/-- A name given to declarations that are alike. -/
theorem NodeKind.Alike.named? {same : Span → Span → Prop} (h : kind.Alike same kind') {s s' : Span}
    (hs : same s s') : Option.Rel (NodeKind.Alike same) (kind.named? s) (kind'.named? s') := by
  cases h with
  | plain hplain =>
    cases kind with
    | struct name members => exact .some (.struct members (.some hs))
    | function name params returns body library =>
      obtain ⟨rfl, rfl⟩ : name = none ∧ library = none := by simpa using hplain
      exact .some (.function params returns body (.some hs) .none)
    | _ => exact .none
  | struct members hname => exact .some (.struct members (.some hs))
  | function params returns body hname hlibrary =>
    exact .some (.function params returns body (.some hs) hlibrary)
  | _ => exact .none

end MicroCompiler.Ast
