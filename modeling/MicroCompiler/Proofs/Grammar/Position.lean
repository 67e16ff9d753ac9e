import MicroCompiler.Proofs.Ast.Joining
import MicroCompiler.Proofs.Grammar.Backtracking

/-! What a production that succeeds has read and written. A state is seen as the next token and a
pool, and every token read ends before the next one starts. `Ensures` follows the code through
sequences, attempts and alternatives, and the primitive productions have one rule each. -/

namespace MicroCompiler.Grammar

open Ast (BinaryOp Node NodeId NodeKind Pool)
open Token (Cursor Kind)
open Production

variable {α β : Type} {src : Source} {st : State} {t : Token} {pool : Pool} {Q : α → State → Prop}
  {p : Production α}

/-- The state in which a token is next. -/
structure Stands (src : Source) (st : State) (t : Token) (pool : Pool) : Prop where
  sound : st.cursor.Sound src
  next : (st.cursor.peek src).1 = t
  pool : st.pool = pool

namespace Stands

theorem start (src : Source) (pool : Pool) :
    Stands src ⟨.start, pool⟩ (Token.next src.bytes 0) pool :=
  ⟨Cursor.sound_start src, rfl, rfl⟩

section

variable (h : Stands src st t pool)

include h

theorem exists_next : ∃ offset, t = Token.next src.bytes offset := by
  obtain ⟨hnext, -⟩ := Cursor.sound_peek h.sound t
    (by rw [← h.next]; unfold Cursor.peek; split <;> simp_all)
  exact hnext

theorem le : t.span.start ≤ t.span.stop := by
  obtain ⟨offset, rfl⟩ := h.exists_next
  exact Nat.le_add_right _ _

/-- A token that is well-formed begins and ends with an ASCII byte. -/
theorem solid (herror : t.kind.isError = false) (heof : t.kind ≠ .eof) : t.Solid src := by
  obtain ⟨offset, rfl⟩ := h.exists_next
  exact Token.solid_next herror heof

theorem string (hkind : t.kind = .string) : t.span.start + 2 ≤ t.span.stop := by
  obtain ⟨offset, rfl⟩ := h.exists_next
  exact Token.next_string hkind

theorem peek : Stands src { st with cursor := (st.cursor.peek src).2 } t pool := by
  refine ⟨Cursor.sound_peek h.sound, ?_, h.pool⟩
  rw [← h.next]
  unfold Cursor.peek
  cases hahead : st.cursor.ahead <;> simp [hahead]

theorem setPool (q : Pool) : Stands src { st with pool := q } t q := ⟨h.sound, h.next, rfl⟩

/-- The token behind a token starts no earlier than that one stops. -/
theorem eat :
    ∃ t', t.span.stop ≤ t'.span.start ∧
    Stands src { st with cursor := (st.cursor.eat src).2 } t' pool := by
  obtain ⟨-, hoffset⟩ := Cursor.sound_peek h.sound t
    (by rw [← h.next]; unfold Cursor.peek; split <;> simp_all)
  refine ⟨Token.next src.bytes t.span.stop, ?_, Cursor.sound_eat _ _, ?_, h.pool⟩
  · simp only [Token.next]
    omega
  · rw [← hoffset]
    rfl

end

end Stands

/-! ### Outcomes -/

/-- Whatever value the production succeeds with, `Q` holds of it and of the state behind. -/
def Production.Ensures (p : Production α) (src : Source) (st : State) (Q : α → State → Prop) :
    Prop :=
  ∀ a st', p src st = .ok a st' → Q a st'

theorem Production.Ensures.mono {Q' : α → State → Prop} (h : p.Ensures src st Q')
    (himp : ∀ a st', Q' a st' → Q a st') : p.Ensures src st Q :=
    fun a st' ho => himp a st' (h a st' ho)

theorem Production.Ensures.and {Q' : α → State → Prop} (h : p.Ensures src st Q)
    (h' : p.Ensures src st Q') : p.Ensures src st fun a st' => Q a st' ∧ Q' a st' :=
  fun a st' ho => ⟨h a st' ho, h' a st' ho⟩

theorem ensures_true : p.Ensures src st fun _ _ => True := fun _ _ _ => trivial

theorem Production.Ensures.bind {p : Production β} {f : β → Production α} {Q' : β → State → Prop}
    (h : p.Ensures src st Q') (hf : ∀ b st', Q' b st' → (f b).Ensures src st' Q) :
    (p >>= f).Ensures src st Q := by
  intro a st'' ho
  simp only [Bind.bind, Production.bind] at ho
  split at ho
  next b st' hp => exact hf b st' (h b st' hp) a st'' ho
  next => cases ho
  next => cases ho

theorem ensures_pure {a : α} (h : Q a st) : (pure a : Production α).Ensures src st Q := by
  rintro _ _ ⟨⟩
  exact h

theorem ensures_fail {e : Diagnostic} : (fail e : Production α).Ensures src st Q := by
  rintro _ _ ⟨⟩

theorem ensures_unexpected {code : Diagnostic.Code} {wanted : String} {found : Token} :
    (unexpected code wanted found : Production α).Ensures src st Q := by
  rintro _ _ ⟨⟩

theorem ensures_stalled : (stalled : Production α).Ensures src st Q := by
  rintro _ _ ⟨⟩

theorem ensures_attempt (h : Stands src st t pool)
    (hp : ∀ st', Stands src st' t pool → p.Ensures src st' Q) : (attempt p).Ensures src st Q := by
  intro a st' ho
  simp only [attempt] at ho
  split at ho
  next => cases ho
  next => exact hp _ h.peek a st' ho

/-- Alternatives that failed before have undone what they did. -/
theorem ensures_orElse {ps : List (Production α)} {best : Diagnostic} {st₁ : State}
    (h : Stands src st t pool) (hundone : Undone src st st₁) (hundoes : ∀ p ∈ ps, Undoes src p)
    (hps : ∀ p ∈ ps, ∀ st' q, Stands src st' t q → q.nodes = pool.nodes → q.lists = pool.lists →
      p.Ensures src st' Q) :
    (orElse best ps).Ensures src st₁ Q := by
  induction ps generalizing best st₁ with
  | nil => exact ensures_fail
  | cons p ps ih =>
    intro a st' ho
    simp only [orElse] at ho
    split at ho
    next e st₂ hp =>
      have hundone' := hundone.trans (hundoes p (by simp) (hundone.sound h.sound) hp)
      exact ih hundone' (fun q hq => hundoes q (by simp [hq])) (fun q hq =>
        hps q (by simp [hq])) a st' ho
    next =>
      have h₁ : Stands src st₁ t st₁.pool := by
        refine ⟨hundone.sound h.sound, ?_, rfl⟩
        rw [hundone.cursor, h.next]
        rfl
      rw [← h.pool] at hps
      exact hps p (by simp) st₁ st₁.pool h₁ hundone.nodes hundone.lists a st' ho

theorem ensures_firstOf {ps : List (Production α)} (h : Stands src st t pool)
    (hundoes : ∀ p' ∈ p :: ps, Undoes src p') (hps : ∀ p' ∈ p :: ps, ∀ st' q, Stands src st' t q →
      q.nodes = pool.nodes → q.lists = pool.lists →
      p'.Ensures src st' Q) : (firstOf (p :: ps)).Ensures src st Q := by
  intro a st' ho
  simp only [firstOf] at ho
  split at ho
  next e st₁ hp =>
    have hundone := hundoes p (by simp) h.sound hp
    exact ensures_orElse h hundone (fun q hq => hundoes q (by simp [hq])) (fun q hq =>
      hps q (by simp [hq])) a st' ho
  next => exact hps p (by simp) st pool h rfl rfl a st' ho

theorem ensures_orUnexpected {code : Diagnostic.Code} {wanted : String} {start : Token}
    (h : p.Ensures src st Q) : (orUnexpected code wanted start p).Ensures src st Q := by
  intro a st' ho
  simp only [orUnexpected] at ho
  split at ho
  next =>
    split_ifs at ho
  next => exact h a st' ho

/-! ### Tokens -/

/-- The token was consumed: the next one starts no earlier than it stops. -/
def Past (src : Source) (st : State) (t : Token) (pool : Pool) : Prop :=
  ∃ t', t.span.stop ≤ t'.span.start ∧ Stands src st t' pool

section

variable (h : Stands src st t pool)

include h

theorem ensures_peek : peek.Ensures src st (fun u st' => u = t ∧ Stands src st' t pool) := by
  rintro _ _ ⟨⟩
  exact ⟨h.next, h.peek⟩

theorem ensures_eat : eat.Ensures src st (fun u st' => u = t ∧ Past src st' t pool) := by
  rintro _ _ ⟨⟩
  exact ⟨h.next, h.eat⟩

theorem ensures_check {kind : Kind} :
    (check kind).Ensures src st (fun b st' => b = (t.kind == kind) ∧ Stands src st' t pool) := by
  refine (ensures_peek h).bind ?_
  rintro u st' ⟨rfl, h'⟩
  exact ensures_pure ⟨rfl, h'⟩

theorem ensures_eatIf {kind : Kind} : (eatIf kind).Ensures src st (fun o st' =>
      (o = some t ∧ t.kind = kind ∧ Past src st' t pool) ∨ (o = none ∧ Stands src st' t pool)) := by
  refine (ensures_check h).bind ?_
  rintro b st' ⟨rfl, h'⟩
  by_cases hkind : t.kind = kind
  · rw [if_pos (by simpa using hkind)]
    refine (ensures_eat h').bind ?_
    rintro u st'' ⟨rfl, h''⟩
    exact ensures_pure (.inl ⟨rfl, hkind, h''⟩)
  · rw [if_neg (by simpa using hkind)]
    exact ensures_pure (.inr ⟨rfl, h'⟩)

theorem ensures_expectAs {code : Diagnostic.Code} {kind : Kind} :
    (expectAs code kind).Ensures src st (fun u st' => u = t ∧ t.kind = kind ∧
      Past src st' t pool) := by
  refine (ensures_peek h).bind ?_
  rintro u st' ⟨rfl, h'⟩
  by_cases hkind : u.kind = kind
  · rw [if_pos hkind]
    exact (ensures_eat h').mono fun v st'' ⟨hv, h''⟩ => ⟨hv, hkind, h''⟩
  · rw [if_neg hkind]
    exact ensures_unexpected

/-! ### Nodes -/

theorem ensures_alloc {kind : NodeKind} {span : Span} : (alloc kind span).Ensures src st
      (fun id st' => id = ⟨pool.size⟩ ∧ Stands src st' t (pool.build [] kind span)) := by
  obtain rfl := h.pool
  rintro _ _ ⟨⟩
  exact ⟨rfl, h.setPool _⟩

theorem ensures_allocList {ids : List NodeId} : (allocList ids).Ensures src st (fun range st' =>
      range = (pool.allocList (ids.map some)).1 ∧
        Stands src st' t (pool.allocList (ids.map some)).2) := by
  obtain rfl := h.pool
  rintro _ _ ⟨⟩
  exact ⟨rfl, h.setPool _⟩

end

theorem get_eq_ok {id : NodeId} {n : Node} (h : pool.get (some id) = .ok n) :
    pool.nodes[id.index]? = some n := by
  cases hn : pool.nodes[id.index]? with
  | none => simp [Pool.get, Ast.Slot.index, BoundsError.fetch, hn, Except.mapError] at h
  | some m =>
    rw [Pool.get_eq hn] at h
    rw [Except.ok.inj h]

theorem ensures_node {id : NodeId} (h : Stands src st t pool) :
    (node id).Ensures src st (fun n st' => pool.nodes[id.index]? = some n ∧
      Stands src st' t pool) := by
  obtain rfl := h.pool
  intro n st' ho
  simp only [node] at ho
  split at ho
  next m hget =>
    cases ho
    exact ⟨get_eq_ok hget, h⟩
  next => cases ho

theorem ensures_spanOf {id : NodeId} (h : Stands src st t pool) :
    (spanOf id).Ensures src st
      (fun s st' => (∃ n, pool.nodes[id.index]? = some n ∧ n.span = s) ∧
        Stands src st' t pool) := by
  refine (ensures_node h).bind ?_
  rintro n st' ⟨hn, h'⟩
  exact ensures_pure ⟨⟨n, hn, rfl⟩, h'⟩

theorem ensures_update {id : NodeId} {f : Node → Node} (h : Stands src st t pool) :
    (update id f).Ensures src st (fun _ st' => Stands src st' t (pool.change id.index f)) := by
  obtain rfl := h.pool
  intro u st' ho
  simp only [update, Pool.modify] at ho
  split_ifs at ho
  cases ho
  exact h.setPool _

theorem ensures_attach {left right : NodeId} {op : BinaryOp} (h : Stands src st t pool) :
    (attach left op right).Ensures src st (fun id st' => ∃ joined q,
      pool.attachBinary left op right = .ok (joined, q) ∧
      id = joined.getD left ∧ Stands src st' t q) := by
  obtain rfl := h.pool
  intro id st' ho
  simp only [attach] at ho
  split at ho
  next joined q hattach =>
    cases ho
    exact ⟨joined, q, hattach, rfl, h.setPool q⟩
  next => cases ho

end MicroCompiler.Grammar
