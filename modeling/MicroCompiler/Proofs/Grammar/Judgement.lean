import MicroCompiler.Grammar.File
import MicroCompiler.Proofs.Pool
import MicroCompiler.Proofs.TokenStream

/-! Judgements about productions. A state is seen as the kinds of the tokens to come and a pool.
`Sat` says what holds of an outcome, case by case, and follows the code through sequences, attempts
and alternatives; the primitive productions have one rule each. -/

namespace MicroCompiler.Grammar

open Ast (Node NodeId NodeKind Number Pool)
open Token (Cursor Kind)
open Production

variable {α β : Type} {src : Source} {st : State} {k : Kind} {ks : List Kind} {pool : Pool}
  {Q : α → State → Prop} {E : State → Prop} {B : Prop} {p : Production α} {kind : Kind}
  {code : Diagnostic.Code}

/-! ### What a production sees -/

/-- The kind that a derivation sees in a token. A number out of range is no number. -/
def symbolOf (src : Source) (t : Token) : Kind :=
  if t.kind = .number ∧ (Number.ofText? (src.text t.span)).isNone then .unexpected else t.kind

theorem symbolOf_eq {t : Token} (h : t.kind ≠ .number) : symbolOf src t = t.kind := by
  simp [symbolOf, h]

/-- Whether derivations see the kind as it is. -/
def isPlain (kind : Kind) : Bool := kind != .number && kind != .unexpected

/-- Whether they do, and a token of the kind is never the last. -/
def isFixed (kind : Kind) : Bool := isPlain kind && kind != .eof

theorem isPlain_of_isFixed (h : isFixed k) : isPlain k := (Bool.and_eq_true_iff.mp h).1

theorem ne_eof_of_isFixed (h : isFixed k) : k ≠ .eof := bne_iff_ne.mp (Bool.and_eq_true_iff.mp h).2

theorem kind_eq_iff (src : Source) {t : Token} (hk : isPlain k) :
    t.kind = k ↔ symbolOf src t = k := by
  rw [isPlain, Bool.and_eq_true_iff, bne_iff_ne, bne_iff_ne] at hk
  unfold symbolOf
  split_ifs with h
  · simp [h.1, hk.1.symm, hk.2.symm]
  · rfl

theorem kind_of_symbol {t : Token} (ht : symbolOf src t = k) (hkind : t.kind = kind)
    (hk : isPlain kind) : kind = k := ((kind_eq_iff src hk).mp hkind).symm.trans ht

/-- The state in which the tokens to come have the given kinds. -/
structure At (src : Source) (st : State) (ks : List Kind) (pool : Pool) : Prop where
  sound : st.cursor.Sound src
  rest : (st.cursor.rest src).map (symbolOf src) = ks
  pool : st.pool = pool

theorem At.ne_nil (h : At src st ks pool) : ks ≠ [] := by
  have := h.rest
  rw [Cursor.rest_eq] at this
  rintro rfl
  split_ifs at this <;> simp at this

theorem At.exists_cons (h : At src st ks pool) : ∃ k rest, ks = k :: rest :=
  List.exists_cons_of_ne_nil h.ne_nil

theorem At.head (h : At src st (k :: ks) pool) : symbolOf src (st.cursor.peek src).1 = k := by
  have := h.rest
  rw [Cursor.rest_eq] at this
  split_ifs at this <;> simp_all

theorem At.eof (h : At src st (.eof :: ks) pool) : ks = [] := by
  have hkind : (st.cursor.peek src).1.kind = .eof :=
    (kind_eq_iff src rfl).mpr h.head
  have := h.rest
  rw [Cursor.rest_eq, if_pos hkind] at this
  simp_all

theorem At.peek (h : At src st ks pool) :
    At src { st with cursor := (st.cursor.peek src).2 } ks pool :=
  ⟨Cursor.sound_peek h.sound, by rw [Cursor.rest_peek, h.rest], h.pool⟩

theorem At.eat (h : At src st (k :: ks) pool) (hk : k ≠ .eof) :
    At src { st with cursor := (st.cursor.eat src).2 } ks pool := by
  have hkind : (st.cursor.peek src).1.kind ≠ .eof := fun he =>
    hk (h.head ▸ (kind_eq_iff src rfl).mp he)
  have := h.rest
  rw [Cursor.rest_eq, if_neg hkind] at this
  exact ⟨Cursor.sound_eat _ _, (List.cons.inj this).2, h.pool⟩

theorem At.setPool (h : At src st ks pool) (q : Pool) : At src { st with pool := q } ks q :=
  ⟨h.sound, h.rest, rfl⟩

/-! ### Outcomes -/

/-- The outcome is a value with `Q`, a failure in a state with `E`, or broken, in which case `B`
holds. -/
def Production.Sat (p : Production α) (src : Source) (st : State) (Q : α → State → Prop)
    (E : State → Prop) (B : Prop) : Prop :=
  match p src st with
  | .ok a st => Q a st
  | .failed _ st => E st
  | .broken _ => B

theorem sat_iff : p.Sat src st Q E B ↔
      (∃ a st', p src st = .ok a st' ∧ Q a st') ∨ (∃ e st', p src st = .failed e st' ∧ E st') ∨
        ∃ f, p src st = .broken f ∧ B := by
  unfold Production.Sat
  cases p src st <;> simp

theorem Production.Sat.mono {Q' : α → State → Prop} {E' : State → Prop} (h : p.Sat src st Q' E' B)
    (hQ : ∀ a st, Q' a st → Q a st) (hE : ∀ st, E' st → E st) : p.Sat src st Q E B := by
  rcases sat_iff.mp h with ⟨a, st', ho, h⟩ | ⟨e, st', ho, h⟩ | ⟨f, ho, h⟩
  · exact sat_iff.mpr (.inl ⟨a, st', ho, hQ a st' h⟩)
  · exact sat_iff.mpr (.inr (.inl ⟨e, st', ho, hE st' h⟩))
  · exact sat_iff.mpr (.inr (.inr ⟨f, ho, h⟩))

theorem Production.Sat.bind {p : Production β} {f : β → Production α} {Q' : β → State → Prop}
    {E' : State → Prop} (h : p.Sat src st Q' E' B) (hE : ∀ st', E' st' → E st')
    (hQ : ∀ b st', Q' b st' → (f b).Sat src st' Q E B) : (p >>= f).Sat src st Q E B := by
  unfold Production.Sat
  simp only [Bind.bind, Production.bind]
  rcases sat_iff.mp h with ⟨b, st', ho, h⟩ | ⟨e, st', ho, h⟩ | ⟨f, ho, h⟩
  · simp only [ho]
    exact hQ b st' h
  · simpa only [ho] using hE st' h
  · simpa only [ho] using h

theorem Production.Sat.imp {Q' : α → State → Prop} (h : p.Sat src st Q' E B)
    (hQ : ∀ a st, Q' a st → Q a st) : p.Sat src st Q E B := h.mono hQ fun _ he => he

/-- A failure of the first step is one of the whole. -/
theorem Production.Sat.andThen {p : Production β} {f : β → Production α} {Q' : β → State → Prop}
    (h : p.Sat src st Q' E B) (hQ : ∀ b st', Q' b st' → (f b).Sat src st' Q E B) :
    (p >>= f).Sat src st Q E B := h.bind (fun _ he => he) hQ

theorem sat_pure {a : α} (h : Q a st) : (pure a : Production α).Sat src st Q E B := h

theorem sat_fail {e : Diagnostic} (h : E st) : (fail e : Production α).Sat src st Q E B := h

theorem sat_unexpected {wanted : String} {found : Token} (h : E st) :
    (unexpected code wanted found : Production α).Sat src st Q E B := h

/-- An attempt that fails goes back to where it began. -/
theorem sat_attempt {E' : State → Prop} (h : At src st ks pool)
    (hp : ∀ st', At src st' ks pool → p.Sat src st' Q E' B)
    (hE : ∀ st' st'', E' st' → At src st'' ks (st'.pool.rollback pool.mark) → E st'') :
    (attempt p).Sat src st Q E B := by
  unfold Production.Sat
  simp only [attempt]
  rcases sat_iff.mp (hp _ h.peek) with ⟨a, st', ho, h'⟩ | ⟨e, st', ho, h'⟩ | ⟨f, ho, h'⟩
  · simpa only [ho] using h'
  · simp only [ho]
    refine hE st' _ h' ⟨Cursor.sound_reset h.sound, ?_, by rw [h.pool]⟩
    rw [Cursor.rest_reset h.sound, h.rest]
  · simpa only [ho] using h'

/-- An attempt that fails in an extension of the pool gives the pool back. -/
theorem sat_attempt_extends (h : At src st ks pool)
    (hp : ∀ st', At src st' ks pool → p.Sat src st' Q (fun st'' => pool.Extends st''.pool) B) :
    (attempt p).Sat src st Q (fun st'' => pool.Extends st''.pool) B := by
  refine sat_attempt h hp ?_
  intro st' st'' hext h''
  rw [h''.pool]
  exact .of_tables hext.rollback.1 hext.rollback.2

theorem sat_orElse_nil {best : Diagnostic} (h : E st) :
    (orElse best [] : Production α).Sat src st Q E B := h

theorem sat_orElse_cons {best : Diagnostic} {rest : List (Production α)}
    (h : p.Sat src st Q (fun st' => ∀ best, (orElse best rest).Sat src st' Q E B) B) :
    (orElse best (p :: rest)).Sat src st Q E B := by
  unfold Production.Sat
  simp only [orElse]
  rcases sat_iff.mp h with ⟨a, st', ho, h⟩ | ⟨e, st', ho, h⟩ | ⟨f, ho, h⟩
  · simpa only [ho] using h
  · simp only [ho]
    exact h (best.furthest e)
  · simpa only [ho] using h

theorem sat_firstOf {rest : List (Production α)}
    (h : p.Sat src st Q (fun st' => ∀ best, (orElse best rest).Sat src st' Q E B) B) :
    (firstOf (p :: rest)).Sat src st Q E B := by
  unfold Production.Sat
  simp only [firstOf]
  rcases sat_iff.mp h with ⟨a, st', ho, h⟩ | ⟨e, st', ho, h⟩ | ⟨f, ho, h⟩
  · simpa only [ho] using h
  · simp only [ho]
    exact h e
  · simpa only [ho] using h

theorem sat_orUnexpected {wanted : String} {start : Token}
    (h : p.Sat src st Q E B) : (orUnexpected code wanted start p).Sat src st Q E B := by
  unfold Production.Sat
  simp only [orUnexpected]
  rcases sat_iff.mp h with ⟨a, st', ho, h⟩ | ⟨e, st', ho, h⟩ | ⟨f, ho, h⟩
  · simpa only [ho] using h
  · simp only [ho]
    split_ifs <;> exact h
  · simpa only [ho] using h

/-! ### Tokens -/

theorem sat_peek (h : At src st (k :: ks) pool) :
    peek.Sat src st (fun t st' => symbolOf src t = k ∧ At src st' (k :: ks) pool) E B :=
    ⟨h.head, h.peek⟩

theorem sat_eat (h : At src st (k :: ks) pool) (hk : k ≠ .eof) :
    eat.Sat src st (fun t st' => symbolOf src t = k ∧ At src st' ks pool) E B := ⟨h.head, h.eat hk⟩

theorem sat_check (h : At src st (k :: ks) pool) (hk : isPlain kind) :
    (check kind).Sat src st (fun b st' => b = decide (k = kind) ∧
      At src st' (k :: ks) pool) E B := by
  refine (sat_peek h).andThen ?_
  rintro t st' ⟨ht, h'⟩
  refine sat_pure ⟨?_, h'⟩
  rw [Bool.eq_iff_iff, beq_iff_eq, decide_eq_true_iff, kind_eq_iff src hk, ht]

theorem sat_eatIf (h : At src st (k :: ks) pool) (hfixed : isFixed kind) :
    (eatIf kind).Sat src st
      (fun o st' => (k = kind ∧ (∃ t, o = some t) ∧ At src st' ks pool) ∨
        (k ≠ kind ∧ o = none ∧ At src st' (k :: ks) pool)) E B := by
  refine (sat_check h (isPlain_of_isFixed hfixed)).andThen ?_
  rintro b st' ⟨rfl, h'⟩
  by_cases hk : k = kind
  · rw [if_pos (decide_eq_true hk)]
    subst hk
    refine (sat_eat h' (ne_eof_of_isFixed hfixed)).andThen ?_
    rintro t st'' ⟨-, h''⟩
    exact sat_pure (.inl ⟨rfl, ⟨t, rfl⟩, h''⟩)
  · rw [if_neg (by simpa using hk)]
    exact sat_pure (.inr ⟨hk, rfl, h'⟩)

theorem sat_eatIf_yes (h : At src st (kind :: ks) pool) (hfixed : isFixed kind) :
    (eatIf kind).Sat src st (fun o st' => (∃ t, o = some t) ∧ At src st' ks pool) E B := by
  refine (sat_eatIf h hfixed).imp ?_
  rintro o st' (⟨-, h'⟩ | ⟨hk, -⟩)
  · exact h'
  · exact absurd rfl hk

theorem sat_eatIf_no (h : At src st ks pool) (hne : ks.head? ≠ some kind) (hfixed : isFixed kind) :
    (eatIf kind).Sat src st (fun o st' => o = none ∧ At src st' ks pool) E B := by
  obtain ⟨k, ks, rfl⟩ := h.exists_cons
  refine (sat_eatIf h hfixed).imp ?_
  rintro o st' (⟨rfl, -⟩ | ⟨-, h'⟩)
  · simp at hne
  · exact h'

theorem sat_expectAs (h : At src st (k :: ks) pool) (hfixed : isFixed kind)
    (hE : ∀ st', k ≠ kind → st'.pool = pool → E st') :
    (expectAs code kind).Sat src st (fun _ st' => k = kind ∧ At src st' ks pool) E B := by
  have hiff {t : Token} := kind_eq_iff (t := t) src (isPlain_of_isFixed hfixed)
  refine (sat_peek h).andThen ?_
  rintro t st' ⟨ht, h'⟩
  by_cases hk : t.kind = kind
  · rw [if_pos hk]
    obtain rfl : kind = k := (hiff.mp hk).symm.trans ht
    exact (sat_eat h' (ne_eof_of_isFixed hfixed)).mono (fun _ _ h'' => ⟨rfl, h''.2⟩) fun _ => id
  · rw [if_neg hk]
    exact sat_unexpected (hE _ (fun he => hk (hiff.mpr (ht.trans he))) h'.pool)

section

variable (h : At src st ks pool)

include h

/-! ### Nodes -/

theorem sat_alloc {kind : NodeKind} {span : Span} :
    (alloc kind span).Sat src st (fun id st' => id = ⟨pool.size⟩ ∧
      At src st' ks (pool.alloc kind span).2) E B := by
  obtain rfl := h.pool
  exact ⟨rfl, h.setPool _⟩

theorem sat_allocList {ids : List NodeId} :
    (allocList ids).Sat src st (fun _ st' => At src st' ks (pool.allocList (ids.map some)).2)
    E B := by
  obtain rfl := h.pool
  exact h.setPool _

theorem sat_node {id : NodeId} (hid : id.index < pool.size) :
    (node id).Sat src st (fun n st' => pool.nodes[id.index]? = some n ∧
      At src st' ks pool) E B := by
  obtain rfl := h.pool
  have hn : st.pool.nodes[id.index]? = some (st.pool.nodes[id.index]) :=
    Array.getElem?_eq_getElem hid
  unfold Production.Sat
  simp only [node, Ast.Pool.get_eq hn]
  exact ⟨hn, h⟩

theorem sat_spanOf {id : NodeId} (hid : id.index < pool.size) :
    (spanOf id).Sat src st (fun _ st' => At src st' ks pool) E B := by
  refine (sat_node h hid).andThen ?_
  rintro n st' ⟨-, h'⟩
  exact sat_pure h'

theorem sat_update {id : NodeId} {f : Node → Node} (hid : id.index < pool.size) :
    (update id f).Sat src st (fun _ st' =>
      At src st' ks { pool with nodes := pool.nodes.modify id.index f }) E B := by
  obtain rfl := h.pool
  unfold Production.Sat
  simp only [update, Ast.Pool.modify_eq hid]
  exact h.setPool _

end

end MicroCompiler.Grammar
