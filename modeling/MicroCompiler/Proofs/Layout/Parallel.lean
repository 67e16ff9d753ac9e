import Mathlib.Data.List.Forall2
import MicroCompiler.Proofs.Grammar.Acceptance.Text
import MicroCompiler.Proofs.Grammar.Position
import MicroCompiler.Proofs.Layout.Nodes

/-! Productions run on two layouts. Two runs go in parallel if, from states at the same place among
the tokens and with corresponding pools, both succeed with related values, both fail with
diagnostics that say the same of the same tokens, or both are broken. Sequences, attempts,
alternatives and loops of such productions are such productions, and so are those that read a token
or write a node. -/

namespace MicroCompiler

/-- The diagnostics say the same of the same tokens. -/
structure Diagnostic.Alike (src src' : Source) (e e' : Diagnostic) : Prop where
  code : e.code = e'.code
  message : e.message = e'.message
  span : CoverSame src src' e.span e'.span

namespace Grammar

open Ast (BinaryOp Corresponds Node NodeId NodeKind Pool)
open Token (Cursor Kind)
open Production

variable {α β : Type} {src src' : Source} {V : α → α → Prop} {W : β → β → Prop} {st st' : State}
  {t t' : Token} {p p' : Production α} {e e' d d' : Diagnostic}

/-! ### Diagnostics -/

theorem expected_alike (hrelaid : Relaid src src') (ht : Twins src src' t t')
    (code : Diagnostic.Code) (wanted : String) :
    (Diagnostic.expected code wanted t src).Alike src src' (.expected code wanted t' src') := by
  have hproper : Diagnostic.ofToken? t src = none := ofToken?_eq_none.mpr (hrelaid.proper t ht.mem)
  have hproper' : Diagnostic.ofToken? t' src' = none := ofToken?_eq_none.mpr
    (hrelaid.symm.proper t' ht.symm.mem)
  rw [Diagnostic.expected, Diagnostic.expected, hproper, hproper']
  exact ⟨rfl, by simp [ht.kind hrelaid], ht.coverSame⟩

/-- Of two diagnostics, the same one got further. -/
theorem furthest_alike (hrelaid : Relaid src src') (hd : d.Alike src src' d')
    (he : e.Alike src src' e') : (d.furthest e).Alike src src' (d'.furthest e') := by
  unfold Diagnostic.furthest Diagnostic.offset
  rw [hd.code, he.code]
  rcases hd.span.starts.trichotomy hrelaid he.span.starts with ⟨hlt, hlt'⟩ |
    ⟨heq, heq'⟩ | ⟨hlt, hlt'⟩
  · rwa [if_pos (.inl hlt), if_pos (.inl hlt')]
  · simp only [heq, heq', Nat.lt_irrefl, false_or, true_and]
    split_ifs
    · exact he
    · exact hd
  · rwa [if_neg (by omega), if_neg (by omega)]

/-! ### Outcomes -/

/-- The states are at the same place among the tokens, and their pools correspond. -/
structure Paired (src src' : Source) (st st' : State) : Prop where
  sound : st.cursor.Sound src
  sound' : st'.cursor.Sound src'
  rest : ∃ i, st.cursor.rest src = src.tokens.drop i ∧ st'.cursor.rest src' = src'.tokens.drop i
  pools : Pool.Related (Corresponds src src') st.pool st'.pool

/-- Both outcomes are values and related, or failures and alike, or broken. -/
inductive Outcome.Alike (src src' : Source) (V : α → α → Prop) : Outcome α → Outcome α → Prop
  | ok {a a' : α} {st st' : State} : V a a' → Paired src src' st st' → Alike src src' V
    (.ok a st) (.ok a' st')
  | failed {e e' : Diagnostic} {st st' : State} :
    e.Alike src src' e' → Paired src src' st st' → Alike src src' V (.failed e st) (.failed e' st')
  | broken (f f' : Fault) : Alike src src' V (.broken f) (.broken f')

/-- From paired states, the productions have outcomes that are alike. -/
def Parallel (src src' : Source) (V : α → α → Prop) (p p' : Production α) : Prop :=
  ∀ ⦃st st' : State⦄, Paired src src' st st' → (p src st).Alike src src' V (p' src' st')

theorem Paired.start (src src' : Source) (file : Nat) :
    Paired src src' ⟨.start, .empty file⟩ ⟨.start, .empty file⟩ :=
  ⟨Cursor.sound_start src, Cursor.sound_start src', ⟨0, rfl, rfl⟩, .empty file⟩

theorem Paired.setPool (h : Paired src src' st st') {q q' : Pool}
    (hpools : Pool.Related (Corresponds src src') q q') :
    Paired src src' { st with pool := q } { st' with pool := q' } :=
    ⟨h.sound, h.sound', h.rest, hpools⟩

theorem Paired.next (h : Paired src src' st st') :
    Twins src src' (st.cursor.peek src).1 (st'.cursor.peek src').1 := by
  have hhead : ∀ (c : Cursor) (src : Source), (c.rest src).head? = some (c.peek src).1 := by
    intro c src
    rw [Cursor.rest_eq]
    split_ifs <;> rfl
  obtain ⟨i, hrest, hrest'⟩ := h.rest
  refine ⟨i, ?_, ?_⟩
  · rw [← List.head?_drop, ← hrest, hhead]
  · rw [← List.head?_drop, ← hrest', hhead]

theorem Paired.peek (h : Paired src src' st st') :
    Paired src src' { st with cursor := (st.cursor.peek src).2 }
    { st' with cursor := (st'.cursor.peek src').2 } :=
  ⟨Cursor.sound_peek h.sound, Cursor.sound_peek h.sound', by simpa using h.rest, h.pools⟩

/-- Both go on to the next token, or stay at the end. -/
theorem Paired.eat (hrelaid : Relaid src src') (h : Paired src src' st st') :
    Paired src src' { st with cursor := (st.cursor.eat src).2 }
    { st' with cursor := (st'.cursor.eat src').2 } := by
  refine ⟨Cursor.sound_eat _ _, Cursor.sound_eat _ _, ?_, h.pools⟩
  have hkind := h.next.kind hrelaid
  obtain ⟨i, hrest, hrest'⟩ := h.rest
  by_cases heof : (st.cursor.peek src).1.kind = .eof
  · refine ⟨i, ?_, ?_⟩
    · rw [← hrest, Cursor.rest_eat_eof h.sound heof]
    · rw [← hrest', Cursor.rest_eat_eof h.sound' (hkind.symm.trans heof)]
  · rw [Cursor.rest_eq, if_neg heof] at hrest
    rw [Cursor.rest_eq, if_neg fun heof' => heof (hkind.trans heof')] at hrest'
    refine ⟨i + 1, ?_, ?_⟩
    · rw [← List.tail_drop, ← hrest, List.tail_cons]
    · rw [← List.tail_drop, ← hrest', List.tail_cons]

theorem Paired.reset (h : Paired src src' st st') {q q' : Pool}
    (hpools : Pool.Related (Corresponds src src') q q') :
    Paired src src' ⟨.reset (st.cursor.peek src).1, q⟩ ⟨.reset (st'.cursor.peek src').1, q'⟩ := by
  refine ⟨Cursor.sound_reset h.sound, Cursor.sound_reset h.sound', ?_, hpools⟩
  rw [Cursor.rest_reset h.sound, Cursor.rest_reset h.sound']
  exact h.rest

theorem Paired.mark (h : Paired src src' st st') : st.pool.mark = st'.pool.mark := by
  have hsize : st.pool.nodes.size = st'.pool.nodes.size := h.pools.size
  rw [Pool.mark, Pool.mark, hsize, h.pools.lists]

/-- What was read of the first run is known in the second step. -/
theorem Outcome.Alike.bind {f f' : α → Production β} (h : (p src st).Alike src src' V (p' src' st'))
    (hf : ∀ a a' s s', p src st = .ok a s → V a a' → Paired src src' s s' →
      (f a src s).Alike src src' W (f' a' src' s')) :
    ((p >>= f) src st).Alike src src' W ((p' >>= f') src' st') := by
  simp only [Bind.bind, Production.bind]
  generalize hp : p src st = o at h hf
  generalize p' src' st' = o' at h
  cases h with
  | ok hv hs => exact hf _ _ _ _ rfl hv hs
  | failed he hs => exact .failed he hs
  | broken f f' => exact .broken f f'

namespace Parallel

theorem bind {f f' : α → Production β} (h : Parallel src src' V p p')
    (hf : ∀ a a', V a a' → Parallel src src' W (f a) (f' a')) :
    Parallel src src' W (p >>= f) (p' >>= f') :=
  fun _ _ hst => (h hst).bind fun a a' _ _ _ hv hs => hf a a' hv hs

/-- Values that are the same in both runs. -/
theorem andThen {f f' : α → Production β} (h : Parallel src src' Eq p p')
    (hf : ∀ a, Parallel src src' W (f a) (f' a)) : Parallel src src' W (p >>= f) (p' >>= f') := by
  refine h.bind fun a a' ha => ?_
  rw [ha]
  exact hf a'

theorem mono {V' : α → α → Prop} (h : Parallel src src' V p p') (himp : ∀ a a', V a a' → V' a a') :
    Parallel src src' V' p p' := by
  intro st st' hst
  have ho := h hst
  generalize p src st = o at ho
  generalize p' src' st' = o' at ho
  cases ho with
  | ok hv hs => exact .ok (himp _ _ hv) hs
  | failed he hs => exact .failed he hs
  | broken f f' => exact .broken f f'

/-- What the first run ensures of a value. -/
theorem ensuring {Q : α → Prop} (h : Parallel src src' V p p')
    (hq : ∀ {st : State}, st.cursor.Sound src → p.Ensures src st fun a _ => Q a) :
    Parallel src src' (fun a a' => V a a' ∧ Q a) p p' := by
  intro st st' hst
  have ho := h hst
  have hvalue := hq hst.sound
  unfold Production.Ensures at hvalue
  generalize p src st = o at ho hvalue
  generalize p' src' st' = o' at ho
  cases ho with
  | ok hv hs => exact .ok ⟨hv, hvalue _ _ rfl⟩ hs
  | failed he hs => exact .failed he hs
  | broken f f' => exact .broken f f'

theorem pure {a a' : α} (h : V a a') : Parallel src src' V (pure a) (pure a') :=
  fun _ _ hst => .ok h hst

theorem fail (h : e.Alike src src' e') : Parallel src src' V (fail e) (fail e') :=
  fun _ _ hst => .failed h hst

theorem stalled : Parallel src src' V stalled stalled := fun _ _ _ => .broken _ _

theorem attempt (h : Parallel src src' V p p') : Parallel src src' V (attempt p) (attempt p') := by
  intro st st' hst
  simp only [Production.attempt]
  have ho := h hst.peek
  generalize p src { st with cursor := (st.cursor.peek src).2 } = o at ho
  generalize p' src' { st' with cursor := (st'.cursor.peek src').2 } = o' at ho
  cases ho with
  | ok hv hs => exact .ok hv hs
  | failed he hs =>
    rw [hst.mark]
    exact .failed he (hst.reset (hs.pools.rollback _))
  | broken f f' => exact .broken f f'

theorem orElse (hrelaid : Relaid src src') {ps ps' : List (Production α)}
    (h : List.Forall₂ (Parallel src src' V) ps ps')
    (he : e.Alike src src' e') : Parallel src src' V (orElse e ps) (orElse e' ps') := by
  induction h generalizing e e' with
  | nil => exact fail he
  | @cons p p' ps ps' hp _ ih =>
    intro st st' hst
    simp only [Production.orElse]
    have ho := hp hst
    generalize p src st = o at ho
    generalize p' src' st' = o' at ho
    cases ho with
    | ok hv hs => exact .ok hv hs
    | failed hd hs => exact ih (furthest_alike hrelaid he hd) hs
    | broken f f' => exact .broken f f'

theorem firstOf (hrelaid : Relaid src src') {ps ps' : List (Production α)}
    (hp : Parallel src src' V p p') (h : List.Forall₂ (Parallel src src' V) ps ps') :
    Parallel src src' V (firstOf (p :: ps)) (firstOf (p' :: ps')) := by
  intro st st' hst
  simp only [Production.firstOf]
  have ho := hp hst
  generalize p src st = o at ho
  generalize p' src' st' = o' at ho
  cases ho with
  | ok hv hs => exact .ok hv hs
  | failed he hs => exact orElse hrelaid h he hs
  | broken f f' => exact .broken f f'

/-- Both diagnostics point at the first token, or neither does. -/
theorem orUnexpected (hrelaid : Relaid src src') (h : Parallel src src' V p p')
    (ht : Twins src src' t t') (code : Diagnostic.Code) (wanted : String) :
    Parallel src src' V (orUnexpected code wanted t p) (orUnexpected code wanted t' p') := by
  intro st st' hst
  simp only [Production.orUnexpected]
  have ho := h hst
  generalize p src st = o at ho
  generalize p' src' st' = o' at ho
  cases ho with
  | ok hv hs => exact .ok hv hs
  | @failed e e' st₁ st₁' he hs =>
    have hfirst : e.offset = t.span.start ↔ e'.offset = t'.span.start := by
      have htokens := he.span.starts.trichotomy hrelaid ht.starts
      unfold Diagnostic.offset
      omega
    simp only [he.code, hfirst]
    split_ifs
    · exact .failed (expected_alike hrelaid ht code wanted) hs
    · exact .failed he hs
  | broken f f' => exact .broken f f'

end Parallel

/-! ### Reading tokens -/

theorem unexpected_parallel (hrelaid : Relaid src src') (ht : Twins src src' t t')
    (code : Diagnostic.Code) (wanted : String) :
    Parallel src src' V (unexpected code wanted t) (unexpected code wanted t') :=
  fun _ _ hst => .failed (expected_alike hrelaid ht code wanted) hst

theorem peek_parallel : Parallel src src' (Twins src src') peek peek :=
  fun _ _ hst => .ok hst.next hst.peek

section

variable (hrelaid : Relaid src src')

include hrelaid

theorem eat_parallel : Parallel src src' (Twins src src') eat eat :=
  fun _ _ hst => .ok hst.next (hst.eat hrelaid)

theorem check_parallel (kind : Kind) : Parallel src src' Eq (check kind) (check kind) :=
  peek_parallel.bind fun t t' ht => .pure (by rw [ht.kind hrelaid])

theorem eatIf_parallel (kind : Kind) :
    Parallel src src' (Option.Rel (Twins src src')) (eatIf kind) (eatIf kind) := by
  refine (check_parallel hrelaid kind).andThen fun found => ?_
  split_ifs
  · exact (eat_parallel hrelaid).bind fun t t' ht => .pure (.some ht)
  · exact .pure .none

theorem expectAs_parallel (code : Diagnostic.Code) (kind : Kind) :
    Parallel src src' (Twins src src') (expectAs code kind) (expectAs code kind) := by
  refine peek_parallel.bind fun t t' ht => ?_
  rw [ht.kind hrelaid]
  split_ifs
  · exact eat_parallel hrelaid
  · exact unexpected_parallel hrelaid ht code kind.describe

theorem expect_parallel (kind : Kind) :
    Parallel src src' (Twins src src') (expect kind) (expect kind) :=
    expectAs_parallel hrelaid _ kind

/-- A literal that is consumed is one. -/
theorem expectString_parallel :
    Parallel src src' (fun t t' => Twins src src' t t' ∧ t.kind = .string) (expect .string)
    (expect .string) := by
  refine (expect_parallel hrelaid .string).ensuring fun {st} hsound => ?_
  have hstands : Stands src st (st.cursor.peek src).1 st.pool := ⟨hsound, rfl, rfl⟩
  refine (ensures_expectAs hstands).mono ?_
  rintro u st' ⟨rfl, hkind, -⟩
  exact hkind

theorem eatString_parallel :
    Parallel src src' (fun s s' => Option.Rel (Twins src src') s s' ∧ ∀ t ∈ s, t.kind = .string)
      (eatIf .string) (eatIf .string) := by
  refine (eatIf_parallel hrelaid .string).ensuring fun {st} hsound => ?_
  have hstands : Stands src st (st.cursor.peek src).1 st.pool := ⟨hsound, rfl, rfl⟩
  refine (ensures_eatIf hstands).mono ?_
  rintro _ st' (⟨rfl, hkind, -⟩ | ⟨rfl, -⟩)
  · simpa using hkind
  · simp

end

theorem textOf_parallel {s s' : Span} (h : src.text s = src'.text s') :
    Parallel src src' Eq (textOf s) (textOf s') := fun _ _ hst => .ok h hst

/-! ### Writing nodes -/

theorem alloc_parallel {kind kind' : NodeKind} {span span' : Span}
    (hkind : kind.Alike (fun s s' => src.text s = src'.text s') kind')
    (hspan : SameEnds src src' span span') :
    Parallel src src' Eq (alloc kind span) (alloc kind' span') := by
  intro st st' hst
  obtain ⟨hid, hpools⟩ := hst.pools.alloc span span' ⟨⟨hkind, rfl, rfl⟩, hspan⟩
  exact .ok hid (hst.setPool hpools)

theorem allocList_parallel (ids : List NodeId) :
    Parallel src src' Eq (allocList ids) (allocList ids) := by
  intro st st' hst
  obtain ⟨hrange, hpools⟩ := hst.pools.allocList (ids.map some)
  exact .ok hrange (hst.setPool hpools)

theorem node_parallel (id : NodeId) :
    Parallel src src' (Corresponds src src') (node id) (node id) := by
  intro st st' hst
  have hget := hst.pools.get (some id)
  simp only [node]
  generalize st.pool.get (some id) = found at hget
  generalize st'.pool.get (some id) = found' at hget
  cases hget with
  | ok hnode => exact .ok hnode hst
  | error f => exact .broken _ _

theorem spanOf_parallel (id : NodeId) :
    Parallel src src' (SameEnds src src') (spanOf id) (spanOf id) :=
  (node_parallel id).bind fun _ _ hnode => .pure hnode.span

theorem update_parallel (id : NodeId) {f f' : Node → Node}
    (hf : ∀ n n', Corresponds src src' n n' → Corresponds src src' (f n) (f' n')) :
    Parallel src src' Eq (update id f) (update id f') := by
  intro st st' hst
  have hmodify := hst.pools.modify (some id) hf
  simp only [update]
  generalize st.pool.modify (some id) f = changed at hmodify
  generalize st'.pool.modify (some id) f' = changed' at hmodify
  cases hmodify with
  | ok hpools => exact .ok rfl (hst.setPool hpools)
  | error f => exact .broken _ _

theorem attach_parallel (hrelaid : Relaid src src') (left : NodeId) (op : BinaryOp)
    (right : NodeId) : Parallel src src' Eq (attach left op right) (attach left op right) := by
  intro st st' hst
  have hattach := hst.pools.attachAt hrelaid op right (some left) (st.pool.size + 1)
  simp only [attach, Pool.attachBinary, ← hst.pools.size]
  generalize st.pool.attachAt op right (some left) (st.pool.size + 1) = joined at hattach
  generalize st'.pool.attachAt op right (some left) (st.pool.size + 1) = joined' at hattach
  cases hattach with
  | @ok r r' hr =>
    obtain ⟨root, stop, q⟩ := r
    obtain ⟨_, stop', q'⟩ := r'
    obtain ⟨rfl, -, hpools⟩ := hr
    exact .ok rfl (hst.setPool hpools)
  | error f => exact .broken _ _

/-! ### Loops -/

section

variable {item item' : Production α}

theorem manyUntil_parallel (hrelaid : Relaid src src') (hitem : Parallel src src' Eq item item')
    (stop : Kind) (rounds : Nat) :
    Parallel src src' Eq (manyUntil stop item rounds) (manyUntil stop item' rounds) := by
  induction rounds with
  | zero => exact .stalled
  | succ rounds ih =>
    refine (check_parallel hrelaid stop).andThen fun stops => ?_
    split_ifs
    · exact .pure rfl
    · exact hitem.andThen fun a => ih.andThen fun rest => .pure rfl

theorem commaTail_parallel (hrelaid : Relaid src src') (hitem : Parallel src src' V item item')
    (rounds : Nat) :
    Parallel src src' (List.Forall₂ V) (commaTail item rounds) (commaTail item' rounds) := by
  induction rounds with
  | zero => exact .stalled
  | succ rounds ih =>
    refine (eatIf_parallel hrelaid .comma).bind ?_
    rintro _ _ (hcomma | -)
    · exact hitem.bind fun a a' ha => ih.bind fun rest rest' hrest => .pure (.cons ha hrest)
    · exact .pure .nil

theorem commaSeparated_parallel (hrelaid : Relaid src src') (hitem : Parallel src src' V item item')
    (rounds : Nat) :
      Parallel src src' (fun xs xs' => List.Forall₂ V xs xs' ∧ xs ≠ []) (commaSeparated item rounds)
      (commaSeparated item' rounds) :=
  hitem.bind fun _ _ ha => (commaTail_parallel hrelaid hitem rounds).bind fun _ _ hrest =>
    .pure ⟨.cons ha hrest, by simp⟩

/-- Items that are the same in both runs. -/
theorem commaSeparated_same (hrelaid : Relaid src src') (hitem : Parallel src src' Eq item item')
    (rounds : Nat) :
    Parallel src src' Eq (commaSeparated item rounds) (commaSeparated item' rounds) := by
  refine (commaSeparated_parallel hrelaid hitem rounds).mono fun xs xs' h => ?_
  rw [List.forall₂_eq_eq_eq] at h
  exact h.1

end

end Grammar

end MicroCompiler
