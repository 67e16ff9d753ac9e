import MicroCompiler.Proofs.Grammar.Growth.Statement

/-! Productions that do nothing forbidden. Offsets and positions in the tables are 32-bit numbers,
spans must not be reversed, and only nodes that exist may be looked at. `Safe` follows a run step by
step, through sequences, attempts and alternatives, and asks of each step that it keeps to these
rules; it has no rule for a loop that runs out of steps. What is tried and given back must keep to
the rules like everything else.

`Sure` proves a run safe when more is known of it already: that it is not broken, and what it leaves
behind when it succeeds. -/

namespace MicroCompiler

/-- The span is not reversed, and its ends are 32-bit numbers. -/
def Span.Fits (s : Span) : Prop := s.start ≤ s.stop ∧ s.stop < limit

theorem Span.Fits.merge {s s' : Span} (h : s.Fits) (h' : s'.Fits) : (s.merge s').Fits := by
  unfold Span.Fits at *
  simp only [Span.merge]
  omega

namespace Grammar

open Ast (BinaryOp Node NodeId NodeKind Pool Slot)
open Production

/-- The span of a node fits, and so do the texts that it keeps. -/
def NodeFits (kind : NodeKind) (span : Span) : Prop := span.Fits ∧ ∀ s ∈ kind.spans, s.Fits

/-- The positions in both tables are 32-bit numbers, and so are their sizes. -/
def HasRoom (pool : Pool) : Prop := pool.size < Span.limit ∧ pool.lists.size < Span.limit

/-- Nothing of the tables is missing. -/
def Grows (st st' : State) : Prop := st.pool.size ≤ st'.pool.size ∧ st.pool.lists.size ≤
    st'.pool.lists.size

/-- Every step of the run keeps to the rules. A step that follows another one is run in the state
that one has led to. -/
inductive Safe (src : Source) : {α : Type} → Production α → State → Prop where
  | pure {α : Type} {st : State} (a : α) : Safe src (pure a) st
  | bind {α β : Type} {st : State} {p : Production α} {f : α → Production β} :
    Safe src p st → (∀ a st', p src st = .ok a st' → Safe src (f a) st') → Safe src (p >>= f) st
  | fail {α : Type} {st : State} {e : Diagnostic} : e.span.Fits → Safe src
    (fail e : Production α) st
  | unexpected {α : Type} {st : State} {code : Diagnostic.Code} {wanted : String} {found : Token} :
    found.span.Fits → Safe src (unexpected code wanted found : Production α) st
  /-- The mark is exact, and the rollback drops only what was added since. -/
  | attempt {α : Type} {st : State} {p : Production α} : HasRoom st.pool →
    (st.cursor.peek src).1.span.Fits → Safe src p { st with cursor := (st.cursor.peek src).2 } →
    (∀ e st', p src { st with cursor := (st.cursor.peek src).2 } = .failed e st' → Grows st st') →
    Safe src (attempt p) st
  | orElse {α : Type} {st : State} {best : Diagnostic} {p : Production α}
    {ps : List (Production α)} : Safe src p st → (∀ e st', p src st = .failed e st' →
    Safe src (orElse (best.furthest e) ps) st') →
    Safe src (orElse best (p :: ps)) st
  | noneLeft {α : Type} {st : State} {best : Diagnostic} : Safe src
    (orElse best [] : Production α) st
  | firstOf {α : Type} {st : State} {p : Production α} {ps : List (Production α)} : Safe src p st →
    (∀ e st', p src st = .failed e st' → Safe src (orElse e ps) st') →
    Safe src (firstOf (p :: ps)) st
  | orUnexpected {α : Type} {st : State} {code : Diagnostic.Code} {wanted : String} {start : Token}
    {p : Production α} : start.span.Fits → Safe src p st →
    Safe src (orUnexpected code wanted start p) st
  | peek {st : State} : (st.cursor.peek src).1.span.Fits → Safe src peek st
  | eat {st : State} : (st.cursor.peek src).1.span.Fits → Safe src eat st
  | textOf {st : State} (s : Span) : Safe src (textOf s) st
  | alloc {st : State} {kind : NodeKind} {span : Span} : st.pool.size < Slot.emptyIndex → NodeFits
    kind span → Safe src (alloc kind span) st
  | allocList {st : State} {ids : List NodeId} : HasRoom st.pool → ids.length < Span.limit →
    Safe src (allocList ids) st
  | node {st : State} {id : NodeId} : id.index < st.pool.size → Safe src (node id) st
  | update {st : State} {id : NodeId} {f : Node → Node} {n : Node} :
    st.pool.nodes[id.index]? = some n → NodeFits (f n).kind (f n).span → Safe src (update id f) st
  /-- Both walks along the spine come to an end, and the nodes that they leave behind fit. -/
  | attach {st : State} {left right : NodeId} {op : BinaryOp} {root : Slot} {q : Pool} :
    st.pool.attachBinary left op right = .ok (root, q) → st.pool.size < Slot.emptyIndex →
    (∀ (i : Nat) n, q.nodes[i]? = some n → st.pool.nodes[i]? = some n ∨ NodeFits n.kind n.span) →
    Safe src (attach left op right) st

variable {α β : Type} {src : Source} {st : State} {p : Production α} {R Q Q' : α → State → Prop}

/-! ### Safe runs with a result -/

theorem Grows.refl (st : State) : Grows st st := ⟨le_rfl, le_rfl⟩

theorem Grows.trans {st st' st'' : State} (h : Grows st st') (h' : Grows st' st'') :
    Grows st st'' :=
  ⟨h.1.trans h'.1, h.2.trans h'.2⟩

/-- Given that the production is not broken and that `R` holds if it succeeds, its run keeps to the
rules, nothing goes missing, and if it succeeds then also with `Q`. What is known of a whole run can
be used at its last step. -/
def Sure (src : Source) (p : Production α) (st : State) (R Q : α → State → Prop) : Prop :=
  (∀ fault, p src st ≠ .broken fault) → p.Ensures src st R →
    Safe src p st ∧ (∀ a st', p src st = .ok a st' → Grows st st' ∧ Q a st') ∧
      ∀ e st', p src st = .failed e st' → Grows st st'

/-- Nothing is known of how the production succeeds. -/
abbrev anyhow : α → State → Prop := fun _ _ => True

namespace Sure

theorem mono (h : Sure src p st R Q') (himp : ∀ a st', p src st = .ok a st' → Q' a st' → Q a st') :
    Sure src p st R Q := by
  intro hne hR
  obtain ⟨hsafe, hok, hfailed⟩ := h hne hR
  exact ⟨hsafe, fun a st' ho => ⟨(hok a st' ho).1, himp a st' ho (hok a st' ho).2⟩, hfailed⟩

/-- What holds of every success may be taken as known. -/
theorem knowing {R' : α → State → Prop} (hR : p.Ensures src st R) (h : Sure src p st R Q) :
    Sure src p st R' Q :=
  fun hne _ => h hne hR

/-- The second step may use how the first one has ended. -/
theorem bind {f : α → Production β} {R Q : β → State → Prop} (hp : Sure src p st anyhow Q')
    (hf : ∀ a st', p src st = .ok a st' → Q' a st' → Sure src (f a) st' R Q) :
    Sure src (p >>= f) st R Q := by
  intro hne hR
  obtain ⟨hsafe, hok, hfailed⟩ :=
    hp (fun fault ho => hne fault (by simp only [Bind.bind, Production.bind, ho])) ensures_true
  cases ho : p src st with
  | ok a st' =>
    have hrun : (p >>= f) src st = f a src st' := by simp only [Bind.bind, Production.bind, ho]
    obtain ⟨hgrows, hq⟩ := hok a st' ho
    unfold Production.Ensures at hR
    rw [hrun] at hne hR
    obtain ⟨hsafe', hok', hfailed'⟩ := hf a st' ho hq hne hR
    rw [hrun]
    refine ⟨.bind hsafe fun b st'' ho' => ?_, fun b st'' ho' => ⟨hgrows.trans (hok' b st'' ho').1,
      (hok' b st'' ho').2⟩,
      fun e st'' ho' => hgrows.trans (hfailed' e st'' ho')⟩
    obtain ⟨rfl, rfl⟩ := Outcome.ok.inj (ho.symm.trans ho')
    exact hsafe'
  | failed e st' =>
    have hrun : (p >>= f) src st = .failed e st' := by simp only [Bind.bind, Production.bind, ho]
    rw [hrun]
    refine ⟨.bind hsafe fun a st'' ho' => absurd (ho.symm.trans ho') (by simp), by simp, ?_⟩
    rintro _ _ ⟨⟩
    exact hfailed e st' ho
  | broken fault => exact absurd (by simp only [Bind.bind, Production.bind, ho]) (hne fault)

theorem pure {a : α} (h : Q a st) : Sure src (pure a) st R Q := fun _ _ =>
  ⟨.pure a, by rintro _ _ ⟨⟩; exact ⟨.refl st, h⟩, by rintro _ _ ⟨⟩⟩

theorem fail {e : Diagnostic} (h : e.span.Fits) : Sure src (fail e) st R Q := fun _ _ =>
  ⟨.fail h, by rintro _ _ ⟨⟩, by rintro _ _ ⟨⟩; exact .refl st⟩

theorem unexpected {code : Diagnostic.Code} {wanted : String} {found : Token}
    (h : found.span.Fits) : Sure src (unexpected code wanted found) st R Q := fun _ _ =>
  ⟨.unexpected h, by rintro _ _ ⟨⟩, by rintro _ _ ⟨⟩; exact .refl st⟩

theorem stalled : Sure src (stalled : Production α) st R Q := fun hne _ => absurd rfl (hne .stalled)

theorem orUnexpected {code : Diagnostic.Code} {wanted : String} {start : Token}
    (hstart : start.span.Fits) (h : Sure src p st R Q) :
    Sure src (Production.orUnexpected code wanted start p) st R Q := by
  intro hne hR
  have hsame : ∀ a st', p src st = .ok a st' ↔ Production.orUnexpected code wanted start p src st =
      .ok a st' := by
    intro a st'
    simp only [Production.orUnexpected]
    cases p src st with
    | failed e st'' =>
      simp only
      split_ifs <;> simp
    | _ => simp
  obtain ⟨hsafe, hok, hfailed⟩ := h (fun fault ho =>
    hne fault (by simp only [Production.orUnexpected, ho]))
    fun a st' ho => hR a st' ((hsame a st').mp ho)
  refine ⟨.orUnexpected hstart hsafe, fun a st' ho => hok a st' ((hsame a st').mpr ho),
    fun e st' ho => ?_⟩
  simp only [Production.orUnexpected] at ho
  split at ho
  next e' st'' hp =>
    split_ifs at ho
    all_goals
      cases ho
      exact hfailed _ _ hp
  next => exact hfailed e st' ho

/-- When an alternative fails, the rest goes on from there, and otherwise it decides. -/
theorem choice {r : Diagnostic → Production α} {q : Production α} (hp : Sure src p st anyhow Q)
    (hrun : ∀ e st', p src st = .failed e st' → q src st = r e src st')
    (hsame : (∀ e st', p src st ≠ .failed e st') → q src st = p src st)
    (hrest : ∀ e st', p src st = .failed e st' → Sure src (r e) st' R Q)
    (hsafe : Safe src p st → (∀ e st', p src st = .failed e st' → Safe src (r e) st') →
      Safe src q st) :
    Sure src q st R Q := by
  intro hne hR
  obtain ⟨hsafe', hok, hfailed⟩ := hp (fun fault ho => hne fault (by rw [hsame (by simp [ho]), ho]))
    ensures_true
  by_cases hfail : ∃ e st', p src st = .failed e st'
  · obtain ⟨e, st', ho⟩ := hfail
    unfold Production.Ensures at hR
    rw [hrun e st' ho] at hne hR ⊢
    obtain ⟨hsafe'', hok', hfailed'⟩ := hrest e st' ho hne hR
    have hgrows := hfailed e st' ho
    refine ⟨hsafe hsafe' fun e' st'' ho' => ?_, fun a st'' ho' => ⟨hgrows.trans (hok' a st'' ho').1,
      (hok' a st'' ho').2⟩,
      fun e' st'' ho' => hgrows.trans (hfailed' e' st'' ho')⟩
    obtain ⟨rfl, rfl⟩ := Outcome.failed.inj (ho.symm.trans ho')
    exact hsafe''
  · push Not at hfail
    rw [hsame hfail]
    exact ⟨hsafe hsafe' fun e st' ho => absurd ho (hfail e st'), hok, hfailed⟩

/-- Alternatives that failed before have undone what they did. -/
theorem orElse {ps : List (Production α)} {best : Diagnostic} {st₁ : State}
    (hst : st.cursor.Sound src) (hundone : Undone src st st₁) (hundoes : ∀ p ∈ ps, Undoes src p)
    (hps : ∀ p ∈ ps, ∀ st', Undone src st st' → Sure src p st' anyhow Q) :
    Sure src (Production.orElse best ps) st₁ R Q := by
  induction ps generalizing best st₁ with
  | nil => exact fun _ _ => ⟨.noneLeft, by rintro _ _ ⟨⟩, by rintro _ _ ⟨⟩; exact .refl _⟩
  | cons p ps ih =>
    refine choice (hps p (by simp) st₁ hundone)
      (r := fun e => Production.orElse (best.furthest e) ps)
      (fun e st' ho => by simp only [Production.orElse, ho]) (fun hfail => ?_)
      (fun e st₂ ho => ?_) .orElse
    · simp only [Production.orElse]
    · exact ih (hundone.trans (hundoes p (by simp) (hundone.sound hst) ho)) (fun q hq =>
        hundoes q (by simp [hq]))
        fun q hq => hps q (by simp [hq])

theorem firstOf {ps : List (Production α)} (hst : st.cursor.Sound src)
    (hundoes : ∀ p' ∈ p :: ps, Undoes src p') (hp : Sure src p st anyhow Q)
    (hps : ∀ p' ∈ ps, ∀ st', Undone src st st' → Sure src p' st' anyhow Q) :
    Sure src (Production.firstOf (p :: ps)) st R Q := by
  refine choice hp (r := fun e => Production.orElse e ps)
    (fun e st' ho => by simp only [Production.firstOf, ho])
    (fun hfail => ?_) (fun e st₁ ho => ?_) .firstOf
  · simp only [Production.firstOf]
  · exact orElse hst (hundoes p (by simp) hst ho) (fun q hq => hundoes q (by simp [hq])) hps

end Sure

end Grammar

end MicroCompiler
