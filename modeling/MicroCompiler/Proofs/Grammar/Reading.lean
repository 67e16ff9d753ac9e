import MicroCompiler.Proofs.Grammar.Judgement

/-! Productions that read phrases. From any state that has no more tokens to come than a production
may take steps, the production reads some of them, or it fails. Either way the nodes and lists that
were there stay as they are, and it is never broken. `ReadsOn` follows the code: it remembers what
has been read, and has one rule for each primitive production. -/

namespace MicroCompiler.Grammar

open Ast (Node NodeId NodeKind NodeRange Pool)
open Token (Kind)
open Production

variable {α β : Type} {src : Source} {bound : Nat} {p : Production α}
  {post post' : Pool → α → Pool → List Kind → List Kind → Prop}

/-- From every state with at most `bound` tokens to come, the production reads some of them with
`post` and extends the pool, or it fails in an extension of the pool. The arguments of `post` are
the pool before, the value, the pool after, the tokens read and those still to come. -/
def Reads (src : Source) (p : Production α) (bound : Nat)
    (post : Pool → α → Pool → List Kind → List Kind → Prop) : Prop :=
  ∀ ⦃st : State⦄ ⦃ks : List Kind⦄ ⦃pool : Pool⦄, At src st ks pool →
  ks.length ≤ bound → p.Sat src st
      (fun a st' => ∃ xs ys q, ks = xs ++ ys ∧ At src st' ys q ∧ pool.Extends q ∧ post pool a q xs
      ys) (fun st' => pool.Extends st'.pool) False

/-- The same, and a failure restores the tokens to come and the tables of the pool. -/
def Tries (src : Source) (p : Production α) (bound : Nat)
    (post : Pool → α → Pool → List Kind → List Kind → Prop) : Prop :=
  ∀ ⦃st : State⦄ ⦃ks : List Kind⦄ ⦃pool : Pool⦄, At src st ks pool →
  ks.length ≤ bound → p.Sat src st
      (fun a st' => ∃ xs ys q, ks = xs ++ ys ∧ At src st' ys q ∧ pool.Extends q ∧ post pool a q xs
      ys) (fun st' => ∃ q, At src st' ks q ∧ q.nodes = pool.nodes ∧ q.lists = pool.lists) False

theorem Tries.reads (h : Tries src p bound post) : Reads src p bound post := by
  intro st ks pool hat hlen
  refine (h hat hlen).mono (fun _ _ h => h) ?_
  rintro st' ⟨q, hq, hn, hl⟩
  rw [hq.pool]
  exact .of_tables hn hl

theorem Reads.of_le {bound' : Nat} (h : Reads src p bound post) (hle : bound' ≤ bound) :
    Reads src p bound' post := fun _ _ _ hat hlen => h hat (hlen.trans hle)

theorem Tries.of_le {bound' : Nat} (h : Tries src p bound post) (hle : bound' ≤ bound) :
    Tries src p bound' post := fun _ _ _ hat hlen => h hat (hlen.trans hle)

theorem Reads.attempt (h : Reads src p bound post) : Tries src (attempt p) bound post := by
  intro st ks pool hat hlen
  refine sat_attempt hat (fun st' hat' => h hat' hlen) ?_
  intro st' st'' hext hat''
  exact ⟨_, hat'', hext.rollback.1, hext.rollback.2⟩

/-- There is always a token to come. -/
theorem Tries.zero (hbound : bound = 0) : Tries src p bound post := by
  intro st ks pool h hlen
  exact absurd (List.length_eq_zero_iff.mp (by omega)) h.ne_nil

theorem Reads.zero (hbound : bound = 0) : Reads src p bound post := (Tries.zero hbound).reads

theorem Reads.imp (h : Reads src p bound post')
    (himp : ∀ p a q xs ys, post' p a q xs ys → post p a q xs ys) : Reads src p bound post := by
  intro st ks pool hat hlen
  refine (h hat hlen).imp ?_
  rintro a st' ⟨xs, ys, q, hks, h', hext, hpost⟩
  exact ⟨xs, ys, q, hks, h', hext, himp _ _ _ _ _ hpost⟩

theorem Tries.imp (h : Tries src p bound post')
    (himp : ∀ p a q xs ys, post' p a q xs ys → post p a q xs ys) : Tries src p bound post := by
  intro st ks pool hat hlen
  refine (h hat hlen).imp ?_
  rintro a st' ⟨xs, ys, q, hks, h', hext, hpost⟩
  exact ⟨xs, ys, q, hks, h', hext, himp _ _ _ _ _ hpost⟩

/-! ### Alternatives -/

section

variable {ps : List (Production α)}
  (hpost : ∀ p p' a q xs ys, p'.nodes = p.nodes → post p' a q xs ys → post p a q xs ys)

include hpost

/-- An alternative that fails leaves no trace, and so the others may be tried. `post` must not see
what a failure may change in a pool besides its tables. -/
theorem Tries.next {st : State} {ks : List Kind} {pool : Pool} (hp : Tries src p bound post)
    (hps : ∀ best, Tries src (orElse best ps) bound post) (h : At src st ks pool)
    (hlen : ks.length ≤ bound) :
    p.Sat src st
      (fun a st' => ∃ xs ys q, ks = xs ++ ys ∧ At src st' ys q ∧ pool.Extends q ∧
        post pool a q xs ys)
      (fun st' => ∀ best, (orElse best ps).Sat src st'
        (fun a st' => ∃ xs ys q, ks = xs ++ ys ∧ At src st' ys q ∧ pool.Extends q ∧
          post pool a q xs ys)
        (fun st' => ∃ q, At src st' ks q ∧ q.nodes = pool.nodes ∧ q.lists = pool.lists)
        False) False := by
  refine (hp h hlen).mono (fun _ _ h' => h') ?_
  rintro st₁ ⟨q, h₁, hn, hl⟩ best
  refine (hps best h₁ hlen).mono ?_ ?_
  · rintro a st₂ ⟨xs, ys, q', hks, h₂, hext, ha⟩
    exact ⟨xs, ys, q', hks, h₂, (Pool.Extends.of_tables hn hl).trans hext, hpost _ _ _ _ _ _ hn ha⟩
  · rintro st₂ ⟨q', h₂, hn', hl'⟩
    exact ⟨q', h₂, hn'.trans hn, hl'.trans hl⟩

theorem Tries.orElse (hps : ∀ p ∈ ps, Tries src p bound post) (best : Diagnostic) :
    Tries src (orElse best ps) bound post := by
  induction ps generalizing best with
  | nil => exact fun st ks pool h _ => sat_orElse_nil ⟨pool, h, rfl, rfl⟩
  | cons p ps ih =>
    rw [List.forall_mem_cons] at hps
    exact fun st ks pool h hlen => sat_orElse_cons (hps.1.next hpost (ih hps.2) h hlen)

theorem Tries.firstOf (hps : ∀ p' ∈ p :: ps, Tries src p' bound post) :
    Tries src (firstOf (p :: ps)) bound post := by
  rw [List.forall_mem_cons] at hps
  exact fun st ks pool h hlen => sat_firstOf (hps.1.next hpost (.orElse hpost hps.2) h hlen)

end

/-! ### New nodes -/

/-- The node came with the extension of a pool. -/
def New (p q : Pool) (id : NodeId) : Prop := p.size ≤ id.index ∧ id.index < q.size

theorem New.after {p q : Pool} {kind : NodeKind} {span : Span} (hext : p.Extends q) :
    New p (q.alloc kind span).2 ⟨q.size⟩ := ⟨hext.size_le, by simp⟩

theorem New.of_nodes {p p' q : Pool} {id : NodeId} (hn : p'.nodes = p.nodes) (h : New p' q id) :
    New p q id := ⟨by simpa [Pool.size, hn] using h.1, h.2⟩

theorem New.trans_right {p q r : Pool} {id : NodeId} (h : New p q id) (hext : q.Extends r) :
    New p r id := ⟨h.1, h.2.trans_le hext.size_le⟩

theorem New.trans_left {p q r : Pool} {id : NodeId} (hext : p.Extends q) (h : New q r id) :
    New p r id := ⟨hext.size_le.trans h.1, h.2⟩

theorem New.modify {p q : Pool} {id : NodeId} (h : New p q id) (i : Nat) (f : Node → Node) :
    New p { q with nodes := q.nodes.modify i f } id := ⟨h.1, by simpa [Pool.size] using h.2⟩

/-! ### Reading on -/

/-- Behind `xs` some of the tokens `ks` were read, the pool has grown from `base`, and `Q` holds of
the value, the pool, all that was read and what is still to come. -/
def HasRead (src : Source) (base : Pool) (xs ks : List Kind)
    (Q : α → Pool → List Kind → List Kind → Prop) (a : α) (st : State) : Prop :=
  ∃ zs ys q, ks = zs ++ ys ∧ At src st ys q ∧ base.Extends q ∧ Q a q (xs ++ zs) ys

/-- The production comes behind `xs`, in a pool that has grown from `base`. With the tokens `ks` to
come it reads some of them with `Q`, or it fails. -/
def ReadsOn (src : Source) (base pool : Pool) (xs ks : List Kind) (p : Production α)
    (Q : α → Pool → List Kind → List Kind → Prop) : Prop :=
  ∀ ⦃st : State⦄, At src st ks pool → base.Extends pool →
    p.Sat src st (HasRead src base xs ks Q) (fun st' => base.Extends st'.pool) False

theorem Reads.of_on (h : ∀ ⦃pool ks⦄, ks.length ≤ bound →
      ReadsOn src pool pool [] ks p (post pool)) :
    Reads src p bound post := fun _ _ _ hat hlen => h hlen hat (.refl _)

theorem Tries.of_on (h : ∀ ⦃pool ks⦄, ks.length ≤ bound →
      ReadsOn src pool pool [] ks p (post pool)) :
    Tries src (attempt p) bound post := (Reads.of_on h).attempt

variable {base pool : Pool} {xs ks : List Kind} {k kind : Kind} {code : Diagnostic.Code} {t : Token}
  {Q : α → Pool → List Kind → List Kind → Prop} {id : NodeId}

theorem HasRead.behind {zs ys : List Kind} {a : α} {st : State}
    (h : HasRead src base (xs ++ zs) ys Q a st) : HasRead src base xs (zs ++ ys) Q a st := by
  obtain ⟨ws, vs, q, rfl, hat, hext, hq⟩ := h
  exact ⟨zs ++ ws, vs, q, by simp, hat, hext, by rwa [List.append_assoc] at hq⟩

theorem Reads.here (hp : Reads src p bound post) (hlen : ks.length ≤ bound) :
    ReadsOn src pool pool [] ks p (post pool) := fun _ h _ => hp h hlen

/-- What a production reads comes behind what was read before. -/
theorem ReadsOn.last {V : α → Pool → List Kind → List Kind → Prop}
    (hp : ReadsOn src pool pool [] ks p V)
    (hQ : ∀ a q zs ys, pool.Extends q → V a q zs ys → Q a q (xs ++ zs) ys) :
    ReadsOn src base pool xs ks p Q := by
  intro st h hext
  refine (hp h (.refl _)).mono ?_ fun _ he => hext.trans he
  rintro a st' ⟨zs, ys, q, hks, h', hext', ha⟩
  exact ⟨zs, ys, q, hks, h', hext.trans hext', hQ a q zs ys hext' ha⟩

section

variable {p : Production β} {f : β → Production α}

theorem ReadsOn.bind {V : β → Pool → List Kind → List Kind → Prop}
    (hp : ReadsOn src pool pool [] ks p V)
    (hf : ∀ b q zs ys, ks = zs ++ ys ∧ zs.length + ys.length = ks.length → pool.Extends q →
      V b q zs ys → ReadsOn src base q (xs ++ zs) ys (f b) Q) :
    ReadsOn src base pool xs ks (p >>= f) Q := by
  intro st h hext
  refine (hp h (.refl _)).bind (fun _ he => hext.trans he) ?_
  rintro b st₁ ⟨zs, ys, q, rfl, h₁, hext', hb⟩
  have hlength : zs.length + ys.length = (zs ++ ys).length := List.length_append.symm
  exact (hf b q zs ys ⟨rfl, hlength⟩ hext' hb h₁ (hext.trans hext')).imp fun _ _ => .behind

variable {V : Pool → β → Pool → List Kind → List Kind → Prop}

theorem Reads.bind (hp : Reads src p bound V) (hlen : ks.length ≤ bound)
    (hf : ∀ b q zs ys, ks = zs ++ ys ∧ zs.length + ys.length = ks.length → pool.Extends q →
      V pool b q zs ys → ReadsOn src base q (xs ++ zs) ys (f b) Q) :
    ReadsOn src base pool xs ks (p >>= f) Q := (hp.here hlen).bind hf

theorem Tries.bind (hp : Tries src p bound V) (hlen : ks.length ≤ bound)
    (hf : ∀ b q zs ys, ks = zs ++ ys ∧ zs.length + ys.length = ks.length → pool.Extends q →
      V pool b q zs ys → ReadsOn src base q (xs ++ zs) ys (f b) Q) :
    ReadsOn src base pool xs ks (p >>= f) Q := hp.reads.bind hlen hf

end

namespace ReadsOn

theorem pure {a : α} (h : Q a pool xs ks) : ReadsOn src base pool xs ks (pure a) Q :=
  fun _ hat hext => sat_pure ⟨[], ks, pool, rfl, hat, hext, by rwa [List.append_nil]⟩

theorem fail {e : Diagnostic} : ReadsOn src base pool xs ks (fail e) Q :=
  fun _ hat hext => sat_fail (hat.pool ▸ hext)

theorem unexpected {wanted : String} : ReadsOn src base pool xs ks (unexpected code wanted t) Q :=
  fun _ hat hext => sat_unexpected (hat.pool ▸ hext)

theorem attempt (h : ReadsOn src pool pool [] ks p Q) :
    ReadsOn src pool pool [] ks (attempt p) Q := fun _ hat hext =>
  sat_attempt_extends hat fun _ hat' => h hat' hext

theorem orUnexpected {wanted : String} (h : ReadsOn src base pool xs ks p Q) :
    ReadsOn src base pool xs ks (orUnexpected code wanted t p) Q := fun _ hat hext =>
  sat_orUnexpected (h hat hext)

/-! ### Tokens -/

theorem peek {f : Token → Production α}
    (hf : ∀ t k ys, symbolOf src t = k → ks = k :: ys → ReadsOn src base pool xs ks (f t) Q) :
    ReadsOn src base pool xs ks (peek >>= f) Q := by
  intro st hat hext
  obtain ⟨k, ks, rfl⟩ := hat.exists_cons
  refine (sat_peek hat).andThen ?_
  rintro t st₁ ⟨ht, hat₁⟩
  exact hf t k ks ht rfl hat₁ hext

/-- Any token but the end of the file is consumed. -/
theorem eatAny {f : Token → Production α} (hk : k ≠ .eof)
    (hf : ∀ t, ReadsOn src base pool (xs ++ [k]) ks (f t) Q) :
    ReadsOn src base pool xs (k :: ks) (eat >>= f) Q := by
  intro st hat hext
  refine (sat_eat hat hk).andThen ?_
  rintro t st₁ ⟨-, hat₁⟩
  exact (hf t hat₁ hext).imp fun _ _ => .behind

/-- A token that was looked at before is consumed, and the kind found then is the next one. -/
theorem eat {f : Token → Production α} (ht : symbolOf src t = k) (hkind : t.kind = kind)
    (hfixed : isFixed kind) (hf : ∀ t, ReadsOn src base pool (xs ++ [kind]) ks (f t) Q) :
    ReadsOn src base pool xs (k :: ks) (eat >>= f) Q := by
  obtain rfl := kind_of_symbol ht hkind (isPlain_of_isFixed hfixed)
  exact eatAny (ne_eof_of_isFixed hfixed) hf

theorem check {f : Bool → Production α} (hkind : isPlain kind)
    (hyes : ks.head? = some kind → ReadsOn src base pool xs ks (f true) Q)
    (hno : ks.head? ≠ some kind → ReadsOn src base pool xs ks (f false) Q) :
    ReadsOn src base pool xs ks (check kind >>= f) Q := by
  intro st hat hext
  obtain ⟨k, ks, rfl⟩ := hat.exists_cons
  refine (sat_check hat hkind).andThen ?_
  rintro _ st₁ ⟨rfl, hat₁⟩
  by_cases hk : k = kind
  · rw [decide_eq_true hk]
    exact hyes (by rw [hk]; rfl) hat₁ hext
  · rw [decide_eq_false hk]
    exact hno (by simpa using hk) hat₁ hext

theorem eatIf {f : Option Token → Production α} (hkind : isFixed kind)
    (hsome : ∀ t ys, ys.length + 1 = ks.length →
      ReadsOn src base pool (xs ++ [kind]) ys (f (some t)) Q)
    (hnone : ks.head? ≠ some kind → ReadsOn src base pool xs ks (f none) Q) :
    ReadsOn src base pool xs ks (eatIf kind >>= f) Q := by
  intro st hat hext
  obtain ⟨k, ks, rfl⟩ := hat.exists_cons
  refine (sat_eatIf hat hkind).andThen ?_
  rintro _ st₁ (⟨rfl, ⟨t, rfl⟩, hat₁⟩ | ⟨hk, rfl, hat₁⟩)
  · exact (hsome t ks rfl hat₁ hext).imp fun _ _ => .behind
  · exact hnone (by simpa using hk) hat₁ hext

theorem expectAs {f : Token → Production α} (hkind : isFixed kind)
    (hf : ∀ t ys, ys.length + 1 = ks.length → ReadsOn src base pool (xs ++ [kind]) ys (f t) Q) :
    ReadsOn src base pool xs ks (expectAs code kind >>= f) Q := by
  intro st hat hext
  obtain ⟨k, ks, rfl⟩ := hat.exists_cons
  refine (sat_expectAs hat hkind fun _ _ hp => hp ▸ hext).andThen ?_
  rintro t st₁ ⟨rfl, hat₁⟩
  exact (hf t ks rfl hat₁ hext).imp fun _ _ => .behind

/-! ### Nodes -/

theorem node {f : Node → Production α} (hid : id.index < pool.size)
    (hf : ∀ n, pool.nodes[id.index]? = some n → ReadsOn src base pool xs ks (f n) Q) :
    ReadsOn src base pool xs ks (node id >>= f) Q := fun _ hat hext =>
  (sat_node hat hid).andThen fun n _ h₁ => hf n h₁.1 h₁.2 hext

theorem spanOf {f : Span → Production α} (hid : id.index < pool.size)
    (hf : ∀ s, ReadsOn src base pool xs ks (f s) Q) :
    ReadsOn src base pool xs ks (spanOf id >>= f) Q := fun _ hat hext =>
  (sat_spanOf hat hid).andThen fun s _ hat₁ => hf s hat₁ hext

theorem allocList {ids : List NodeId} {f : NodeRange → Production α}
    (hf : ∀ range q, pool.Extends q → ReadsOn src base q xs ks (f range) Q) :
    ReadsOn src base pool xs ks (allocList ids >>= f) Q := fun _ hat hext =>
  (sat_allocList hat).andThen fun range _ hat₁ =>
    hf range _ (.allocList _ _) hat₁ (hext.trans (.allocList _ _))

/-- What has been read ends with a node of its own. -/
theorem alloc {kind : NodeKind} {span : Span} {Q : NodeId → Pool → List Kind → List Kind → Prop}
    (h : base.Extends pool → Q ⟨pool.size⟩ (pool.alloc kind span).2 xs ks) :
    ReadsOn src base pool xs ks (alloc kind span) Q := by
  intro st hat hext
  refine (sat_alloc hat).imp ?_
  rintro _ st₁ ⟨rfl, hat₁⟩
  exact ⟨[], ks, _, rfl, hat₁, hext.trans (.alloc _ _ _), by rw [List.append_nil]; exact h hext⟩

theorem allocThen {kind : NodeKind} {span : Span} {f : NodeId → Production α}
    (hf : base.Extends pool →
      ReadsOn src base (pool.alloc kind span).2 xs ks (f ⟨pool.size⟩) Q) :
    ReadsOn src base pool xs ks (Production.alloc kind span >>= f) Q := by
  intro st hat hext
  refine (sat_alloc hat).andThen ?_
  rintro _ st₁ ⟨rfl, hat₁⟩
  exact hf hext hat₁ (hext.trans (.alloc _ _ _))

theorem update {f : Node → Node} {g : Unit → Production α} (hid : New base pool id)
    (hg : ReadsOn src base { pool with nodes := pool.nodes.modify id.index f } xs ks (g ()) Q) :
    ReadsOn src base pool xs ks (update id f >>= g) Q := fun _ hat hext =>
  (sat_update hat hid.2).andThen fun _ _ hat₁ => hg hat₁ (hext.modify hid.1 _)

end ReadsOn

end MicroCompiler.Grammar
