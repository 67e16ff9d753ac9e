import MicroCompiler.Proofs.Layout.Tokens
import MicroCompiler.Proofs.Safety.Judgement
import MicroCompiler.Proofs.TokenTiling

/-! Tokens and nodes in balance. The tables stay small because nodes are paid for with tokens: of
the tokens read so far some are spare, and every new node uses one up. The nodes that stand in no
list are loose, and every entry of a list binds one of them. `Spends` says what a production adds to
both accounts. -/

namespace MicroCompiler

/-- No token reaches behind the source. -/
theorem Token.stop_le_of_mem {bytes : List UInt8} {offset : Nat} {t : Token}
    (hle : offset ≤ bytes.length) (h : t ∈ scanAll bytes offset) : t.span.stop ≤ bytes.length := by
  induction hn : bytes.length - offset using Nat.strongRecOn generalizing offset with
  | _ n ih =>
    rw [scanAll_eq] at h
    split_ifs at h with heof
    · obtain rfl := List.mem_singleton.mp h
      rw [next_eof hle heof]
      exact le_rfl
    · have hnext := next_of_ne_eof heof
      rcases List.mem_cons.mp h with rfl | h
      · exact hnext.2
      · exact ih _ (by omega) hnext.2 h rfl

namespace Grammar

open Ast (BinaryOp Grove Node NodeId NodeKind NodeRange Pool Sited Slot)
open Token (Cursor Kind)
open Production

variable {α : Type} {src : Source} {st : State} {t : Token} {R : α → State → Prop} {c d c' d' : Nat}
  {kind : NodeKind} {span : Span} {base : Pool}

theorem Grows.of_extends {pool : Pool} (h : st.pool.Extends pool) : Grows st { st with pool } :=
  ⟨h.size_le, h.lists_le⟩

/-- In a short source, every node and every spare token has a token of its own among those read
before `t`; every entry of a list and every loose node has a node of its own; and all nodes fit. -/
structure Ready (src : Source) (st : State) (t : Token) (spare loose : Nat) : Prop where
  short : src.size < Span.limit
  sound : st.cursor.Sound src
  next : (st.cursor.peek src).1 = t
  suffix : st.cursor.rest src <:+ src.tokens
  nodes : st.pool.size + spare + (st.cursor.rest src).length ≤ src.size + 1
  lists : st.pool.lists.size + loose ≤ st.pool.size
  fits : ∀ (i : Nat) n, st.pool.nodes[i]? = some n → NodeFits n.kind n.span

namespace Ready

theorem start (hshort : src.size < Span.limit) (fileIndex : Nat) :
    Ready src ⟨.start, .empty fileIndex⟩ (Token.next src.bytes 0) 0 0 := by
  refine ⟨hshort, Cursor.sound_start src, rfl, List.suffix_rfl, ?_, le_rfl, by simp [Pool.empty]⟩
  have hlength := Token.scanAll_length_le src.bytes
  simp only [Pool.empty, Pool.size, Cursor.rest_start, Source.size, List.size_toArray,
    List.length_nil]
  omega

theorem stands (h : Ready src st t c d) : Stands src st t st.pool := ⟨h.sound, h.next, rfl⟩

theorem mono (h : Ready src st t c d) (hc : c' ≤ c) (hd : d' ≤ d) : Ready src st t c' d' := by
  have hnodes := h.nodes
  have hlists := h.lists
  exact ⟨h.short, h.sound, h.next, h.suffix, by omega, by omega, h.fits⟩

theorem exists_rest (h : Ready src st t c d) : ∃ rest, st.cursor.rest src = t :: rest := by
  rw [Cursor.rest_eq, h.next]
  split_ifs
  · exact ⟨[], rfl⟩
  · exact ⟨_, rfl⟩

theorem token_fits (h : Ready src st t c d) : t.span.Fits := by
  obtain ⟨rest, hrest⟩ := h.exists_rest
  have hmem : t ∈ src.tokens := h.suffix.subset (by simp [hrest])
  exact ⟨Token.start_le_stop_of_mem hmem, Nat.lt_of_le_of_lt (Token.stop_le_of_mem
    (Nat.zero_le _) hmem) h.short⟩

theorem hasRoom (h : Ready src st t c d) : HasRoom st.pool := by
  obtain ⟨rest, hrest⟩ := h.exists_rest
  have hnodes := h.nodes
  have hlists := h.lists
  have hshort := h.short
  rw [hrest, List.length_cons] at hnodes
  exact ⟨by omega, by omega⟩

/-- A spare token makes room for a node. -/
theorem room (h : Ready src st t (c + 1) d) : st.pool.size < Slot.emptyIndex := by
  obtain ⟨rest, hrest⟩ := h.exists_rest
  have hnodes := h.nodes
  have hshort := h.short
  rw [hrest, List.length_cons] at hnodes
  unfold Span.limit at hshort
  unfold Slot.emptyIndex
  omega

theorem peek (h : Ready src st t c d) :
    Ready src { st with cursor := (st.cursor.peek src).2 } t c d :=
  ⟨h.short, h.stands.peek.sound,
  h.stands.peek.next, by simpa using h.suffix, by simpa using h.nodes, h.lists, h.fits⟩

theorem eat (h : Ready src st t c d) (hkind : t.kind ≠ .eof) :
    ∃ t', Ready src { st with cursor := (st.cursor.eat src).2 } t' (c + 1) d := by
  have hnodes := h.nodes
  have hsuffix := h.suffix
  rw [Cursor.rest_eq, h.next, if_neg hkind] at hnodes hsuffix
  refine ⟨_, h.short, Cursor.sound_eat _ _, rfl, (List.suffix_cons _ _).trans hsuffix,
    ?_, h.lists, h.fits⟩
  simp only [List.length_cons] at hnodes ⊢
  omega

/-- What was tried and undone leaves everything as it was. -/
theorem undone (h : Ready src st t c d) {st' : State} (hundone : Undone src st st') :
    Ready src st' t c d := by
  have hrest : st'.cursor.rest src = st.cursor.rest src := by
    rw [hundone.cursor, Cursor.rest_reset h.sound]
  have hnext : (st'.cursor.peek src).1 = t := by
    rw [hundone.cursor, h.next]
    rfl
  refine ⟨h.short, hundone.sound h.sound, hnext, by rw [hrest]; exact h.suffix, ?_, ?_, ?_⟩
  · rw [hrest, Pool.size, hundone.nodes]
    exact h.nodes
  · rw [Pool.size, hundone.nodes, hundone.lists]
    exact h.lists
  · rw [hundone.nodes]
    exact h.fits

theorem alloc (h : Ready src st t (c + 1) d) (hfits : NodeFits kind span) :
    Ready src { st with pool := (st.pool.alloc kind span).2 } t c (d + 1) := by
  have hnodes := h.nodes
  have hlists := h.lists
  have hsize := Pool.alloc_size st.pool kind span
  refine ⟨h.short, h.sound, h.next, h.suffix, by simp only; omega, ?_, fun i n hn => ?_⟩
  · simp only [hsize]
    simp only [Pool.alloc]
    omega
  · simp only [Pool.alloc, Array.getElem?_push] at hn
    split_ifs at hn
    · cases hn
      exact hfits
    · exact h.fits i n hn

theorem allocList {ids : List NodeId} (h : Ready src st t c (d + ids.length)) :
    Ready src { st with pool := (st.pool.allocList (ids.map some)).2 } t c d := by
  have hlists := h.lists
  refine ⟨h.short, h.sound, h.next, h.suffix, h.nodes, ?_, h.fits⟩
  simp only [Pool.allocList, Pool.size, ← Array.length_toList, Array.toList_appendList,
    List.length_append, List.length_map] at hlists ⊢
  omega

end Ready

/-! ### Primitive productions -/

section

variable (h : Ready src st t c d)

include h

theorem sure_attempt {p : Production α} {Q : α → State → Prop}
    (hp : ∀ st', Ready src st' t c d → st'.pool = st.pool → Sure src p st' R Q) :
    Sure src (attempt p) st R Q := by
  intro hne hR
  have hsame : ∀ a st', p src { st with cursor := (st.cursor.peek src).2 } = .ok a st' ↔
      attempt p src st = .ok a st' := by
    intro a st'
    simp only [attempt]
    cases p src { st with cursor := (st.cursor.peek src).2 } <;> simp
  obtain ⟨hsafe, hok, hfailed⟩ := hp _ h.peek rfl (fun fault ho =>
    hne fault (by simp only [attempt, ho]))
    fun a st' ho => hR a st' ((hsame a st').mp ho)
  refine ⟨.attempt h.hasRoom (by rw [h.next]; exact h.token_fits) hsafe hfailed,
    fun a st' ho => hok a st' ((hsame a st').mpr ho), fun e st' ho => ?_⟩
  simp only [attempt] at ho
  split at ho
  next e' st'' hp' =>
    obtain ⟨hnodes, hlists⟩ := hfailed e' st'' hp'
    cases ho
    simp only [Pool.size] at hnodes hlists
    constructor
    · simp only [Pool.rollback, Pool.mark, Pool.size, Array.size_shrink]
      omega
    · simp only [Pool.rollback, Pool.mark, Array.size_shrink]
      omega
  next hnone => exact absurd ho (hnone e st')

theorem sure_peek {R : Token → State → Prop} : Sure src peek st R fun u st' => u = t ∧
    Ready src st' t c d := fun _ _ =>
  ⟨.peek (by rw [h.next]; exact h.token_fits), by rintro _ _ ⟨⟩; exact ⟨.refl st, h.next, h.peek⟩,
    by rintro _ _ ⟨⟩⟩

theorem sure_eat {R : Token → State → Prop} :
    Sure src eat st R fun u st' => u = t ∧ (t.kind ≠ .eof → ∃ t', Ready src st' t' (c + 1) d) :=
  fun _ _ =>
  ⟨.eat (by rw [h.next]; exact h.token_fits), by rintro _ _ ⟨⟩; exact ⟨.refl st, h.next, h.eat⟩,
    by rintro _ _ ⟨⟩⟩

theorem sure_check {kind : Kind} {R : Bool → State → Prop} :
    Sure src (check kind) st R fun b st' => b = (t.kind == kind) ∧ Ready src st' t c d := by
  refine (sure_peek h).bind ?_
  rintro u st' - ⟨rfl, h'⟩
  exact .pure ⟨rfl, h'⟩

theorem sure_eatIf {kind : Kind} (hkind : kind ≠ .eof) {R : Option Token → State → Prop} :
    Sure src (eatIf kind) st R fun o st' =>
      (o = some t ∧ t.kind = kind ∧ ∃ t', Ready src st' t' (c + 1) d) ∨
        (o = none ∧ Ready src st' t c d) := by
  refine (sure_check h).bind ?_
  rintro b st' - ⟨rfl, h'⟩
  by_cases hnext : t.kind = kind
  · rw [if_pos (by simpa using hnext)]
    refine (sure_eat h').bind ?_
    rintro u st'' - ⟨rfl, h''⟩
    exact .pure (.inl ⟨rfl, hnext, h'' (by rwa [hnext])⟩)
  · rw [if_neg (by simpa using hnext)]
    exact .pure (.inr ⟨rfl, h'⟩)

theorem sure_expectAs {code : Diagnostic.Code} {kind : Kind} (hkind : kind ≠ .eof)
    {R : Token → State → Prop} : Sure src (expectAs code kind) st R fun u st' =>
      u = t ∧ t.kind = kind ∧ ∃ t', Ready src st' t' (c + 1) d := by
  refine (sure_peek h).bind ?_
  rintro u st' - ⟨rfl, h'⟩
  by_cases hnext : u.kind = kind
  · rw [if_pos hnext]
    exact (sure_eat h').mono fun v st'' _ ⟨hv, h''⟩ => ⟨hv, hnext, h'' (by rwa [hnext])⟩
  · rw [if_neg hnext]
    exact .unexpected h'.token_fits

end

theorem sure_alloc (h : Ready src st t (c + 1) d) (hfits : NodeFits kind span)
    {R : NodeId → State → Prop} : Sure src (alloc kind span) st R fun _ st' =>
    Ready src st' t c (d + 1) := by
  refine fun _ _ => ⟨.alloc h.room hfits, ?_, by rintro _ _ ⟨⟩⟩
  rintro _ _ ⟨⟩
  exact ⟨.of_extends (.alloc st.pool kind span), h.alloc hfits⟩

theorem sure_allocList {ids : List NodeId} (d : Nat) (h : Ready src st t c d')
    (hd : d + ids.length ≤ d') {R : NodeRange → State → Prop} :
    Sure src (allocList ids) st R fun _ st' => Ready src st' t c d := by
  have hroom := h.hasRoom
  have hlists := h.lists
  refine fun _ _ => ⟨.allocList hroom ?_, ?_, by rintro _ _ ⟨⟩⟩
  · have hsize := hroom.1
    omega
  · rintro _ _ ⟨⟩
    exact ⟨.of_extends (.allocList st.pool _), (h.mono le_rfl hd).allocList⟩

/-- Only nodes that exist are looked at, since the production is not broken. -/
theorem sure_node {id : NodeId} (h : Ready src st t c d) {R : Node → State → Prop} :
    Sure src (node id) st R fun n st' => NodeFits n.kind n.span ∧ Ready src st' t c d := by
  intro hne hR
  cases hget : st.pool.get (some id) with
  | error fault => exact absurd (by simp only [node, hget]) (hne (.pool fault))
  | ok n =>
    have hn := get_eq_ok hget
    have hrun : node id src st = .ok n st := by simp only [node, hget]
    rw [hrun]
    refine ⟨.node (Array.getElem?_eq_some_iff.mp hn).1, ?_, by simp⟩
    rintro _ _ ⟨⟩
    exact ⟨.refl st, h.fits _ n hn, h⟩

theorem sure_spanOf {id : NodeId} (h : Ready src st t c d) {R : Span → State → Prop} :
    Sure src (spanOf id) st R fun s st' => s.Fits ∧ Ready src st' t c d := by
  refine (sure_node h).bind ?_
  rintro n st' - ⟨hfits, h'⟩
  exact .pure ⟨hfits.1, h'⟩

theorem sure_update {id : NodeId} {f : Node → Node} (h : Ready src st t c d)
    (hfits : ∀ n, st.pool.nodes[id.index]? = some n → NodeFits (f n).kind (f n).span)
    {R : Unit → State → Prop} : Sure src (update id f) st R fun _ st' => Ready src st' t c d := by
  intro hne hR
  by_cases hlt : id.index < st.pool.size
  · obtain ⟨n, hn⟩ : ∃ n, st.pool.nodes[id.index]? = some n := ⟨_, Array.getElem?_eq_getElem hlt⟩
    have hrun : update id f src st = .ok () { st with pool := st.pool.change id.index f } := by
      simp only [update, Pool.modify_eq hlt]
      rfl
    rw [hrun]
    refine ⟨.update hn (hfits n hn), ?_, by simp⟩
    rintro _ _ ⟨⟩
    refine ⟨⟨by simp, le_rfl⟩, h.short, h.sound, h.next, h.suffix, by simpa using h.nodes,
      by simpa using h.lists, ?_⟩
    intro i m hm
    simp only [Pool.change_node] at hm
    split_ifs at hm with hi
    · subst hi
      rw [hn] at hm
      cases hm
      exact hfits n hn
    · exact h.fits i m hm
  · have hrun : update id f src st = .broken (.pool (.bounds (.index st.pool.size id.index))) := by
      simp only [Pool.size] at hlt
      simp [update, Pool.modify, Slot.index, hlt, Pool.size]
    exact absurd hrun (hne _)

/-! ### Nodes of a grove -/

theorem nodeFits_of_sited (hshort : src.size < Span.limit) (h : Sited src kind span) :
    NodeFits kind span := by
  have hpos := h.nonempty
  have hle := h.fits
  refine ⟨⟨hpos.le, by omega⟩, fun s hs => ?_⟩
  have hwithin := h.texts s hs
  unfold Span.Within at hwithin
  exact ⟨by omega, by omega⟩

/-- The nodes added since `base` are a grove with a single root. -/
def Rooted (src : Source) (base : Pool) (id : NodeId) (st : State) : Prop :=
  ∃ lo hi, Grove src base st.pool [id] lo hi

theorem Rooted.fits {id : NodeId} {n : Node} (h : Rooted src base id st)
    (hshort : src.size < Span.limit) (hn : st.pool.nodes[id.index]? = some n) :
    NodeFits n.kind n.span := by
  obtain ⟨lo, hi, hgrove⟩ := h
  exact nodeFits_of_sited hshort (hgrove.sited (by simp) hn)

theorem Grown.rooted {base : Pool} {lo : Nat} {id : NodeId}
    (h : Grown src base lo (fun id => [id]) id st) :
    Rooted src base id st := by
  obtain ⟨t', q, hst, hgrove⟩ := h
  rw [← hst.pool] at hgrove
  exact ⟨_, _, hgrove⟩

theorem Yields.rooted {p : Production NodeId} (hp : Yields src p fun id => [id])
    (h : Ready src st t c d) : p.Ensures src st (Rooted src st.pool) :=
    (hp h.stands).mono fun _ _ hgrown => hgrown.rooted

/-- The last node of a grove fits, since the grove has its place in the source. -/
theorem sure_alloc_rooted (h : Ready src st t c' d') (hc : c + 1 ≤ c') (hd : d ≤ d' + 1) :
    Sure src (alloc kind span) st (Rooted src base) fun _ st' => ∃ t', Ready src st' t' c d := by
  intro hne hR
  have hfits := (hR _ _ rfl).fits h.short (Pool.alloc_node st.pool kind span)
  exact ((sure_alloc (h.mono hc le_rfl) hfits).mono fun _ _ _ h' =>
    ⟨t, h'.mono le_rfl hd⟩) hne hR

theorem sure_update_rooted {id : NodeId} {f : Node → Node} (h : Ready src st t c' d') (hc : c ≤ c')
    (hd : d ≤ d') : Sure src (update id f >>= fun _ => pure id) st (Rooted src base) fun _ st' =>
    ∃ t', Ready src st' t' c d := by
  intro hne hR
  refine ((sure_update h fun n hn => ?_).bind fun _ st' _ h' => Sure.pure ⟨t, h'.mono hc hd⟩) hne hR
  have hlt : id.index < st.pool.size := (Array.getElem?_eq_some_iff.mp hn).1
  have hrun : (update id f >>= fun _ => pure id) src st =
      .ok id { st with pool := st.pool.change id.index f } := by
    simp only [Bind.bind, Production.bind, update, Pool.modify_eq hlt]
    rfl
  exact (hR _ _ hrun).fits h.short (Pool.change_node_self hn f)

/-- A new node may be changed at once, as long as its kind and its span stay. -/
theorem sure_alloc_update_rooted {f : Node → Node}
    (hf : ∀ n, (f n).kind = n.kind ∧ (f n).span = n.span)
    (h : Ready src st t c' d') (hc : c + 1 ≤ c') (hd : d ≤ d' + 1) :
    Sure src (alloc kind span >>= fun id => update id f >>= fun _ => pure id) st (Rooted src base)
      fun _ st' => ∃ t', Ready src st' t' c d := by
  intro hne hR
  have hnode := Pool.alloc_node st.pool kind span
  have hlt : st.pool.size < (st.pool.alloc kind span).2.size :=
    (Array.getElem?_eq_some_iff.mp hnode).1
  have hrun : (alloc kind span >>= fun id => update id f >>= fun _ => pure id) src st =
      .ok ⟨st.pool.size⟩ { st with pool := (st.pool.alloc kind span).2.change st.pool.size f } := by
    have hmodify : (st.pool.alloc kind span).2.modify (some ⟨st.pool.size⟩) f = .ok _ :=
      Pool.modify_eq hlt f
    simp only [Bind.bind, Production.bind, Production.alloc, update, Pool.alloc_id, hmodify]
    rfl
  have hfits := (hR _ _ hrun).fits h.short (Pool.change_node_self hnode f)
  rw [(hf _).1, (hf _).2] at hfits
  refine ((sure_alloc (h.mono hc le_rfl) hfits).bind fun id st' _ h' => ?_) hne hR
  exact sure_update_rooted h' le_rfl hd

/-! ### Joining -/

theorem attachAt_tables {op : BinaryOp} {right : NodeId} {left joined : Slot} {levels stop : Nat}
    {q r : Pool} (h : q.attachAt op right left levels = .ok (joined, stop, r)) :
    r.size = q.size + 1 ∧ r.lists = q.lists := by
  induction levels generalizing left joined stop r with
  | zero => cases h
  | succ levels ih =>
    rw [Pool.attachAt] at h
    simp only [bind, Except.bind] at h
    split at h
    · cases h
    split at h
    · split at h
      · cases h
      · cases h
        exact ⟨Pool.alloc_size _ _ _, rfl⟩
    · split at h
      · cases h
      next below hbelow =>
        obtain ⟨joined', stop', r'⟩ := below
        obtain ⟨hsize, hlists⟩ := ih hbelow
        simp only [Pool.modify] at h
        split_ifs at h
        cases h
        exact ⟨by simpa [Pool.size] using hsize, hlists⟩

theorem sure_attach {left right : NodeId} {op : BinaryOp} {lo hi : Nat}
    (h : Ready src st t (c + 1) d) (hgrove : Grove src base st.pool [left, right] lo hi)
    {R : NodeId → State → Prop} : Sure src (attach left op right) st R fun id st' =>
    Ready src st' t c (d + 1) ∧ Grove src base st'.pool [id] lo hi := by
  intro hne hR
  cases hattach : st.pool.attachBinary left op right with
  | error fault => exact absurd (by simp only [attach, hattach]) (hne (.pool fault))
  | ok result =>
    obtain ⟨root, q⟩ := result
    have hrun : attach left op right src st = .ok (root.getD left) { st with pool := q } := by
      simp only [attach, hattach]
    obtain ⟨hsize, hlists⟩ : q.size = st.pool.size + 1 ∧ q.lists = st.pool.lists := by
      rw [Pool.attachBinary] at hattach
      cases hwalk : st.pool.attachAt op right left (st.pool.size + 1) with
      | error fault => simp [hwalk, Except.map] at hattach
      | ok walked =>
        obtain ⟨root', stop, q'⟩ := walked
        obtain ⟨rfl, rfl⟩ : root' = root ∧ q' = q := by simpa [hwalk, Except.map] using hattach
        exact attachAt_tables hwalk
    obtain ⟨mid, ⟨n, hn, hn'⟩, mid', ⟨m, hm, hm'⟩, hend⟩ := hgrove.row
    have hend : mid' ≤ hi := hend
    obtain ⟨j, rfl, hforest, k, hk, hspan⟩ := hgrove.forest.attach hn hm (by omega) hattach
    have hlies : Ast.Lies q j lo hi := ⟨k, hk, by rw [hspan]; simp only; omega⟩
    -- What stood there before the operands is untouched, and everything since has its place in the
    -- source.
    have hfits : ∀ (i : Nat) k, q.nodes[i]? = some k → st.pool.nodes[i]? = some k ∨
        NodeFits k.kind k.span := by
      intro i k hk
      by_cases hi : base.size ≤ i
      · exact .inr (nodeFits_of_sited h.short (hforest.settled i k hi hk).sited)
      · left
        rwa [hforest.grown.nodes i (by omega), ← hgrove.forest.grown.nodes i (by omega)] at hk
    rw [hrun]
    refine ⟨.attach hattach h.room hfits, ?_, by simp⟩
    rintro _ _ ⟨⟩
    have hnodes := h.nodes
    have hlists' := h.lists
    refine ⟨⟨by simp only; omega, by simp only [hlists]; omega⟩, ⟨h.short, h.sound, h.next,
      h.suffix, by simp only; omega, by simp only [hlists]; omega, fun i k hk => ?_⟩,
      hforest, .singleton hlies⟩
    rcases hfits i k hk with hk | hk
    · exact h.fits i k hk
    · exact hk

/-! ### What a production adds -/

/-- Whatever the production succeeds with, it leaves so many more tokens to spare and so many more
nodes loose. -/
def Spends (src : Source) (p : Production α) (gain count : α → Nat) : Prop :=
  ∀ ⦃st : State⦄ ⦃t : Token⦄ ⦃c d : Nat⦄, Ready src st t c d → ∀ R,
    Sure src p st R fun a st' => ∃ t', Ready src st' t' (c + gain a) (d + count a)

/-- The production adds one node, and has tokens to spare. -/
def SpendsOne (src : Source) (p : Production NodeId) (gain : Nat) : Prop :=
  ∀ ⦃st : State⦄ ⦃t : Token⦄ ⦃c d : Nat⦄, Ready src st t c d → ∀ R,
    Sure src p st R fun _ st' => ∃ t', Ready src st' t' (c + gain) (d + 1)

/-! ### Runs from any state -/

/-- The run is sure in front of the token, with so many tokens to spare and so many nodes loose. -/
def SureAt (src : Source) (t : Token) (c d : Nat) (p : Production α) (R Q : α → State → Prop) :
    Prop :=
  ∀ ⦃st : State⦄, Ready src st t c d → Sure src p st R Q

/-- The same in front of any token. -/
def SureFrom (src : Source) (c d : Nat) (p : Production α) (R Q : α → State → Prop) : Prop :=
  ∀ ⦃t : Token⦄, SureAt src t c d p R Q

section

variable {β : Type} {p : Production β} {Q : α → State → Prop} {code : Diagnostic.Code}
  {sought : Kind} {gain count : β → Nat} {ids : List NodeId} {id : NodeId}

theorem SureFrom.here {p : Production α} (h : SureFrom src c d p R Q) : SureAt src t c d p R Q :=
  fun _ hready => h hready

/-- The next token is consumed once it is known not to be the end. -/
theorem SureAt.eat {f : Token → Production α} (hkind : t.kind = sought) (heof : sought != .eof)
    (hf : SureFrom src (c + 1) d (f t) R Q) : SureAt src t c d (eat >>= f) R Q := by
  intro st h
  refine (sure_eat h).bind ?_
  rintro _ st' - ⟨rfl, h'⟩
  obtain ⟨t', h'⟩ := h' (hkind ▸ bne_iff_ne.mp heof)
  exact hf h'

theorem Spends.andThen {f : β → Production α} (h : Spends src p gain count)
    (hf : ∀ b, SureFrom src (c + gain b) (d + count b) (f b) R Q) :
    SureFrom src c d (p >>= f) R Q := by
  intro t st hready
  refine (h hready _).bind ?_
  rintro b st' - ⟨t', h'⟩
  exact hf b h'

theorem SpendsOne.andThen {p : Production NodeId} {gain : Nat} {f : NodeId → Production α}
    (h : SpendsOne src p gain) (hf : ∀ id, SureFrom src (c + gain) (d + 1) (f id) R Q) :
    SureFrom src c d (p >>= f) R Q := Spends.andThen h hf

theorem Spends.of_from
    (h : ∀ c d R, SureFrom src c d p R fun b st' => ∃ t', Ready src st' t' (c + gain b) (d +
      count b)) :
    Spends src p gain count := fun _ _ c d hready R => h c d R hready

namespace SureFrom

theorem pure {b : β} {R : β → State → Prop} (hc : c' + gain b ≤ c) (hd : d' + count b ≤ d) :
    SureFrom src c d (pure b) R fun b st' => ∃ t', Ready src st' t' (c' + gain b) (d' + count b) :=
  fun t _ h => .pure ⟨t, h.mono hc hd⟩

theorem peek {f : Token → Production α} (hf : ∀ t, t.span.Fits → SureAt src t c d (f t) R Q) :
    SureFrom src c d (peek >>= f) R Q := by
  intro t st h
  refine (sure_peek h).bind ?_
  rintro _ st' - ⟨rfl, h'⟩
  exact hf _ h.token_fits h'

theorem check {f : Bool → Production α} (hf : ∀ b, SureFrom src c d (f b) R Q) :
    SureFrom src c d (check sought >>= f) R Q := by
  intro t st h
  refine (sure_check h).bind ?_
  rintro b st' - ⟨-, h'⟩
  exact hf b h'

theorem eatIf {f : Option Token → Production α} (hkind : sought != .eof)
    (hsome : ∀ t, t.span.Fits → SureFrom src (c + 1) d (f (some t)) R Q)
    (hnone : SureFrom src c d (f none) R Q) :
    SureFrom src c d (eatIf sought >>= f) R Q := by
  intro t st h
  refine (sure_eatIf h (bne_iff_ne.mp hkind)).bind ?_
  rintro _ st' - (⟨rfl, -, t', h'⟩ | ⟨rfl, h'⟩)
  · exact hsome t h.token_fits h'
  · exact hnone h'

theorem expect {f : Token → Production α} (hkind : sought != .eof)
    (hf : ∀ u, SureFrom src (c + 1) d (f u) R Q) :
    SureFrom src c d (expectAs code sought >>= f) R Q := by
  intro t st h
  refine (sure_expectAs h (bne_iff_ne.mp hkind)).bind ?_
  rintro u st' - ⟨-, -, t', h'⟩
  exact hf u h'

theorem spanOf {f : Span → Production α} (hf : ∀ s, s.Fits → SureFrom src c d (f s) R Q) :
    SureFrom src c d (spanOf id >>= f) R Q := by
  intro t st h
  refine (sure_spanOf h).bind ?_
  rintro s st' - ⟨hs, h'⟩
  exact hf s hs h'

theorem allocList {f : NodeRange → Production α} (d : Nat) (hd : d + ids.length ≤ d')
    (hf : ∀ range, SureFrom src c d (f range) R Q) : SureFrom src c d' (allocList ids >>= f) R Q :=
  fun _ _ h => (sure_allocList d h hd).bind fun range _ _ h' => hf range h'

/-- The node that ends a grove. -/
theorem alloc (hroom : c' + 1 ≤ c ∧ d' ≤ d + 1) :
    SureFrom src c d (alloc kind span) (Rooted src base)
    fun _ st' => ∃ t', Ready src st' t' c' d' := fun _ _ h => sure_alloc_rooted h hroom.1 hroom.2

end SureFrom

end

/-- An attempt at a production that ends with the root of what it has grown. -/
theorem SpendsOne.attempt {p : Production NodeId} {gain : Nat}
    (hyields : Yields src (attempt p) fun id => [id])
    (hp : ∀ (c d : Nat) (base : Pool), SureFrom src c d p (Rooted src base)
      fun _ st' => ∃ t', Ready src st' t' (c + gain) (d + 1)) : SpendsOne src (attempt p) gain :=
      fun _ _ c d h _ =>
  .knowing (hyields.rooted h) (sure_attempt h fun _ h' _ => hp c d _ h')

theorem firstOf_spends {p : Production NodeId} {ps : List (Production NodeId)} {gain : Nat}
    (hundoes : ∀ p' ∈ p :: ps, Undoes src p') (hps : ∀ p' ∈ p :: ps, SpendsOne src p' gain) :
    SpendsOne src (firstOf (p :: ps)) gain := fun _ _ _ _ h _ =>
  .firstOf h.sound hundoes (hps p (by simp) h _) fun p' hp' _ hundone => hps p' (by simp [hp'])
  (h.undone hundone) _

theorem SpendsOne.less {p : Production NodeId} {gain : Nat} (h : SpendsOne src p gain) :
    SpendsOne src p 0 :=
  fun _ _ _ _ hready R => (h hready R).mono fun _ _ _ ⟨t', h'⟩ =>
  ⟨t', h'.mono (Nat.le_add_right _ _) le_rfl⟩

end Grammar

end MicroCompiler
