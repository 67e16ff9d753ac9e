import MicroCompiler.Proofs.Ssa.Script

/-! What holds of every module that a builder makes. Every instruction is typed against the values
of its function, the types and the functions of the module; every value is an argument, a local or
the result of an instruction, and only one of these; a function with a body begins with the layout
of its locals and ends where its last block ends. These facts are kept by every edit, so they hold
after every script. -/

namespace MicroCompiler.Ssa

/-! ### Growth -/

/-- The second function has the signature of the first, and all of its values, instructions and
locals. -/
structure Function.Grows (f g : Function) : Prop where
  ret : g.ret = f.ret
  argCount : g.argCount = f.argCount
  foreign : g.foreign = f.foreign
  values : Grown f.values g.values
  instructions : Grown f.instructions g.instructions
  locals : Grown f.locals g.locals
  blocks : f.blocks.size ≤ g.blocks.size

theorem Function.Grows.refl (f : Function) : f.Grows f :=
  ⟨rfl, rfl, rfl, Grown.refl _, Grown.refl _, Grown.refl _, Nat.le_refl _⟩

theorem Function.Grows.isVariadic {f g : Function} (h : f.Grows g) :
    g.isVariadic = f.isVariadic := by
  simp only [Function.isVariadic, h.foreign]

/-- Every function of the first module is in the second, possibly grown. -/
def Module.Grows (m n : Module) : Prop :=
  ∀ (k : Nat) f, m.functions[k]? = some f → ∃ g, n.functions[k]? = some g ∧ f.Grows g

theorem Module.Grows.refl (m : Module) : m.Grows m := fun _ f h => ⟨f, h, .refl f⟩

theorem Module.grows_push (m : Module) (f : Function) : m.Grows ⟨m.functions.push f⟩ :=
  fun k g h => ⟨g, Grown.push _ _ k g h, .refl g⟩

theorem Builder.At.grows {b : Builder} {c : Cursor} {f g : Function} (hat : b.At c f)
    (h : f.Grows g) : b.module.Grows (b.place c g).module := by
  intro k f' hf'
  by_cases hk : c.func.index = k
  · subst hk
    obtain rfl : f = f' := Option.some.inj (hat.2.symm.trans hf')
    exact ⟨g, (hat.place g).2, h⟩
  · refine ⟨f', ?_, .refl f'⟩
    simpa [Builder.place, hk] using hf'

/-! ### Typed instructions -/

/-- The values of `args` are pushed right before the instruction at a position. -/
def Function.PushedBefore (f : Function) (i : Nat) (args : List ValueId) : Prop :=
  args.length ≤ i ∧ ∀ (j : Nat) v, args[j]? = some v →
    f.instructions[i - args.length + j]? = some (.pushArg v)

/-- The instruction at position `i` of `f` fits the types of its operands. -/
def Instruction.Typed (types : TypeTable) (m : Module) (f : Function) (i : Nat) : Instruction → Prop
  | .allocStack => i = 0
  | .constant r _ => ∃ t, f.values[r.index]? = some t
  | .binary op r lhs rhs => ∃ t info, f.values[r.index]? = some t ∧ f.values[lhs.index]? = some t ∧
      f.values[rhs.index]? = some t ∧ types.infos[t.index]? = some info ∧
      (if op.isFloat then info.isFloat else info.isInt) = true
  | .icmp _ r lhs rhs => ∃ t info, f.values[r.index]? = some .bool ∧ f.values[lhs.index]? = some t ∧
      f.values[rhs.index]? = some t ∧ types.infos[t.index]? = some info ∧
      (info.isInt || info.isPointer) = true
  | .fcmp _ r lhs rhs => ∃ t info, f.values[r.index]? = some .bool ∧ f.values[lhs.index]? = some t ∧
      f.values[rhs.index]? = some t ∧ types.infos[t.index]? = some info ∧ info.isFloat = true
  | .load r address =>
    ∃ t pointer, f.values[r.index]? = some t ∧ f.values[address.index]? = some pointer ∧
      types.infos[pointer.index]? = some (.pointer t)
  | .store address v =>
    ∃ t pointer, f.values[v.index]? = some t ∧ f.values[address.index]? = some pointer ∧
      types.infos[pointer.index]? = some (.pointer t)
  | .pushArg _ => True
  | .call callee argc r =>
    ∃ target args, m.functions[callee.index]? = some target ∧ args.length = argc ∧
      f.PushedBefore i args ∧
      (if target.isVariadic then target.argCount ≤ argc else argc = target.argCount) ∧
      (∀ j < target.argCount, ∃ v t, args[j]? = some v ∧ target.values[j]? = some t ∧
        f.values[v.index]? = some t) ∧
      (r.map fun v => f.values[v.index]?) = target.ret.map some
  | .jump k => 0 < k.index ∧ k.index < f.blocks.size
  | .branch c k l => ∃ t info, f.values[c.index]? = some t ∧ types.infos[t.index]? = some info ∧
      info.isInt = true ∧ (0 < k.index ∧ k.index < f.blocks.size) ∧
      (0 < l.index ∧ l.index < f.blocks.size)
  | .ret v => ∃ t, f.values[v.index]? = some t ∧ f.ret = some t
  | .retVoid => f.ret = none

theorem Function.PushedBefore.mono {f g : Function} (hg : f.Grows g) {i : Nat} {args : List ValueId}
    (h : f.PushedBefore i args) : g.PushedBefore i args :=
  ⟨h.1, fun j v hv => hg.instructions _ _ (h.2 j v hv)⟩

/-- Instructions stay typed while types, modules and functions grow. -/
theorem Instruction.Typed.mono {types types' : TypeTable} {m m' : Module} {f g : Function} {i : Nat}
    {ins : Instruction} (htypes : Grown types.infos types'.infos) (hm : m.Grows m') (hg : f.Grows g)
    (h : ins.Typed types m f i) : ins.Typed types' m' g i := by
  have hblock : ∀ k : BlockId, (0 < k.index ∧ k.index < f.blocks.size) → 0 < k.index ∧
      k.index < g.blocks.size :=
    fun k hk => ⟨hk.1, Nat.lt_of_lt_of_le hk.2 hg.blocks⟩
  cases ins with
  | allocStack => exact h
  | constant r word =>
    obtain ⟨t, hr⟩ := h
    exact ⟨t, hg.values _ _ hr⟩
  | binary op r lhs rhs | icmp pred r lhs rhs | fcmp pred r lhs rhs =>
    obtain ⟨t, info, hr, hlhs, hrhs, hinfo, hclass⟩ := h
    exact ⟨t, info, hg.values _ _ hr, hg.values _ _ hlhs, hg.values _ _ hrhs,
      htypes _ _ hinfo, hclass⟩
  | load r address =>
    obtain ⟨t, pointer, hr, haddress, hpointer⟩ := h
    exact ⟨t, pointer, hg.values _ _ hr, hg.values _ _ haddress, htypes _ _ hpointer⟩
  | store address v =>
    obtain ⟨t, pointer, hv, haddress, hpointer⟩ := h
    exact ⟨t, pointer, hg.values _ _ hv, hg.values _ _ haddress, htypes _ _ hpointer⟩
  | pushArg v => exact h
  | call callee argc r =>
    obtain ⟨target, args, htarget, hlength, hpushed, hcount, hargs, hresult⟩ := h
    obtain ⟨target', htarget', hgrows⟩ := hm _ _ htarget
    refine ⟨target', args, htarget', hlength, hpushed.mono hg, ?_, ?_, ?_⟩
    · rw [hgrows.isVariadic, hgrows.argCount]
      exact hcount
    · intro j hj
      rw [hgrows.argCount] at hj
      obtain ⟨v, t, hv, ht, hvt⟩ := hargs j hj
      exact ⟨v, t, hv, hgrows.values _ _ ht, hg.values _ _ hvt⟩
    · rw [hgrows.ret, ← hresult]
      cases r with
      | none => rfl
      | some v =>
        obtain ⟨t, -, ht⟩ : ∃ t, target.ret = some t ∧ f.values[v.index]? = some t := by
          cases hret : target.ret with
          | none => simp [hret] at hresult
          | some t => exact ⟨t, rfl, by simpa [hret] using hresult⟩
        simp [ht, hg.values _ _ ht]
  | jump k => exact hblock k h
  | branch c k l =>
    obtain ⟨t, info, hc, hinfo, hclass, hk, hl⟩ := h
    exact ⟨t, info, hg.values _ _ hc, htypes _ _ hinfo, hclass, hblock k hk, hblock l hl⟩
  | ret v =>
    obtain ⟨t, hv, hret⟩ := h
    exact ⟨t, hg.values _ _ hv, hg.ret.trans hret⟩
  | retVoid => exact hg.ret.trans h

/-! ### Sound functions and builders -/

/-- The blocks of a function with a body. -/
structure Function.Laid (f : Function) : Prop where
  entry : ∃ n, f.blocks[0]? = some (some ⟨0, n + 1⟩)
  first : f.instructions[0]? = some .allocStack
  later : ∀ (k : Nat) e, f.blocks[k]? = some (some e) → k ≠ 0 → 0 < e.offset
  /-- Some block reaches to the end of the instructions. -/
  last : ∃ (k : Nat) (e : Extent), f.blocks[k]? = some (some e) ∧
    e.offset + e.length = f.instructions.size

structure Function.Sound (types : TypeTable) (m : Module) (f : Function) : Prop where
  args : f.argCount ≤ f.values.size
  typed : ∀ (i : Nat) ins, f.instructions[i]? = some ins → ins.Typed types m f i
  /-- The value of a local points to the type of the local. -/
  locals : ∀ l ∈ f.locals, f.argCount ≤ l.value.index ∧
    ∃ pointer, f.values[l.value.index]? = some pointer ∧ types.infos[pointer.index]? =
    some (.pointer l.type)
  /-- No two locals share a value. -/
  apart : (f.locals.toList.map (·.value)).Nodup
  /-- What an instruction defines is no argument and no local. -/
  results : ∀ (i : Nat) ins r, f.instructions[i]? = some ins → ins.result? = some r →
    f.argCount ≤ r.index ∧ ∀ l ∈ f.locals, l.value ≠ r
  body : f.foreign = none → f.Laid

structure Builder.Sound (b : Builder) : Prop where
  types : b.types.Sound
  /-- Function ids fit in 32 bits. -/
  size : b.module.functions.size ≤ UInt32.size
  functions : ∀ (k : Nat) f, b.module.functions[k]? = some f → f.Sound b.types b.module
  /-- The current block is the one that reaches to the end. -/
  cursor : ∀ c, b.cursor = some c → ∃ f, b.module.functions[c.func.index]? = some f ∧
    f.foreign = none ∧ ∃ e, f.blocks[c.block.index]? = some (some e) ∧
    e.offset + e.length = f.instructions.size

theorem Function.Sound.mono {types types' : TypeTable} {m m' : Module} {f : Function}
    (htypes : Grown types.infos types'.infos) (hm : m.Grows m') (h : f.Sound types m) :
    f.Sound types' m' where
  args := h.args
  typed i ins hi := (h.typed i ins hi).mono htypes hm (.refl f)
  locals l hl := by
    obtain ⟨hargs, pointer, hvalue, hpointer⟩ := h.locals l hl
    exact ⟨hargs, pointer, hvalue, htypes _ _ hpointer⟩
  apart := h.apart
  results := h.results
  body := h.body

/-- What an instruction defines is in the value table. -/
theorem Instruction.Typed.result_lt {types : TypeTable} {m : Module} {f : Function} {i : Nat}
    {ins : Instruction} {r : ValueId} (h : ins.Typed types m f i) (hr : ins.result? = some r) :
    r.index < f.values.size := by
  have hlt : ∀ {t}, f.values[r.index]? = some t → r.index < f.values.size :=
    fun ht => (Array.getElem?_eq_some_iff.mp ht).1
  cases ins with
  | constant r' word =>
    obtain rfl : r' = r := by simpa [result?] using hr
    obtain ⟨t, ht⟩ := h
    exact hlt ht
  | binary op r' lhs rhs | icmp pred r' lhs rhs | fcmp pred r' lhs rhs =>
    obtain rfl : r' = r := by simpa [result?] using hr
    obtain ⟨t, info, ht, -⟩ := h
    exact hlt ht
  | load r' address =>
    obtain rfl : r' = r := by simpa [result?] using hr
    obtain ⟨t, pointer, ht, -⟩ := h
    exact hlt ht
  | call callee argc r' =>
    obtain rfl : r' = some r := by simpa [result?] using hr
    obtain ⟨target, args, -, -, -, -, -, hresult⟩ := h
    cases hret : target.ret with
    | none => simp [hret] at hresult
    | some t => exact hlt (t := t) (by simpa [hret] using hresult)
  | _ => simp [result?] at hr

/-! ### Edits of one function -/

section

variable {types : TypeTable} {m m' : Module} {f : Function} {block : BlockId}

theorem Function.grows_addBlock (f : Function) : f.Grows f.addBlock :=
  ⟨rfl, rfl, rfl, Grown.refl _, Grown.refl _, Grown.refl _, by simp [addBlock]⟩

theorem Function.Sound.addBlock (h : f.Sound types m) (hm : m.Grows m') :
    f.addBlock.Sound types m' where
  args := h.args
  typed i ins hi := (h.typed i ins hi).mono (Grown.refl _) hm f.grows_addBlock
  locals := h.locals
  apart := h.apart
  results := h.results
  body hforeign := by
    have hlaid := h.body hforeign
    have hgrown : Grown f.blocks f.addBlock.blocks := Grown.push _ _
    obtain ⟨n, hentry⟩ := hlaid.entry
    obtain ⟨k, e, hk, he⟩ := hlaid.last
    refine ⟨⟨n, hgrown _ _ hentry⟩, hlaid.first, ?_, k, e, hgrown _ _ hk, he⟩
    intro k e hk hne
    simp only [Function.addBlock, Array.getElem?_push] at hk
    split at hk
    next => simp at hk
    next => exact hlaid.later k e hk hne

theorem Function.grows_start (f : Function) (block : BlockId) : f.Grows (f.start block) :=
  ⟨rfl, rfl, rfl, Grown.refl _, Grown.refl _, Grown.refl _, by simp [start]⟩

theorem Function.start_blocks (hblock : f.blocks[block.index]? = some none) (k : Nat) :
    (f.start block).blocks[k]? =
      if block.index = k then some (some ⟨f.instructions.size, 0⟩) else f.blocks[k]? := by
  by_cases hk : block.index = k
  · subst hk
    simp [start, Array.getElem?_modify, hblock]
  · simp [start, Array.getElem?_modify, hk]

theorem Function.Sound.start (h : f.Sound types m) (hm : m.Grows m')
    (hblock : f.blocks[block.index]? = some none) : (f.start block).Sound types m' where
  args := h.args
  typed i ins hi := (h.typed i ins hi).mono (Grown.refl _) hm (f.grows_start block)
  locals := h.locals
  apart := h.apart
  results := h.results
  body hforeign := by
    have hlaid := h.body hforeign
    obtain ⟨n, hentry⟩ := hlaid.entry
    have hne : block.index ≠ 0 := by
      intro h0
      rw [h0, hentry] at hblock
      simp at hblock
    refine ⟨⟨n, ?_⟩, hlaid.first, ?_, block.index, ⟨f.instructions.size, 0⟩, ?_, rfl⟩
    · rw [start_blocks hblock, if_neg hne, hentry]
    · intro k e hk hk0
      rw [start_blocks hblock] at hk
      split at hk
      next =>
        -- The first instruction is there already, so a later block cannot begin at 0.
        obtain rfl : ⟨f.instructions.size, 0⟩ = e := by simpa using hk
        exact Nat.zero_lt_of_lt (Array.getElem?_eq_some_iff.mp hlaid.first).1
      next => exact hlaid.later k e hk hk0
    · rw [start_blocks hblock, if_pos rfl]

theorem Function.grows_addLocal (f : Function) (t pointer : TypeId) :
    f.Grows (f.addLocal t pointer) :=
  ⟨rfl, rfl, rfl, Grown.push _ _, Grown.refl _, Grown.push _ _, Nat.le_refl _⟩

theorem Function.Sound.addLocal (h : f.Sound types m) (hm : m.Grows m') {t pointer : TypeId}
    (hpointer : types.infos[pointer.index]? = some (.pointer t)) :
    (f.addLocal t pointer).Sound types m' where
  args := by
    have hargs := h.args
    simp only [Function.addLocal, Array.size_push]
    omega
  typed i ins hi := (h.typed i ins hi).mono (Grown.refl _) hm (f.grows_addLocal t pointer)
  locals l hl := by
    have hgrown : Grown f.values (f.addLocal t pointer).values := Grown.push _ _
    simp only [Function.addLocal, Array.mem_push] at hl
    rcases hl with hl | rfl
    · obtain ⟨hargs, p, hvalue, hp⟩ := h.locals l hl
      exact ⟨hargs, p, hgrown _ _ hvalue, hp⟩
    · exact ⟨h.args, pointer, by simp [Function.addLocal], hpointer⟩
  apart := by
    have hnew : ∀ l ∈ f.locals, l.value ≠ ⟨f.values.size⟩ := by
      intro l hl heq
      obtain ⟨-, p, hvalue, -⟩ := h.locals l hl
      simp [heq] at hvalue
    simp only [Function.addLocal, Array.toList_push, List.map_append, List.map_cons, List.map_nil]
    rw [List.nodup_append]
    refine ⟨h.apart, by simp, ?_⟩
    intro v hv w hw
    simp only [List.mem_map, Array.mem_toList_iff] at hv
    obtain ⟨l, hl, rfl⟩ := hv
    obtain rfl : w = ⟨f.values.size⟩ := by simpa using hw
    exact hnew l hl
  results i ins r hi hr := by
    obtain ⟨hargs, hlocals⟩ := h.results i ins r hi hr
    refine ⟨hargs, fun l hl => ?_⟩
    simp only [Function.addLocal, Array.mem_push] at hl
    rcases hl with hl | rfl
    · exact hlocals l hl
    · intro heq
      have hlt := (h.typed i ins hi).result_lt hr
      rw [← heq] at hlt
      exact Nat.lt_irrefl _ hlt
  body hforeign := by
    have hlaid := h.body hforeign
    exact ⟨hlaid.entry, hlaid.first, hlaid.later, hlaid.last⟩

theorem Function.grows_extend (f : Function) (block : BlockId) (ts : List TypeId)
    (is : List Instruction) : f.Grows (f.extend block ts is) :=
  ⟨rfl, rfl, rfl, Grown.append _ _, Grown.append _ _, Grown.refl _, by simp [extend]⟩

theorem Function.extend_blocks (f : Function) (block : BlockId) (ts : List TypeId)
    (is : List Instruction) (k : Nat) : (f.extend block ts is).blocks[k]? =
      if block.index = k then
        f.blocks[k]?.map fun e => e.map fun e => { e with length := e.length + is.length }
      else f.blocks[k]? := by
  simp only [extend, Array.getElem?_modify]

theorem Function.extend_instructions (f : Function) (block : BlockId) (ts : List TypeId)
    (is : List Instruction) {i : Nat} {ins : Instruction}
    (h : (f.extend block ts is).instructions[i]? = some ins) :
    f.instructions[i]? = some ins ∨ ∃ j, i = f.instructions.size + j ∧ is[j]? = some ins := by
  simp only [extend, Array.getElem?_append, List.getElem?_toArray] at h
  split at h
  next => exact .inl h
  next hle =>
    refine .inr ⟨i - f.instructions.size, ?_, h⟩
    omega

/-- A block that reaches to the end still does after it was extended. -/
theorem Function.extend_current
    (hcurrent : ∃ e, f.blocks[block.index]? = some (some e) ∧
      e.offset + e.length = f.instructions.size)
    (ts : List TypeId) (is : List Instruction) : ∃ e, (f.extend block ts is).blocks[block.index]? =
      some (some e) ∧ e.offset + e.length = (f.extend block ts is).instructions.size := by
  obtain ⟨e, he, hlast⟩ := hcurrent
  refine ⟨{ e with length := e.length + is.length }, ?_, ?_⟩
  · rw [extend_blocks, if_pos rfl, he]
    rfl
  · simp only [extend, Array.size_append, List.size_toArray]
    omega

theorem Function.Laid.extend (h : f.Laid)
    (hcurrent : ∃ e, f.blocks[block.index]? = some (some e) ∧
      e.offset + e.length = f.instructions.size)
    (ts : List TypeId) (is : List Instruction) : (f.extend block ts is).Laid where
  entry := by
    obtain ⟨n, hentry⟩ := h.entry
    rw [extend_blocks]
    split
    next => exact ⟨n + is.length, by simp [hentry]; omega⟩
    next => exact ⟨n, hentry⟩
  first := (f.grows_extend block ts is).instructions _ _ h.first
  later k e hk hk0 := by
    rw [extend_blocks] at hk
    split at hk
    next =>
      simp only [Option.map_eq_some_iff] at hk
      obtain ⟨e', he', e'', rfl, rfl⟩ := hk
      exact h.later k e'' he' hk0
    next => exact h.later k e hk hk0
  last := ⟨block.index, extend_current hcurrent ts is⟩

theorem Function.Sound.extend (h : f.Sound types m) (hm : m.Grows m')
    (hcurrent : ∃ e, f.blocks[block.index]? = some (some e) ∧
      e.offset + e.length = f.instructions.size)
    {ts : List TypeId} {is : List Instruction} (htyped : ∀ (j : Nat) ins, is[j]? = some ins →
      ins.Typed types m' (f.extend block ts is) (f.instructions.size + j))
    (hresults : ∀ ins ∈ is, ∀ r, ins.result? = some r → f.values.size ≤ r.index) :
    (f.extend block ts is).Sound types m' where
  args := by
    have hargs := h.args
    simp only [Function.extend, Array.size_append]
    omega
  typed i ins hi := by
    rcases f.extend_instructions block ts is hi with hold | ⟨j, rfl, hj⟩
    · exact (h.typed i ins hold).mono (Grown.refl _) hm (f.grows_extend block ts is)
    · exact htyped j ins hj
  locals l hl := by
    obtain ⟨hargs, p, hvalue, hp⟩ := h.locals l hl
    exact ⟨hargs, p, (f.grows_extend block ts is).values _ _ hvalue, hp⟩
  apart := h.apart
  results i ins r hi hr := by
    rcases f.extend_instructions block ts is hi with hold | ⟨j, rfl, hj⟩
    · exact h.results i ins r hold hr
    · have hnew := hresults ins (List.mem_of_getElem? hj) r hr
      refine ⟨Nat.le_trans h.args hnew, fun l hl heq => ?_⟩
      obtain ⟨-, p, hvalue, -⟩ := h.locals l hl
      have hlt := (Array.getElem?_eq_some_iff.mp hvalue).1
      rw [heq] at hlt
      omega
  body hforeign := (h.body hforeign).extend hcurrent ts is

end

/-! ### Phrases -/

namespace Builder

variable {p : Prop} {b b' : Builder} {c : Cursor} {f : Function} {ts : List TypeId}
  {is : List Instruction}

/-- A phrase defines new values only. -/
theorem Phrase.results (h : Phrase p b f ts is) : ∀ ins ∈ is, ∀ r, ins.result? = some r →
    f.values.size ≤ r.index := by
  intro ins hins r hr
  cases h with
  | call callee target args htarget hcount htypes hargs =>
    rw [List.mem_append, List.mem_map, List.mem_singleton] at hins
    rcases hins with ⟨v, -, rfl⟩ | rfl
    · simp [Instruction.result?] at hr
    · simp only [Instruction.result?, Option.map_eq_some_iff] at hr
      obtain ⟨t, -, rfl⟩ := hr
      exact Nat.le_refl _
  | _ =>
    obtain rfl := List.mem_singleton.mp hins
    simp only [Instruction.result?, Option.some.injEq, reduceCtorEq] at hr
    all_goals
      subst hr
      exact Nat.le_refl _

/-- The instructions of a phrase are typed where they are put. -/
theorem Phrase.typed (h : Phrase p b f ts is) {m : Module} (hm : b.module.Grows m)
    (hargs : ∀ (k : Nat) g, b.module.functions[k]? = some g → g.argCount ≤ g.values.size)
    (block : BlockId) {j : Nat} {ins : Instruction} (hj : is[j]? = some ins) :
    ins.Typed b.types m (f.extend block ts is) (f.instructions.size + j) := by
  have hgrows := f.grows_extend block ts is
  have hnew : ∀ t, ts = [t] → (f.extend block ts is).values[f.values.size]? = some t := by
    rintro t rfl
    simp [Function.extend]
  have hone : ∀ ins', is = [ins'] → ins = ins' := by
    rintro ins' rfl
    exact List.mem_singleton.mp (List.mem_of_getElem? hj)
  cases h with
  | constant t word ht =>
    obtain rfl := hone _ rfl
    exact ⟨t, hnew t rfl⟩
  | binary op lhs rhs t info hlhs hrhs hinfo hclass =>
    obtain rfl := hone _ rfl
    exact ⟨t, info, hnew t rfl, hgrows.values _ _ hlhs, hgrows.values _ _ hrhs, hinfo, hclass⟩
  | icmp pred lhs rhs t info hlhs hrhs hinfo hclass
  | fcmp pred lhs rhs t info hlhs hrhs hinfo hclass =>
    obtain rfl := hone _ rfl
    exact ⟨t, info, hnew _ rfl, hgrows.values _ _ hlhs, hgrows.values _ _ hrhs, hinfo, hclass⟩
  | load address pointer t haddress hpointer =>
    obtain rfl := hone _ rfl
    exact ⟨t, pointer, hnew t rfl, hgrows.values _ _ haddress, hpointer⟩
  | store address value pointer t haddress hpointer hvalue =>
    obtain rfl := hone _ rfl
    exact ⟨t, pointer, hgrows.values _ _ hvalue, hgrows.values _ _ haddress, hpointer⟩
  | call callee target args htarget hcount htypes _ =>
    obtain ⟨target', htarget', htgrows⟩ := hm _ _ htarget
    rw [List.getElem?_append] at hj
    split at hj
    next =>
      obtain ⟨v, -, rfl⟩ : ∃ v, args[j]? = some v ∧ Instruction.pushArg v = ins := by simpa using hj
      trivial
    next hlast =>
      obtain ⟨hz, rfl⟩ : j - args.length = 0 ∧
          Instruction.call callee args.length (target.ret.map fun _ => ⟨f.values.size⟩) = ins := by
        simpa [List.getElem?_singleton] using hj
      have hjlen : j = args.length := by simp at hlast; omega
      refine ⟨target', args, htarget', rfl, ⟨by omega, ?_⟩, ?_, ?_, ?_⟩
      · intro i v hv
        have hi : i < args.length := (List.getElem?_eq_some_iff.mp hv).1
        have hpos : f.instructions.size + j - args.length + i = f.instructions.size + i := by omega
        rw [hpos]
        simp only [Function.extend, List.getElem?_toArray, Array.getElem?_append_right
          (Nat.le_add_right _ _), Nat.add_sub_cancel_left]
        rw [List.getElem?_append_left (by simpa using hi), List.getElem?_map, hv]
        rfl
      · rw [htgrows.isVariadic, htgrows.argCount]
        exact hcount
      · intro i hi
        rw [htgrows.argCount] at hi
        have hlen : target.argCount ≤ args.length := by
          split at hcount <;> omega
        obtain ⟨v, hv⟩ : ∃ v, args[i]? = some v := ⟨_, List.getElem?_eq_getElem (by omega)⟩
        obtain ⟨t, ht⟩ : ∃ t, target.values[i]? = some t :=
          ⟨_, Array.getElem?_eq_getElem (Nat.lt_of_lt_of_le hi (hargs _ _ htarget))⟩
        exact ⟨v, t, hv, htgrows.values _ _ ht, hgrows.values _ _ (htypes i v t hv hi ht)⟩
      · rw [htgrows.ret]
        cases hret : target.ret with
        | none => rfl
        | some t => simp [Function.extend]
  | jump target htarget =>
    obtain rfl := hone _ rfl
    exact ⟨htarget.1, Nat.lt_of_lt_of_le htarget.2 hgrows.blocks⟩
  | branch condition consequent alternative t info hconsequent halternative
    hcondition hinfo hclass =>
    obtain rfl := hone _ rfl
    exact ⟨t, info, hgrows.values _ _ hcondition, hinfo, hclass,
      ⟨hconsequent.1, Nat.lt_of_lt_of_le hconsequent.2 hgrows.blocks⟩,
      ⟨halternative.1, Nat.lt_of_lt_of_le halternative.2 hgrows.blocks⟩⟩
  | ret value t hvalue hret =>
    obtain rfl := hone _ rfl
    exact ⟨t, hgrows.values _ _ hvalue, hret⟩
  | retVoid hret =>
    obtain rfl := hone _ rfl
    exact hret

/-! ### Edits of a builder -/

theorem At.eq (hat : b.At c f) : b = { b with cursor := some ⟨c.func, c.block⟩ } := by
  have hc := hat.1
  cases b
  simp_all

theorem Sound.current (h : b.Sound) (hat : b.At c f) : f.foreign = none ∧
    ∃ e, f.blocks[c.block.index]? = some (some e) ∧ e.offset + e.length = f.instructions.size := by
  obtain ⟨g, hg, hcurrent⟩ := h.cursor c hat.1
  obtain rfl : f = g := Option.some.inj (hat.2.symm.trans hg)
  exact hcurrent

/-- The current function may be replaced by a sound one that has grown out of it. -/
theorem Sound.replace (h : b.Sound) (hat : b.At c f) {g : Function} (hgrows : f.Grows g)
    (hg : g.Sound b.types (b.place c g).module) {block : BlockId}
    (hblock : ∃ e, g.blocks[block.index]? = some (some e) ∧
      e.offset + e.length = g.instructions.size) :
    { b.place c g with cursor := some ⟨c.func, block⟩ }.Sound where
  types := h.types
  size := by
    have hsize := h.size
    simpa [Builder.place] using hsize
  functions k f' hf' := by
    by_cases hk : c.func.index = k
    · subst hk
      obtain rfl : g = f' := Option.some.inj ((hat.place g).2.symm.trans hf')
      exact hg
    · have hold : b.module.functions[k]? = some f' := by simpa [Builder.place, hk] using hf'
      exact (h.functions k f' hold).mono (Grown.refl _) (hat.grows hgrows)
  cursor c' hc' := by
    obtain rfl : ⟨c.func, block⟩ = c' := by simpa using hc'
    exact ⟨g, (hat.place g).2, hgrows.foreign.trans (h.current hat).1, hblock⟩

theorem Sound.place (h : b.Sound) (hat : b.At c f) {g : Function} (hgrows : f.Grows g)
    (hg : g.Sound b.types (b.place c g).module)
    (hblock : ∃ e, g.blocks[c.block.index]? = some (some e) ∧
      e.offset + e.length = g.instructions.size) :
    (b.place c g).Sound := by
  rw [(hat.place g).eq]
  exact h.replace hat hgrows hg hblock

/-- A function may be added whose body, if it has one, is just begun. -/
theorem Sound.push (h : b.Sound) (hsize : b.module.functions.size < UInt32.size) {g : Function}
    (hg : ∀ m, g.Sound b.types m) {cursor : Option Cursor}
    (hcursor : cursor = b.cursor ∨ cursor = some ⟨⟨b.module.functions.size⟩, ⟨0⟩⟩ ∧
      g.foreign = none ∧ ∃ e, g.blocks[0]? = some (some e) ∧
      e.offset + e.length = g.instructions.size) :
    { b with module := ⟨b.module.functions.push g⟩, cursor }.Sound where
  types := h.types
  size := by
    simp only [Array.size_push]
    omega
  functions k f' hf' := by
    simp only [Array.getElem?_push] at hf'
    split at hf'
    next =>
      obtain rfl : g = f' := by simpa using hf'
      exact hg _
    next => exact (h.functions k f' hf').mono (Grown.refl _) (b.module.grows_push g)
  cursor c' hc' := by
    rcases hcursor with rfl | ⟨rfl, hforeign, hblock⟩
    · obtain ⟨f', hf', hcurrent⟩ := h.cursor c' hc'
      exact ⟨f', Grown.push _ _ _ _ hf', hcurrent⟩
    · obtain rfl : ⟨⟨b.module.functions.size⟩, ⟨0⟩⟩ = c' := by simpa using hc'
      exact ⟨g, by simp, hforeign, hblock⟩

theorem declare_sound {types : TypeTable} {m : Module} (name : String) (args : List TypeId)
    (ret : Option TypeId) (foreign : Foreign) :
    (Function.declare name args ret (some foreign)).Sound types m where
  args := by simp [Function.declare]
  typed i ins hi := by simp [Function.declare] at hi
  locals l hl := by simp [Function.declare] at hl
  apart := by simp [Function.declare]
  results i ins r hi := by simp [Function.declare] at hi
  body hforeign := by simp [Function.declare] at hforeign

theorem begun_sound {types : TypeTable} {m : Module} (name : String) (args : List TypeId)
    (ret : Option TypeId) : (Function.begun name args ret).Sound types m where
  args := by simp [Function.begun, Function.declare]
  typed i ins hi := by
    obtain ⟨rfl, rfl⟩ : i = 0 ∧ ins = .allocStack := by
      simpa [Function.begun, List.getElem?_singleton, eq_comm] using hi
    rfl
  locals l hl := by simp [Function.begun, Function.declare] at hl
  apart := by simp [Function.begun, Function.declare]
  results i ins r hi hr := by
    obtain ⟨rfl, rfl⟩ : i = 0 ∧ ins = .allocStack := by
      simpa [Function.begun, List.getElem?_singleton, eq_comm] using hi
    simp [Instruction.result?] at hr
  body _ := by
    refine ⟨⟨0, rfl⟩, rfl, ?_, 0, ⟨0, 1⟩, rfl, rfl⟩
    intro k e hk hk0
    cases k with
    | zero => exact absurd rfl hk0
    | succ k => simp [Function.begun] at hk

/-- Every edit keeps a builder sound. -/
theorem Edit.sound (h : Edit p b b') (hb : b.Sound) : b'.Sound := by
  cases h with
  | @pointer t id types hpointer =>
    obtain ⟨htypes, hgrown, -⟩ := hb.types.pointerTo hpointer
    exact ⟨htypes, hb.size, fun k f hf => (hb.functions k f hf).mono hgrown (.refl _), hb.cursor⟩
  | renew => exact ⟨hb.types, hb.size, hb.functions, fun c hc => by simp [renewed] at hc⟩
  | begin name args ret hsize _ _ =>
    exact hb.push hsize (fun m => begun_sound name args ret) (.inr ⟨rfl, rfl, ⟨0, 1⟩, rfl, rfl⟩)
  | declare name library args ret variadic hsize _ _ =>
    exact hb.push hsize (fun m => declare_sound name args ret _) (.inl rfl)
  | @block c f hat =>
    have hgrows := f.grows_addBlock
    obtain ⟨-, e, he, hlast⟩ := hb.current hat
    exact hb.place hat hgrows ((hb.functions _ f hat.2).addBlock (hat.grows hgrows))
      ⟨e, Grown.push _ _ _ _ he, hlast⟩
  | @start c f block hat _ hblock =>
    have hgrows := f.grows_start block
    refine hb.replace hat hgrows ((hb.functions _ f hat.2).start (hat.grows hgrows) hblock)
      ⟨⟨f.instructions.size, 0⟩, ?_, rfl⟩
    rw [Function.start_blocks hblock, if_pos rfl]
  | @slot c f t pointer hat hpointer =>
    have hgrows := f.grows_addLocal t pointer
    exact hb.place hat hgrows
      ((hb.functions _ f hat.2).addLocal (hat.grows hgrows) (hb.types.pointers t pointer hpointer))
      (hb.current hat).2
  | @extend c f ts is hat _ hphrase =>
    have hgrows := f.grows_extend c.block ts is
    have hargs := fun (k : Nat) g hg => (hb.functions k g hg).args
    have hcurrent := (hb.current hat).2
    exact hb.place hat hgrows ((hb.functions _ f hat.2).extend (hat.grows hgrows) hcurrent
      (fun j ins hj => hphrase.typed (hat.grows hgrows) hargs c.block hj) hphrase.results)
      (Function.extend_current hcurrent ts is)

theorem Edits.sound (h : Edits p b b') (hb : b.Sound) : b'.Sound := by
  induction h with
  | refl => exact hb
  | tail _ hedit ih => exact hedit.sound ih

theorem initial_sound : initial.Sound where
  types := TypeTable.initial_sound
  size := Nat.zero_le _
  functions k f hf := by simp [initial, Module.empty] at hf
  cursor c hc := by simp [initial] at hc

end Builder

end MicroCompiler.Ssa
