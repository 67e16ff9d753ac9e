import MicroCompiler.Proofs.Ssa.Code

/-! Every value of a function is an argument or is defined once, by an instruction or as the address
of a local. The value table only grows, and whatever extends it brings exactly one definition for
each new value, so the count is kept by every edit of a builder. Main statement:
`runAll_numbered`. -/

namespace MicroCompiler.Ssa

/-! ### Counting -/

/-- 1 for the values with an index from `low` to before `high`, and 0 for the others. -/
def ValueId.within (v : ValueId) (low high : Nat) : Nat :=
  if low ≤ v.index ∧ v.index < high then 1 else 0

namespace ValueId

theorem within_self (v : ValueId) (n : Nat) : v.within n n = 0 := by
  have hnone : ¬ (n ≤ v.index ∧ v.index < n) := by omega
  simp only [within, hnone, if_false]

theorem within_add_within (v : ValueId) {low middle high : Nat} (hlow : low ≤ middle)
    (hhigh : middle ≤ high) : v.within low middle + v.within middle high = v.within low high := by
  unfold within
  by_cases h : v.index < middle
  · have hbelow : ¬ middle ≤ v.index := by omega
    have hlt : v.index < high := by omega
    simp [h, hbelow, hlt]
  · have habove : low ≤ v.index ∧ middle ≤ v.index := by omega
    simp [h, habove]

theorem within_succ (v : ValueId) (n : Nat) :
    v.within n (n + 1) = if (⟨n⟩ : ValueId) == v then 1 else 0 := by
  have hnew : ((⟨n⟩ : ValueId) == v) = true ↔ n ≤ v.index ∧ v.index < n + 1 := by
    rw [beq_iff_eq]
    cases v
    simp only [ValueId.mk.injEq]
    omega
  simp only [within, hnew]

end ValueId

namespace Function

variable {f g : Function} {v : ValueId}

/-- How many instructions and locals define a value. -/
def definitions (f : Function) (v : ValueId) : Nat :=
  f.instructions.countP (·.result? == some v) + f.locals.countP (·.value == v)

/-- The values behind the arguments are defined once, and nothing else is. -/
structure Numbered (f : Function) : Prop where
  args : f.argCount ≤ f.values.size
  once : ∀ v, f.definitions v = v.within f.argCount f.values.size

theorem definitions_extend (f : Function) (block : BlockId) (ts : List TypeId)
    (is : List Instruction) (v : ValueId) :
    (f.extend block ts is).definitions v = f.definitions v + is.countP (·.result? == some v) := by
  simp only [definitions, extend, Array.countP_append, List.countP_toArray]
  omega

theorem definitions_addLocal (f : Function) (t pointer : TypeId) (v : ValueId) :
    (f.addLocal t pointer).definitions v = f.definitions v + v.within f.values.size
    (f.values.size + 1) := by
  simp only [definitions, addLocal, Array.countP_push, ValueId.within_succ]
  omega

/-- Values may be added if each is defined once by what is added with them. -/
theorem Numbered.grow (h : f.Numbered) (hargs : g.argCount = f.argCount)
    (hsize : f.values.size ≤ g.values.size)
    (hnew : ∀ v, g.definitions v = f.definitions v + v.within f.values.size g.values.size) :
    g.Numbered where
  args := by
    rw [hargs]
    exact Nat.le_trans h.args hsize
  once v := by
    rw [hnew, h.once, hargs]
    exact v.within_add_within h.args hsize

theorem Numbered.addLocal (h : f.Numbered) (t pointer : TypeId) :
    (f.addLocal t pointer).Numbered := by
  have hsize : (f.addLocal t pointer).values.size = f.values.size + 1 := by simp [Function.addLocal]
  refine h.grow rfl (by omega) ?_
  intro v
  rw [hsize, definitions_addLocal]

theorem declare_numbered (name : String) (args : List TypeId) (ret : Option TypeId)
    (foreign : Option Foreign) : (declare name args ret foreign).Numbered where
  args := by simp [declare]
  once v := by simp [definitions, declare, ValueId.within_self]

theorem begun_numbered (name : String) (args : List TypeId) (ret : Option TypeId) :
    (begun name args ret).Numbered where
  args := by simp [begun, declare]
  once v := by simp [definitions, begun, declare, ValueId.within_self, Instruction.result?]

end Function

/-! ### Edits -/

namespace Builder

variable {p : Prop} {b b' : Builder} {f : Function} {ts : List TypeId} {is : List Instruction}

/-- A phrase defines the values that it adds, each once. -/
theorem Phrase.defines (h : Phrase p b f ts is) (v : ValueId) :
    is.countP (·.result? == some v) = v.within f.values.size (f.values.size + ts.length) := by
  cases h with
  | call callee target args htarget hcount htypes hargs =>
    have hpushes : (args.map Instruction.pushArg).countP (·.result? == some v) = 0 := by
      simp [List.countP_eq_zero, Instruction.result?]
    rw [List.countP_append, hpushes, Nat.zero_add, List.countP_singleton]
    cases target.ret with
    | none => simp [Instruction.result?, ValueId.within_self]
    | some t => simp [Instruction.result?, ValueId.within_succ]
  | _ => simp [Instruction.result?, ValueId.within_self, ValueId.within_succ]

/-- Every edit keeps the values numbered. -/
theorem Edit.numbered (h : Edit p b b') (hb : ∀ f ∈ b.module.functions, f.Numbered) :
    ∀ f ∈ b'.module.functions, f.Numbered := by
  have hpush : ∀ {g : Function}, g.Numbered → ∀ f ∈ b.module.functions.push g, f.Numbered :=
    fun hg => Array.forall_mem_push.mpr ⟨hg, hb⟩
  cases h with
  | pointer _ => exact hb
  | renew => exact hb
  | begin name args ret _ _ _ => exact hpush (Function.begun_numbered name args ret)
  | declare name library args ret variadic _ _ _ =>
    exact hpush (Function.declare_numbered name args ret _)
  | @block c f hat | @start c f block hat _ _ =>
    have hf := hb f (Array.mem_of_getElem? hat.2)
    exact forall_place hb ⟨hf.args, hf.once⟩
  | @slot c f t pointer hat _ =>
    exact forall_place hb ((hb f (Array.mem_of_getElem? hat.2)).addLocal t pointer)
  | @extend c f ts is hat _ hphrase =>
    have hsize : (f.extend c.block ts is).values.size = f.values.size + ts.length := by
      simp [Function.extend]
    refine forall_place hb ((hb f (Array.mem_of_getElem? hat.2)).grow rfl (by omega) ?_)
    intro v
    rw [Function.definitions_extend, hphrase.defines, hsize]

theorem Edits.numbered (h : Edits p b b') (hb : ∀ f ∈ b.module.functions, f.Numbered) :
    ∀ f ∈ b'.module.functions, f.Numbered := by
  induction h with
  | refl => exact hb
  | tail _ hedit ih => exact hedit.numbered ih

end Builder

/-! ### Scripts -/

namespace Step

theorem runAll_numbered {steps : List Step} {b : Builder} (h : runAll .initial steps = .ok b) :
    ∀ f ∈ b.module.functions, f.Numbered := by
  apply (runAll_edits h TypeTable.initial_sound).numbered
  intro f hf
  simp [Builder.initial, Module.empty] at hf

/-- In every function that a script makes, the first values are the arguments and each other value
is defined once, by an instruction or a local; locals are pointers to what they hold, instructions
fit the types of their operands, and calls find arguments of the types of the parameters. -/
theorem runAll_typed {steps : List Step} {b : Builder} (h : runAll .initial steps = .ok b) {k : Nat}
    {f : Function} (hf : b.module.functions[k]? = some f) :
    (∀ v : ValueId, v.index < f.argCount → f.arg v.index = .ok v ∧ v.index < f.values.size ∧
      f.definitions v = 0) ∧
    (∀ v : ValueId, f.argCount ≤ v.index → v.index < f.values.size → f.definitions v = 1) ∧
    (∀ l ∈ f.locals, ∃ pointer, f.values[l.value.index]? = some pointer ∧
      b.types.infos[pointer.index]? = some (.pointer l.type)) ∧
    (∀ (i : Nat) (ins : Instruction), f.instructions[i]? = some ins →
      ins.Typed b.types b.module f i) ∧
    ∀ (i : Nat) (callee : FuncId) (argc : Nat) (r : Option ValueId), f.instructions[i]? =
      some (.call callee argc r) → ∃ target args, b.module.functions[callee.index]? = some target ∧
        f.callArgs i = .ok args ∧ args.length = argc ∧
        ∀ j < target.argCount, ∃ v t, args[j]? = some v ∧ target.values[j]? = some t ∧
        f.values[v.index]? = some t := by
  have hsound := (runAll_sound h).functions k f hf
  have hnumbered := runAll_numbered h f (Array.mem_of_getElem? hf)
  refine ⟨?_, ?_, fun l hl => (hsound.locals l hl).2, hsound.typed, ?_⟩
  · intro v hv
    refine ⟨by simp [Function.arg, hv], Nat.lt_of_lt_of_le hv hnumbered.args, ?_⟩
    have hbelow : ¬ f.argCount ≤ v.index := by omega
    simp [hnumbered.once, ValueId.within, hbelow]
  · intro v hle hlt
    simp [hnumbered.once, ValueId.within, hle, hlt]
  · intro i callee argc r hi
    obtain ⟨target, args, htarget, hlength, hpushed, -, hargs, -⟩ := hsound.typed i _ hi
    exact ⟨target, args, htarget, Function.callArgs_eq hi hlength hpushed, hlength, hargs⟩

/-- Keeps its argument in a local and adds it to itself. -/
def doublingSteps : List Step :=
  [.function "double" [.id .i64] (some (.id .i64)), .alloca (.id .i64), .store ⟨1⟩ ⟨0⟩, .load ⟨1⟩,
    .binary (.int .add) ⟨2⟩ ⟨0⟩, .ret ⟨3⟩]

/-- The local and the sum are defined once, and the load fits the type of the local. -/
theorem runAll_typed_doubling :
    ∃ b f, runAll .initial doublingSteps = .ok b ∧ b.module.functions[0]? = some f ∧
      f.arg 0 = .ok ⟨0⟩ ∧ f.definitions ⟨1⟩ = 1 ∧ f.definitions ⟨3⟩ = 1 ∧
      (Instruction.load ⟨2⟩ ⟨1⟩).Typed b.types b.module f 2 := by
  have hcheck : ((runAll .initial doublingSteps).toOption.bind fun b => b.module.functions[0]?).map
      (fun f => (f.argCount, f.values.size, f.instructions[2]?)) = some (1, 4,
      some (.load ⟨2⟩ ⟨1⟩)) := by decide +kernel
  simp only [Option.map_eq_some_iff, Option.bind_eq_some_iff, toOption_eq_some, Prod.mk.injEq]
    at hcheck
  obtain ⟨f, ⟨b, hbuild, hf⟩, hargs, hsize, hload⟩ := hcheck
  obtain ⟨harguments, hdefined, -, htyped, -⟩ := runAll_typed hbuild hf
  refine ⟨b, f, hbuild, hf, (harguments ⟨0⟩ (by simp [hargs])).1, ?_, ?_, htyped 2 _ hload⟩
  · exact hdefined ⟨1⟩ (by simp [hargs]) (by simp [hsize])
  · exact hdefined ⟨3⟩ (by simp [hargs]) (by simp [hsize])

end Step

end MicroCompiler.Ssa
