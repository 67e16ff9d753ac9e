import MicroCompiler.Proofs.Machine.Action
import MicroCompiler.Proofs.Ssa.History

/-! Operands of built code. A builder looks up the type of every operand, with one exception: what
is passed to a variadic function beyond the arguments that it declares is pushed as it is given. So
an operand that is not in the value table of its function is such an extra argument, and the code
keeps to its own values exactly if all extra arguments do. Main statement: `runAll_operands`. -/

namespace MicroCompiler.Ssa

/-- The values that an instruction names. -/
def Instruction.operands : Instruction → List ValueId
  | .binary _ _ lhs rhs | .icmp _ _ lhs rhs | .fcmp _ _ lhs rhs => [lhs, rhs]
  | .load _ address => [address]
  | .store address v => [address, v]
  | .pushArg v | .ret v => [v]
  | .branch condition _ _ => [condition]
  | .allocStack | .constant _ _ | .call _ _ _ | .jump _ | .retVoid => []

/-- What is no part of a call names values of the function only. -/
theorem Instruction.Typed.operands_lt {types : TypeTable} {m : Module} {f : Function} {i : Nat}
    {ins : Instruction} (h : ins.Typed types m f i) (hplain : ins.isPlain = true) :
    ∀ v ∈ ins.operands, v.index < f.values.size := by
  have hlt : ∀ {v : ValueId} {t}, f.values[v.index]? = some t → v.index < f.values.size :=
    fun ht => (Array.getElem?_eq_some_iff.mp ht).1
  have hpair : ∀ {u w : ValueId} {t t'}, f.values[u.index]? = some t →
    f.values[w.index]? = some t' →
      ∀ v ∈ [u, w], v.index < f.values.size := by
    intro u w t t' hu hw v hv
    rcases (by simpa using hv : v = u ∨ v = w) with rfl | rfl
    · exact hlt hu
    · exact hlt hw
  have hone : ∀ {u : ValueId} {t}, f.values[u.index]? = some t → ∀ v ∈ [u],
      v.index < f.values.size := by
    intro u t hu v hv
    obtain rfl := List.mem_singleton.mp hv
    exact hlt hu
  cases ins with
  | binary op r lhs rhs | icmp pred r lhs rhs | fcmp pred r lhs rhs =>
    obtain ⟨t, info, -, hlhs, hrhs, -⟩ := h
    exact hpair hlhs hrhs
  | load r address =>
    obtain ⟨t, pointer, -, haddress, -⟩ := h
    exact hone haddress
  | store address v =>
    obtain ⟨t, pointer, hv, haddress, -⟩ := h
    exact hpair haddress hv
  | branch condition k l =>
    obtain ⟨t, info, hcondition, -⟩ := h
    exact hone hcondition
  | ret v =>
    obtain ⟨t, hv, -⟩ := h
    exact hone hv
  | pushArg v => cases hplain
  | _ => simp [operands]

/-! ### Extra arguments -/

namespace Function

/-- The arguments of the call at a position beyond those that its callee declares, if it is
variadic. -/
def extrasAt (m : Module) (f : Function) (i : Nat) : List ValueId :=
  match f.instructions[i]? with
  | some (.call callee _ _) =>
    match m.functions[callee.index]? with
    | some target =>
      if target.isVariadic then ((f.callArgs i).toOption.getD []).drop target.argCount else []
    | none => []
  | _ => []

/-- The extra arguments of all calls. -/
def extras (m : Module) (f : Function) : List ValueId :=
  (List.range f.instructions.size).flatMap (f.extrasAt m)

variable {types : TypeTable} {m : Module} {f : Function} {c : Invocation} {calls : List Invocation}
  {i : Nat} {v : ValueId}

theorem mem_extras : v ∈ f.extras m ↔ ∃ i, v ∈ f.extrasAt m i := by
  simp only [extras, List.mem_flatMap, List.mem_range]
  constructor
  · rintro ⟨i, -, hv⟩
    exact ⟨i, hv⟩
  · rintro ⟨i, hv⟩
    refine ⟨i, ?_, hv⟩
    by_contra hout
    simp [extrasAt, Array.getElem?_eq_none (Nat.le_of_not_lt hout)] at hv

theorem Invokes.extrasAt (h : f.Invokes c) {target : Function}
    (htarget : m.functions[c.callee.index]? = some target) :
    f.extrasAt m c.position = if target.isVariadic then c.args.drop target.argCount else [] := by
  obtain ⟨r, hr⟩ := h.call
  simp only [Function.extrasAt, hr, htarget, h.callArgs, Except.toOption, Option.getD_some]

/-- An argument of a call is declared, and then a value of the function, or it is extra. -/
theorem Invokes.lt_or_extra (h : f.Invokes c) (hf : f.Sound types m) (hv : v ∈ c.args) :
    v.index < f.values.size ∨ v ∈ f.extras m := by
  obtain ⟨r, hr⟩ := h.call
  obtain ⟨target, args, htarget, hlength, hpushed, hcount, hdeclared, -⟩ := hf.typed _ _ hr
  obtain rfl : args = c.args := Except.ok.inj
    ((callArgs_eq hr hlength hpushed).symm.trans h.callArgs)
  obtain ⟨j, hj⟩ := List.mem_iff_getElem?.mp hv
  by_cases hlt : j < target.argCount
  · left
    obtain ⟨w, t, hw, -, ht⟩ := hdeclared j hlt
    obtain rfl : v = w := Option.some.inj (hj.symm.trans hw)
    exact (Array.getElem?_eq_some_iff.mp ht).1
  · right
    have hj' := (List.getElem?_eq_some_iff.mp hj).1
    have hvariadic : target.isVariadic = true := by
      by_contra hfixed
      rw [if_neg hfixed] at hcount
      omega
    rw [mem_extras]
    refine ⟨c.position, ?_⟩
    rw [h.extrasAt htarget, if_pos hvariadic, List.mem_iff_getElem?]
    refine ⟨j - target.argCount, ?_⟩
    rw [List.getElem?_drop, ← hj]
    congr 1
    omega

/-- Arguments of calls, and nothing else, are pushed. -/
theorem Records.pushArg_mem_iff (h : f.Records calls) :
    .pushArg v ∈ f.instructions ↔ ∃ c ∈ calls, v ∈ c.args := by
  rw [Array.mem_iff_getElem?]
  constructor
  · rintro ⟨i, hi⟩
    obtain ⟨c, hc, hle, hlt⟩ := h.pushes i v hi
    obtain ⟨hargs, hpushed⟩ := (h.invokes c hc).pushed
    obtain ⟨w, hw⟩ : ∃ w, c.args[i - (c.position - c.args.length)]? = some w :=
      ⟨_, List.getElem?_eq_getElem (by omega)⟩
    have hi' := hpushed _ w hw
    rw [show c.position - c.args.length + (i - (c.position - c.args.length)) =
      i by omega, hi] at hi'
    obtain rfl : v = w := by simpa using hi'
    exact ⟨c, hc, List.mem_of_getElem? hw⟩
  · rintro ⟨c, hc, hv⟩
    obtain ⟨j, hj⟩ := List.mem_iff_getElem?.mp hv
    exact ⟨_, (h.invokes c hc).pushed.2 j v hj⟩

/-- Extra arguments are pushed like all others. -/
theorem Records.pushArg_mem_of_extra (h : f.Records calls) (hv : v ∈ f.extras m) :
    .pushArg v ∈ f.instructions := by
  obtain ⟨i, hi⟩ := mem_extras.mp hv
  unfold Function.extrasAt at hi
  split at hi
  next callee argc r hcall =>
    obtain ⟨c, hc, rfl⟩ := h.complete i callee argc r hcall
    split at hi
    next target htarget =>
      rw [(h.invokes c hc).callArgs] at hi
      split at hi
      next => exact h.pushArg_mem_iff.mpr ⟨c, hc, List.mem_of_mem_drop hi⟩
      next => cases hi
    next => cases hi
  next => cases hi

theorem Records.operand_lt_or_extra (h : f.Records calls) (hf : f.Sound types m) {ins : Instruction}
    (hins : ins ∈ f.instructions) (hv : v ∈ ins.operands) :
    v.index < f.values.size ∨ ins = .pushArg v ∧ v ∈ f.extras m := by
  obtain ⟨i, hi⟩ := Array.mem_iff_getElem?.mp hins
  by_cases hplain : ins.isPlain = true
  · exact .inl ((hf.typed i ins hi).operands_lt hplain v hv)
  · cases ins with
    | pushArg w =>
      obtain rfl : v = w := by simpa [Instruction.operands] using hv
      obtain ⟨c, hc, hargs⟩ := h.pushArg_mem_iff.mp hins
      exact ((h.invokes c hc).lt_or_extra hf hargs).imp_right fun hextra => ⟨rfl, hextra⟩
    | call callee argc r => simp [Instruction.operands] at hv
    | _ => exact absurd rfl hplain

/-! ### External functions -/

/-- If the function is external, it has no code. -/
def ForeignEmpty (f : Function) : Prop := f.foreign ≠ none → f.instructions = #[]

end Function

namespace Builder

variable {p : Prop} {b b' : Builder}

theorem Edit.foreignEmpty (h : Edit p b b') (hsound : b.Sound)
    (hb : ∀ f ∈ b.module.functions, f.ForeignEmpty) :
    ∀ f ∈ b'.module.functions, f.ForeignEmpty := by
  -- Only functions with a body are edited.
  have hedited : ∀ {c : Cursor} {f g : Function}, b.At c f → g.foreign = f.foreign →
      g.ForeignEmpty :=
    fun hat hsame hforeign => absurd (hsame.trans (hsound.current hat).1) hforeign
  cases h with
  | pointer _ => exact hb
  | renew => exact hb
  | begin name args ret _ _ _ =>
    exact Array.forall_mem_push.mpr ⟨fun hforeign => absurd rfl hforeign, hb⟩
  | declare name library args ret variadic _ _ _ =>
    exact Array.forall_mem_push.mpr ⟨fun _ => rfl, hb⟩
  | block hat | start hat _ _ | slot hat _ | extend hat _ _ =>
    exact forall_place hb (hedited hat rfl)

theorem Edits.foreignEmpty (h : Edits p b b') (hsound : b.Sound)
    (hb : ∀ f ∈ b.module.functions, f.ForeignEmpty) :
    ∀ f ∈ b'.module.functions, f.ForeignEmpty := by
  induction h with
  | refl => exact hb
  | tail hedits hedit ih => exact hedit.foreignEmpty (Edits.sound hedits hsound) ih

end Builder

/-! ### Scripts -/

namespace Step

theorem runAll_foreignEmpty {steps : List Step} {b : Builder} (h : runAll .initial steps = .ok b) :
    ∀ f ∈ b.module.functions, f.ForeignEmpty := by
  apply (runAll_edits h TypeTable.initial_sound).foreignEmpty Builder.initial_sound
  intro f hf
  simp [Builder.initial, Module.empty] at hf

/-- Pushes in a function that a script makes belong to calls, also in an external one, which has no
code. -/
theorem runAll_records {steps : List Step} {b : Builder} (h : runAll .initial steps = .ok b)
    {k : Nat} {f : Function} (hf : b.module.functions[k]? = some f) : ∃ calls, f.Records calls := by
  by_cases hforeign : f.foreign = none
  · have harranged := runAll_arranged h Builder.initial_sound Builder.initial_arranged
    exact ⟨_, (harranged.bodies k f hf hforeign).2⟩
  · have hempty := runAll_foreignEmpty h f (Array.mem_of_getElem? hf) hforeign
    exact ⟨[], by simp, by simp [hempty], by simp [hempty]⟩

/-- In every function that a script makes, an operand is a value of the function or an extra
argument. All operands are values of the function exactly if all extra arguments are, and then each
of them has a type and can be read wherever the registers hold the values of the function. -/
theorem runAll_operands {steps : List Step} {b : Builder} (h : runAll .initial steps = .ok b)
    {k : Nat} {f : Function} (hf : b.module.functions[k]? = some f) :
    (∀ ins ∈ f.instructions, ∀ v ∈ ins.operands,
      v.index < f.values.size ∨ ins = .pushArg v ∧ v ∈ f.extras b.module) ∧
    ((∀ ins ∈ f.instructions, ∀ v ∈ ins.operands, v.index < f.values.size) ↔
      ∀ v ∈ f.extras b.module, v.index < f.values.size) ∧
    ((∀ v ∈ f.extras b.module, v.index < f.values.size) →
      ∀ ins ∈ f.instructions, ∀ v ∈ ins.operands, (∃ t, f.valueType v = .ok t) ∧
        ∀ {σ : Type} (s : Machine.State σ), s.frame.base.toNat + f.values.size ≤ s.registers.size →
          ∃ word, Machine.getValue v s = .ok word s) := by
  have hsound := (runAll_sound h).functions k f hf
  obtain ⟨calls, hrecords⟩ := runAll_records h hf
  have hoperands : ∀ ins ∈ f.instructions, ∀ v ∈ ins.operands,
      v.index < f.values.size ∨ ins = .pushArg v ∧ v ∈ f.extras b.module :=
    fun ins hins v hv => hrecords.operand_lt_or_extra hsound hins hv
  have hlt : (∀ v ∈ f.extras b.module, v.index < f.values.size) →
      ∀ ins ∈ f.instructions, ∀ v ∈ ins.operands, v.index < f.values.size := by
    intro hextras ins hins v hv
    rcases hoperands ins hins v hv with hown | ⟨-, hextra⟩
    · exact hown
    · exact hextras v hextra
  refine ⟨hoperands, ⟨?_, hlt⟩, ?_⟩
  · intro hown v hv
    exact hown _ (hrecords.pushArg_mem_of_extra hv) v (by simp [Instruction.operands])
  · intro hextras ins hins v hv
    have hown := hlt hextras ins hins v hv
    refine ⟨⟨_, Function.valueType_eq_ok.mpr (Array.getElem?_eq_getElem hown)⟩, ?_⟩
    intro σ s hwindow
    have hholds : s.Holds v := by
      unfold Machine.State.Holds
      omega
    exact ⟨_, hholds.getValue⟩

/-- Passes two extra arguments to a function that declares one. -/
def totalSteps : List Step :=
  [.foreign "total" none [.id .u64] (some (.id .u64)) true, .function "main" [.id .u64]
    (some (.id .u64)), .constant (.id .u64) 5, .call ⟨0⟩ [⟨0⟩, ⟨1⟩, ⟨0⟩], .ret ⟨2⟩]

/-- Both are values of the function, so every operand is. -/
theorem runAll_operands_total :
    ∃ b f, runAll .initial totalSteps = .ok b ∧ b.module.functions[1]? = some f ∧
      f.values.size = 3 ∧ f.extras b.module = [⟨1⟩, ⟨0⟩] ∧ ∀ ins ∈ f.instructions,
      ∀ v ∈ ins.operands, v.index < f.values.size := by
  have hcheck : ((runAll .initial totalSteps).toOption.bind fun b =>
      b.module.functions[1]?.map fun f =>
      (f.values.size, f.extras b.module)) = some (3, [⟨1⟩, ⟨0⟩]) := by decide +kernel
  simp only [Option.map_eq_some_iff, Option.bind_eq_some_iff, toOption_eq_some, Prod.mk.injEq]
    at hcheck
  obtain ⟨b, hbuild, f, hf, hsize, hextras⟩ := hcheck
  obtain ⟨-, hiff, -⟩ := runAll_operands hbuild hf
  exact ⟨b, f, hbuild, hf, hsize, hextras, hiff.mpr (by simp [hextras, hsize])⟩

/-- Passes a value that its function does not have. -/
def straySteps : List Step :=
  [.foreign "sum" none [] (some (.id .u64)) true, .function "main" [] (some (.id .u64)),
    .call ⟨0⟩ [⟨9⟩], .ret ⟨0⟩]

/-- The builder takes the argument, though the function has one value only. -/
theorem stray_extra_taken :
    ∃ b f, runAll .initial straySteps = .ok b ∧ b.module.functions[1]? = some f ∧
      f.isWellFormed = true ∧ f.values.size = 1 ∧ f.instructions[1]? = some (.pushArg ⟨9⟩) := by
  have hcheck : ((runAll .initial straySteps).toOption.bind fun b => b.module.functions[1]?).map
      (fun f => (f.isWellFormed, f.values.size, f.instructions[1]?)) = some (true, 1,
      some (.pushArg ⟨9⟩)) := by
    decide +kernel
  simp only [Option.map_eq_some_iff, Option.bind_eq_some_iff, toOption_eq_some, Prod.mk.injEq]
    at hcheck
  obtain ⟨f, ⟨b, hbuild, hf⟩, hfacts⟩ := hcheck
  exact ⟨b, f, hbuild, hf, hfacts⟩

end Step

end MicroCompiler.Ssa
