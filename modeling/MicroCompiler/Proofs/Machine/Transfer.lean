import MicroCompiler.Proofs.Machine.Correspondence

/-! What a step does to activations. An instruction lays out the locals of the running activation,
begins an activation, ends one, or goes on in the running one. Each of the four is said once here,
for every way in which an instruction can come to it; nothing is assumed of operands or of native
code, since a step that faults leaves nothing to say. -/

namespace MicroCompiler.Machine

variable {σ α β : Type}

/-! ### Actions that change little -/

namespace Action

variable {s : State σ} {p : Action σ α}

theorem Meets.returns {post : α → State σ → Prop} (h : p.Meets s post fun _ => False) :
    ∃ a s', p s = .ok a s' ∧ post a s' := by
  unfold Meets at h
  cases hp : p s with
  | ok a s' =>
    rw [hp] at h
    exact ⟨a, s', rfl, h⟩
  | error e s' =>
    rw [hp] at h
    exact h.elim

/-- The action looks at the state and leaves it as it is. -/
def Observes (p : Action σ α) : Prop := ∀ s, p.Meets s (fun _ s' => s' = s) fun _ => True

theorem Observes.pure (a : α) : Observes (pure a : Action σ α) := fun _ => rfl

theorem Observes.andThen {k : α → Action σ β} {post : β → State σ → Prop} (hp : p.Observes)
    (hk : ∀ a, (k a).Meets s post fun _ => True) : (p >>= k).Meets s post fun _ => True := by
  refine .bind ((hp s).mono (fun a s' hs' => ?_) fun _ => id)
  rw [hs']
  exact hk a

theorem Observes.bind {k : α → Action σ β} (hp : p.Observes) (hk : ∀ a, (k a).Observes) :
    (p >>= k).Observes :=
  fun s => hp.andThen fun a => hk a s

end Action

section

variable {m : Machine σ} {s : State σ} {f : Ssa.Function}

theorem observes_frame : (frame : Action σ Frame).Observes := fun _ => rfl

theorem observes_checked (result : Except Ssa.Fault α) :
    (checked result : Action σ α).Observes := by
  intro s
  cases result with
  | ok a => exact rfl
  | error e => exact trivial

theorem observes_getValue (v : Ssa.ValueId) : (getValue v : Action σ UInt64).Observes := by
  refine observes_frame.bind fun frame s => ?_
  unfold Action.Meets getRegister
  cases s.registers[frame.base.toNat + v.index]? with
  | some word => exact rfl
  | none => exact trivial

theorem observes_typeOf (v : Ssa.ValueId) : (m.typeOf f v : Action σ TypeInfo).Observes :=
  (observes_checked _).bind fun _ => observes_checked _

theorem observes_loadWord (address : UInt64) (size : Nat) :
    (loadWord address size : Action σ UInt64).Observes := by
  intro s
  unfold Action.Meets loadWord
  by_cases hsize : size ∈ accessWidths
  · simp [hsize]
  · simp [hsize]

theorem observes_nativeArguments (declared index : Nat) (args : List Ssa.ValueId) :
    (m.nativeArguments f declared index args).Observes := by
  induction args generalizing index with
  | nil => exact .pure []
  | cons v rest ih =>
    refine (observes_getValue v).bind fun word => (observes_typeOf v).bind fun t =>
      (ih (index + 1)).bind fun more => ?_
    exact .pure _

theorem meets_assign {v : Ssa.ValueId} {word : UInt64} {post : Unit → State σ → Prop}
    (h : post () (s.assign v word)) : (setValue v word : Action σ Unit).Meets s post fun _ =>
    True := by
  by_cases hv : s.Holds v
  · exact meets_setValue hv h
  · refine .bind (meets_frame ?_)
    have hout : ¬ s.frame.base.toNat + v.index < s.registers.size := hv
    simp [Action.Meets, setRegister, hout]

theorem meets_native {id : Ssa.FuncId} {callee : Ssa.Function} {args : List Native.Argument}
    {post : UInt64 → State σ → Prop}
    (h : ∀ word memory links native, post word { s with memory, links, native }) :
    (m.callNative id callee args).Meets s post fun _ => True := by
  refine .bind (meets_resolve fun address links native => ?_)
  cases address with
  | none => exact .throw trivial
  | some address =>
    cases callee.ret with
    | none => exact .bind (meets_invoke (fun _ => trivial) fun _ _ _ => .pure (h _ _ _ _))
    | some t =>
      refine (observes_checked _).andThen fun info => .bind ?_
      exact meets_invoke (fun _ => trivial) fun _ _ _ => .pure (h _ _ _ _)

end

/-! ### The four kinds of steps -/

/-- What an instruction is for the activations of a run. -/
inductive Turn where
  /-- The locals of the running activation get their places. -/
  | layout
  /-- An activation begins. -/
  | entry
  /-- The running activation ends. -/
  | exit
  /-- The running activation goes on. -/
  | onward
  deriving DecidableEq, Repr

def turn (m : Ssa.Module) : Ssa.Instruction → Turn
  | .allocStack => .layout
  | .call id _ _ => if m.functions[id.index]?.any (·.isExternal) then .onward else .entry
  | .ret _ | .retVoid => .exit
  | _ => .onward

/-- The state `s'` after an instruction of `f` that was carried out in the state `s`, if the run
goes on. -/
inductive Transfer (m : Machine σ) (s : State σ) (f : Ssa.Function) (callers : List Activation) :
    Turn → State σ → Prop
  | layout {registers : Array UInt64} {stackOffset : UInt32} (position : s.frame.cursor.toNat = 0)
    (following : 1 < f.instructions.size) (size : registers.size = s.registers.size)
    (others : ∀ k : Nat, (∀ l ∈ f.locals, s.frame.base.toNat + l.value.index ≠ k) →
      registers[k]? = s.registers[k]?)
    (places : ∀ p ∈ Machine.layout m.types s.frame.stackOffset.toNat f.locals.toList,
      registers[s.frame.base.toNat + p.value.index]? = some (m.stack.address p.start))
    (stop : stackOffset.toNat = layoutEnd m.types s.frame.stackOffset.toNat f.locals.toList)
    (fits : stackOffset.toNat ≤ m.stack.size) :
    Transfer m s f callers .layout (State.next
      { s with registers, frame := { s.frame with stackOffset } })
  | entry {s' : State σ} {id : Ssa.FuncId} {argc : Nat} {r : Option Ssa.ValueId}
    {callee : Ssa.Function} {args : List Ssa.ValueId}
    (call : f.instructions[s.frame.cursor.toNat]? = some (.call id argc r))
    (target : m.module.functions[id.index]? = some callee) (body : callee.foreign = none)
    (entered : Entered m s f id callee args s') : Transfer m s f callers .entry s'
  | exit {c : Activation} {rest : List Activation} {g : Ssa.Function} {id : Ssa.FuncId} {argc : Nat}
    {r : Option Ssa.ValueId} {word : UInt64} (first : callers = c :: rest)
    (func : m.module.functions[c.frame.func.toNat]? = some g)
    (call : g.instructions[c.frame.cursor.toNat]? = some (.call id argc r)) :
    Transfer m s f callers .exit (s.returned c.frame r word)
  | onward {s' : State σ} {cursor : UInt32} {ins : Ssa.Instruction}
    (here : f.instructions[s.frame.cursor.toNat]? = some ins) (later : ins ≠ .allocStack)
    (frame : s'.frame = { s.frame with cursor }) (frameAt : s'.frameAt = s.frameAt)
    (position : 0 < cursor.toNat ∧ cursor.toNat < f.instructions.size) (size : s'.registers.size =
      s.registers.size)
    (below : ∀ k < s.frame.base.toNat, s'.registers[k]? = s.registers[k]?)
    (locals : ∀ l ∈ f.locals,
      s'.registers[s.frame.base.toNat + l.value.index]? =
      s.registers[s.frame.base.toNat + l.value.index]?) :
    Transfer m s f callers .onward s'

/-- Code that is fit to run, and whose positions fit in a header. -/
structure Numbered (m : Machine σ) : Prop extends Loaded m where
  positions : ∀ (k : Nat) f, m.module.functions[k]? = some f → f.instructions.size ≤ UInt32.size

namespace Orderly

variable {m : Machine σ} {s s' : State σ} {f : Ssa.Function} {callers : List Activation}
  {ins : Ssa.Instruction}

section

variable (hm : Numbered m) (h : Orderly m s f callers)
  (hins : f.instructions[s.frame.cursor.toNat]? = some ins)

include hm h hins

/-- An instruction that is neither the layout nor the end of its block goes on to the next one. -/
theorem onward (hterm : ins.isTerminator = false) (hne : ins ≠ .allocStack)
    (hframe : s'.frame = s.frame) (hat : s'.frameAt = s.frameAt)
    (hsize : s'.registers.size = s.registers.size)
    (hbelow : ∀ k < s.frame.base.toNat, s'.registers[k]? = s.registers[k]?)
      (hlocals : ∀ l ∈ f.locals, s'.registers[s.frame.base.toNat + l.value.index]? =
        s.registers[s.frame.base.toNat + l.value.index]?) :
    Transfer m s f callers .onward s'.next := by
  have hloaded := hm.toLoaded
  have hlt := Ssa.Function.next_lt (h.running.wellFormed hloaded) ((h.running.sound hloaded).body
    h.running.body) hins hterm
  have hpositions := hm.positions _ f h.running.func
  have hcursor : (s.frame.cursor + 1).toNat = s.frame.cursor.toNat + 1 := toNat_succ (by omega)
  have hnext : s'.next.frame = { s.frame with cursor := s.frame.cursor + 1 } := by
    simp [State.next, State.goTo, hframe]
  exact .onward hins hne hnext hat (by omega) hsize hbelow hlocals

/-- What an instruction defines is no local, so the registers of the locals stay. -/
theorem onward_define {r : Ssa.ValueId} (hr : ins.result? = some r)
    (word : UInt64) (hframe : s'.frame = s.frame) (hat : s'.frameAt = s.frameAt)
    (hregisters : s'.registers = s.registers) :
    Transfer m s f callers .onward (s'.assign r word).next := by
  obtain ⟨hterm, hne⟩ := isTerminator_of_result hr
  obtain ⟨-, hlocals⟩ := (h.running.sound hm.toLoaded).results _ ins r hins hr
  have hother : ∀ k, s.frame.base.toNat + r.index ≠ k → (s'.assign r word).registers[k]? =
      s.registers[k]? := by
    intro k hk
    rw [State.assign, hframe, hregisters, Array.getElem?_setIfInBounds, if_neg hk]
  refine h.onward hm hins hterm hne hframe hat (by rw [State.assign_size, hregisters]) ?_ ?_
  · intro k hk
    exact hother k (by omega)
  · intro l hl
    refine hother _ fun heq => hlocals l hl ?_
    cases hv : l.value
    cases r
    simp only [hv] at heq
    congr 1
    omega

theorem meets_define {r : Ssa.ValueId} (hr : ins.result? = some r) (word : UInt64) :
    ((do setValue r word; advance; pure none) : Action σ (Option UInt64)).Meets s
      (fun answer s' => answer = none → Transfer m s f callers .onward s') fun _ => True :=
  .bind (meets_assign (.bind (meets_advance (.pure fun _ =>
  h.onward_define hm hins hr word rfl rfl rfl))))

theorem meets_jump (hne : ins ≠ .allocStack) {target : Ssa.BlockId}
    (htarget : f.isTarget target = true) :
    (Machine.jump f target : Action σ Unit).Meets s (fun _ s' => Transfer m s f callers .onward s')
    fun _ => True := by
  obtain ⟨e, he, hlater, hlt, hcursor⟩ :=
    h.running.target hm.toLoaded (hm.positions _ f h.running.func) htarget
  refine Machine.meets_jump he ?_
  exact .onward hins hne rfl rfl (by omega) rfl (fun _ _ => rfl) fun _ _ => rfl

end

/-- The caller gets its header back and goes on behind its call. -/
theorem meets_leave (hm : Numbered m) {c : Activation} {rest : List Activation}
    (h : Orderly m s f (c :: rest)) (word : UInt64) {allowed : Fault → Prop} :
    (m.leave word).Meets s
      (fun answer s' => answer = none ∧ ∃ g id argc r, m.module.functions[c.frame.func.toNat]? =
        some g ∧ g.instructions[c.frame.cursor.toNat]? = some (.call id argc r) ∧
        s' = s.returned c.frame r word) allowed := by
  have hsize : s.frame.base.toNat ≤ s.registers.size :=
    Nat.le_trans (Nat.le_add_right _ _) h.running.window
  obtain ⟨hlink, hframe, -, ⟨g, hruns, id, argc, r, hcall⟩, -⟩ := h.suspended
  have hat : s.frame.caller.toNat = c.offset := hlink
  have hfits := hruns.header_fits
  have hnone : s.frame.caller ≠ Frame.noCaller := by
    intro heq
    have hstack := hm.stack
    rw [← heq, hat] at hstack
    omega
  have hr : ∀ v ∈ r, c.frame.base.toNat + v.index < s.registers.size := by
    intro v hv
    have hlt := ((hruns.sound hm.toLoaded).typed _ _ hcall).result_lt (r := v) hv
    have hwindow := hruns.window
    omega
  refine meets_leave_caller h.running.base hsize hnone (by rw [hat]; exact hfits)
    (by rw [hat]; exact hframe) hruns.func hcall hr ?_
  exact ⟨rfl, g, id, argc, r, hruns.func, hcall, rfl⟩

theorem meets_exit (hm : Numbered m) (h : Orderly m s f callers) (word : UInt64) :
    (m.leave word).Meets s (fun answer s' => answer = none → Transfer m s f callers .exit s')
    fun _ => True := by
  cases callers with
  | nil =>
    have hsize : s.frame.base.toNat ≤ s.registers.size :=
      Nat.le_trans (Nat.le_add_right _ _) h.running.window
    exact meets_leave_last h.running.base hsize h.suspended fun _ _ => by simp
  | cons c rest =>
    refine (h.meets_leave hm word).mono ?_ fun _ => id
    rintro answer s' ⟨-, g, id, argc, r, hfunc, hcall, rfl⟩ -
    exact .exit rfl hfunc hcall

theorem meets_call (hm : Numbered m) (h : Orderly m s f callers) {id : Ssa.FuncId} {argc : Nat}
    {r : Option Ssa.ValueId}
    (hins : f.instructions[s.frame.cursor.toNat]? = some (.call id argc r)) :
    (m.call f id r).Meets s (fun _ s' => Transfer m s f callers (turn m.module (.call id argc r))
      s') fun _ => True := by
  have hf := h.running.sound hm.toLoaded
  obtain ⟨callee, args, hcallee, hlength, hpushed, hcount, hargs, -⟩ := hf.typed _ _ hins
  refine .bind (meets_checked (a := callee) (mapError_eq_ok.mpr (fetch_eq_ok.mpr hcallee))
    (.bind (meets_frame ?_)))
  refine .bind (meets_checked (Ssa.Function.callArgs_eq hins hlength hpushed) ?_)
  cases hforeign : callee.foreign with
  | none =>
    have hlocal : callee.isExternal = false := by simp [Ssa.Function.isExternal, hforeign]
    have hturn : turn m.module (.call id argc r) = .entry := by simp [turn, hcallee, hlocal]
    rw [if_neg (by simp [hlocal]), hturn]
    refine meets_enter (fun _ _ => trivial) h.running.window h.running.header_fits
      (hm.functions _ callee hcallee) hforeign hlength hcount hargs ?_
    exact fun s' hentered => .entry hins hcallee hforeign hentered
  | some foreign =>
    have hnative : callee.isExternal = true := by simp [Ssa.Function.isExternal, hforeign]
    have hturn : turn m.module (.call id argc r) = .onward := by simp [turn, hcallee, hnative]
    rw [if_pos hnative, hturn]
    refine (observes_nativeArguments _ _ _).andThen fun words =>
      .bind (meets_native fun word memory links native => ?_)
    cases r with
    | none =>
      exact meets_advance (h.onward hm hins rfl (by simp) rfl rfl rfl (fun _ _ => rfl) fun _ _ =>
        rfl)
    | some v =>
      exact .bind (meets_assign (meets_advance (h.onward_define hm hins rfl word rfl rfl rfl)))

/-- Every instruction takes its turn. -/
theorem meets_turn (hm : Numbered m) (h : Orderly m s f callers)
    (hins : f.instructions[s.frame.cursor.toNat]? = some ins) :
    (m.perform f ins).Meets s (fun answer s' => answer = none →
      Transfer m s f callers (turn m.module ins) s')
      fun _ => True := by
  have hf := h.running.sound hm.toLoaded
  have htargets := Ssa.Function.isWellFormed_targets (h.running.wellFormed hm.toLoaded) hins
  cases ins with
  | allocStack =>
    have hzero : s.frame.cursor.toNat = 0 := hf.typed _ _ hins
    have hlt := Ssa.Function.next_lt (h.running.wellFormed hm.toLoaded)
      (hf.body h.running.body) hins rfl
    refine .bind (meets_allocStack (fun _ _ => trivial) hm.types hf h.running.high
      h.running.window ?_)
    intro registers stackOffset hsize hothers hplaces hend hfits
    refine .bind (meets_advance (.pure fun _ => ?_))
    exact .layout hzero (by omega) hsize hothers hplaces hend hfits
  | constant r word => exact h.meets_define hm hins rfl word
  | binary op r lhs rhs =>
    refine (observes_typeOf r).andThen fun info => (observes_getValue lhs).andThen fun x =>
      (observes_getValue rhs).andThen fun y => ?_
    cases op with
    | int op =>
      cases hword : op.apply info x y with
      | some word =>
        simp only [hword]
        exact h.meets_define hm hins rfl word
      | none =>
        simp only [hword]
        exact .bind (.throw trivial)
    | float op => exact h.meets_define hm hins rfl _
  | icmp pred r lhs rhs | fcmp pred r lhs rhs =>
    refine (observes_typeOf lhs).andThen fun info => (observes_getValue lhs).andThen fun x =>
      (observes_getValue rhs).andThen fun y => ?_
    exact h.meets_define hm hins rfl _
  | load r address =>
    refine (observes_typeOf r).andThen fun info => (observes_getValue address).andThen fun x =>
      (observes_loadWord x info.size).andThen fun word => ?_
    exact h.meets_define hm hins rfl _
  | store address v =>
    refine (observes_typeOf v).andThen fun info => (observes_getValue address).andThen fun x =>
      (observes_getValue v).andThen fun word => .bind (meets_storeWord
        (.bind (meets_advance (.pure fun _ => ?_))))
    exact h.onward hm hins rfl (by simp) rfl rfl rfl (fun _ _ => rfl) fun _ _ => rfl
  | pushArg v =>
    refine .bind (meets_advance (.pure fun _ => ?_))
    exact h.onward hm hins rfl (by simp) rfl rfl rfl (fun _ _ => rfl) fun _ _ => rfl
  | call callee argc r =>
    exact .bind ((h.meets_call hm hins).mono (fun _ s' hs' => .pure fun _ => hs') fun _ => id)
  | jump target =>
    exact .bind ((h.meets_jump hm hins (by simp) htargets).mono (fun _ s' hs' => .pure fun _ =>
      hs') fun _ => id)
  | branch condition consequent alternative =>
    simp only [Ssa.Function.targetsOk, Bool.and_eq_true] at htargets
    refine (observes_getValue condition).andThen fun word => .bind ?_
    refine (h.meets_jump hm hins (by simp) ?_).mono (fun _ s' hs' => .pure fun _ => hs') fun _ => id
    split
    next => exact htargets.2
    next => exact htargets.1
  | ret v => exact (observes_getValue v).andThen fun word => h.meets_exit hm word
  | retVoid => exact h.meets_exit hm 0

end Orderly

end MicroCompiler.Machine
