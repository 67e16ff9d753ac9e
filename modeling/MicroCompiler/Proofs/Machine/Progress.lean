import MicroCompiler.Native.Standard
import MicroCompiler.Proofs.Machine.Chain
import MicroCompiler.Proofs.Machine.Run

/-! Progress. In code that a builder made, with good ids and well-formed functions, no step of the
machine looks for something that is not there, as long as stores and native calls spare the headers
of the callers: every fault is a limit of the run, a division by zero or the fault of native code.
One step keeps the chain of activations, so every run does. Native code that writes over a header
breaks it without any store. -/

namespace MicroCompiler.Machine

variable {σ : Type}

/-- Registers, stack bytes or the arena do not suffice. -/
def Fault.isShortage : Fault → Bool
  | .arena (.exhausted _ _ _ _) | .stackTooLarge _ => true
  | fault => fault.isExhaustion

/-- The faults that code fit to run can end in. -/
def Fault.isLimit : Fault → Bool
  | .divisionByZero _ | .unresolved _ | .native _ => true
  | fault => fault.isShortage

theorem Fault.isShortage_of_isExhaustion {fault : Fault} (h : fault.isExhaustion = true) :
    fault.isShortage = true := by
  cases fault with
  | stackOverflow => rfl
  | registerOverflow => rfl
  | offsetTooLarge => rfl
  | _ => cases h

theorem Fault.isLimit_of_isExhaustion {fault : Fault} (h : fault.isExhaustion = true) :
    fault.isLimit = true := by
  have hshortage := isShortage_of_isExhaustion h
  cases fault with
  | divisionByZero => rfl
  | unresolved => rfl
  | native => rfl
  | _ => exact hshortage

/-- The running activation and its callers are in order. -/
structure Orderly (m : Machine σ) (s : State σ) (f : Ssa.Function) (callers : List Activation) :
    Prop where
  running : s.running.Runs m s.registers.size f
  suspended : Suspended m s.memory s.registers.size s.running callers

/-- Some activation runs in order. -/
def InOrder (m : Machine σ) (s : State σ) : Prop := ∃ f callers, Orderly m s f callers

/-- Whether an instruction is a store. -/
def stores : Ssa.Instruction → Bool
  | .store _ _ => true
  | _ => false

/-- Whether an instruction may write to memory: a store, or a call of native code. -/
def writes (m : Ssa.Module) : Ssa.Instruction → Bool
  | .store _ _ => true
  | .call id _ _ => m.functions[id.index]?.any (·.isExternal)
  | _ => false

/-- If the next instruction is one of a class, the step spares the headers of the callers. -/
def SparesOn (member : Ssa.Module → Ssa.Instruction → Bool) (m : Machine σ) (s s' : State σ) :
    Prop :=
  ∀ f ins, s.frame.current? m.module = some (f, ins) → member m.module ins = true → m.Spares s s'

/-- What an instruction does to the order. Only one that writes can break it. -/
structure Kept (m : Machine σ) (ins : Ssa.Instruction) (s s' : State σ) : Prop where
  order : m.Spares s s' → InOrder m s'
  spares : writes m.module ins = false → m.Spares s s'

section

variable {m : Machine σ} {s s' : State σ} {f : Ssa.Function} {callers : List Activation}
  {ins : Ssa.Instruction} {allowed : Fault → Prop}

theorem Kept.of_memory (hmemory : s'.memory = s.memory) (h : InOrder m s') : Kept m ins s s' :=
  ⟨fun _ => h, fun _ => .of_memory hmemory⟩

theorem toNat_succ_lt {cursor : UInt32} {size : Nat} (h : cursor.toNat + 1 < size) :
    (cursor + 1).toNat < size := by
  have hone : (1 : UInt32).toNat = 1 := rfl
  rw [UInt32.toNat_add, hone]
  exact Nat.lt_of_le_of_lt (Nat.mod_le _ _) h

theorem toUInt32_lt {offset size : Nat} (h : offset < size) : offset.toUInt32.toNat < size := by
  simp only [Nat.toUInt32_eq, UInt32.toNat_ofNat']
  exact Nat.lt_of_le_of_lt (Nat.mod_le _ _) h

namespace Orderly

theorem holds (h : Orderly m s f callers) {v : Ssa.ValueId} {t : TypeId}
    (hv : f.values[v.index]? = some t) : s.Holds v := by
  have hlt := (Array.getElem?_eq_some_iff.mp hv).1
  have hwindow := h.running.window
  simp only [State.running] at hwindow
  unfold State.Holds
  omega

/-- The order is kept by a change of position. -/
theorem goTo (h : Orderly m s f callers) {cursor : UInt32}
    (hframe : s'.frame = { s.frame with cursor })
    (hat : s'.frameAt = s.frameAt) (hsize : s.registers.size ≤ s'.registers.size)
    (hlaid : layoutEnd m.types (s.frameAt + Frame.size) f.locals.toList ≤ s.frame.stackOffset.toNat)
    (hcursor : cursor.toNat < f.instructions.size)
    (hmemory : ∀ c ∈ callers, m.stack.readFrame s'.memory c.offset =
      m.stack.readFrame s.memory c.offset) :
    InOrder m s' := by
  refine ⟨f, callers, h.running.goTo hsize hframe hat hlaid hcursor, ?_⟩
  exact h.suspended.keep (by simp [State.running, hframe]) hat hsize hmemory

section

variable (hm : Loaded m) (h : Orderly m s f callers)

include hm h

/-- The order is kept by an instruction that goes on to the next one. -/
theorem next (hins : f.instructions[s.frame.cursor.toNat]? = some ins)
    (hterm : ins.isTerminator = false) (hne : ins ≠ .allocStack) (hframe : s'.frame = s.frame)
    (hat : s'.frameAt = s.frameAt) (hsize : s'.registers.size = s.registers.size)
    (hmemory : ∀ c ∈ callers, m.stack.readFrame s'.memory c.offset =
      m.stack.readFrame s.memory c.offset) :
    InOrder m s'.next := by
  have hlt := Ssa.Function.next_lt (h.running.wellFormed hm) ((h.running.sound hm).body
    h.running.body) hins hterm
  have hnext : s'.next.frame = { s.frame with cursor := s.frame.cursor + 1 } := by
    simp [State.next, State.goTo, hframe]
  exact h.goTo hnext hat (Nat.le_of_eq hsize.symm) (h.running.laid_of hm hins hne)
    (toNat_succ_lt hlt) hmemory

/-- An instruction that ends by defining a value keeps the order. -/
theorem define (hins : f.instructions[s.frame.cursor.toNat]? = some ins)
    (hterm : ins.isTerminator = false) (hne : ins ≠ .allocStack) {r : Ssa.ValueId} {t : TypeId}
    (hr : f.values[r.index]? = some t) (word : UInt64)
    {allowed : Fault → Prop} :
      ((do setValue r word; advance; pure none) : Action σ (Option UInt64)).Meets s
      (fun r s' => r = none → Kept m ins s s') allowed := by
  refine .bind (meets_setValue (h.holds hr) (.bind (meets_advance (.pure fun _ =>
    .of_memory rfl ?_))))
  exact h.next hm hins hterm hne rfl rfl (by simp) fun _ _ => rfl

/-- The order is kept by a jump to a block. -/
theorem jump (hins : f.instructions[s.frame.cursor.toNat]? = some ins) (hne : ins ≠ .allocStack)
    {target : Ssa.BlockId} {allowed : Fault → Prop} (htarget : f.isTarget target = true) :
    (jump f target : Action σ Unit).Meets s (fun _ s' => Kept m ins s s') allowed := by
  obtain ⟨e, he, hlt⟩ := Ssa.Function.isTarget_block (h.running.wellFormed hm) htarget
  refine meets_jump he (.of_memory rfl ?_)
  exact h.goTo rfl rfl (Nat.le_refl _) (h.running.laid_of hm hins hne) (toUInt32_lt hlt) fun _ _ =>
    rfl

theorem allocStack (hins : f.instructions[s.frame.cursor.toNat]? = some .allocStack)
    {allowed : Fault → Prop} (hlimit : ∀ fault : Fault, fault.isExhaustion = true → allowed fault) :
    (m.allocStack f).Meets s (fun _ s' => Kept m .allocStack s s'.next) allowed := by
  refine meets_allocStack hlimit hm.types (h.running.sound hm) h.running.high h.running.window ?_
  intro registers stackOffset hsize _ _ hend hfits
  have hlow := h.running.low
  have hgrown : s.frame.stackOffset.toNat ≤ stackOffset.toNat := by
    rw [hend]
    exact layout_bounds.1
  have hlaid : layoutEnd m.types (s.frameAt + Frame.size) f.locals.toList ≤ stackOffset.toNat := by
    rcases h.running.laid with hlaid | ⟨-, hfresh⟩
    · exact Nat.le_trans hlaid hgrown
    · have hoffset : s.frame.stackOffset.toNat = s.frameAt + Frame.size := hfresh
      exact Nat.le_of_eq (by rw [hend, hoffset])
  have hlt := Ssa.Function.next_lt (h.running.wellFormed hm) ((h.running.sound hm).body
    h.running.body) hins rfl
  refine .of_memory rfl ⟨f, callers, ?_, h.suspended.keep rfl rfl (Nat.le_of_eq hsize.symm)
    fun _ _ => rfl⟩
  exact ⟨h.running.func, h.running.body, toNat_succ_lt hlt, h.running.base,
    Nat.le_trans h.running.window (Nat.le_of_eq hsize.symm), Nat.le_trans hlow hgrown,
    hfits, .inl hlaid⟩

theorem entered {id callee' : Ssa.FuncId} {callee : Ssa.Function}
    {args : List Ssa.ValueId} {argc : Nat} {r : Option Ssa.ValueId}
    (hins : f.instructions[s.frame.cursor.toNat]? = some (.call callee' argc r))
    (hcallee : m.module.functions[id.index]? = some callee) (hbody : callee.foreign = none)
    (hentered : Entered m s f id callee args s') : InOrder m s' := by
  have hheader := h.running.header_fits
  have hstack := hm.stack_lt
  have hoffset : s.running.offset = s.frameAt := rfl
  refine ⟨callee, s.running :: callers, (hentered.runs hm hcallee hbody).2, ?_⟩
  · refine ⟨hentered.caller, ?_, hentered.above, ⟨f, h.running.grow hentered.grown,
      callee', argc, r, hins⟩, ?_⟩
    · rw [hentered.memory]
      exact Stack.readFrame_writeFrame _ _ _ _
    · refine h.suspended.keep rfl rfl hentered.grown ?_
      intro c hc
      obtain ⟨hbelow, hfits⟩ := h.suspended.header hc
      rw [hentered.memory]
      apply Stack.readFrame_writeFrame_apart
      · omega
      · omega
      · omega

theorem leave (word : UInt64) :
    (m.leave word).Meets s (fun r s' => r = none → Kept m ins s s') allowed := by
  have hwindow := h.running.window
  have hbase := h.running.base
  have hsize : s.frame.base.toNat ≤ s.registers.size := Nat.le_trans (Nat.le_add_right _ _) hwindow
  cases callers with
  | nil => exact meets_leave_last hbase hsize h.suspended fun _ _ => by simp
  | cons c rest =>
    obtain ⟨hat, hframe, hbelow, ⟨g, hruns, callee, argc, r, hcall⟩, hrest⟩ := h.suspended
    have hfits := hruns.header_fits
    have hat' : s.frame.caller.toNat = c.offset := hat
    have hnone : s.frame.caller ≠ Frame.noCaller := by
      intro heq
      have hstack := hm.stack
      rw [← heq, hat'] at hstack
      omega
    have hr : ∀ v ∈ r, c.frame.base.toNat + v.index < s.registers.size := by
      intro v hv
      have htyped := (hruns.sound hm).typed _ _ hcall
      have hlt := htyped.result_lt (r := v) hv
      have hcwindow := hruns.window
      omega
    have hheader : s.frame.caller.toNat + Frame.size ≤ m.stack.size := by rw [hat']; exact hfits
    have hread : m.stack.readFrame s.memory s.frame.caller.toNat = c.frame := by
      rw [hat']; exact hframe
    refine meets_leave_caller hbase hsize hnone hheader hread hruns.func hcall hr fun _ => ?_
    have hlt := Ssa.Function.next_lt (hruns.wellFormed hm) ((hruns.sound hm).body hruns.body) hcall
      rfl
    have hsize' : s.registers.size ≤ (s.returned c.frame r word).registers.size := by simp
    refine .of_memory (by simp) ⟨g, rest, ?_, ?_⟩
    · exact hruns.goTo hsize' (by simp [State.running]) (by simpa [State.running] using hat')
        (hruns.laid_of hm hcall (by simp)) (toNat_succ_lt hlt)
    · exact hrest.keep (by simp [State.running]) (by simpa [State.running] using hat')
        hsize' (by simp)

end

/-- A call begins an activation, or runs native code. -/
theorem call (hm : Loaded m) (hknown : m.module.Known m.types) (h : Orderly m s f callers)
    {id : Ssa.FuncId} {argc : Nat} {r : Option Ssa.ValueId}
    (hins : f.instructions[s.frame.cursor.toNat]? = some (.call id argc r)) :
    (m.call f id r).Meets s (fun _ s' => Kept m (.call id argc r) s s') (fun fault =>
      fault.isLimit = true) := by
  have hf := h.running.sound hm
  have htyped := hf.typed _ _ hins
  obtain ⟨callee, args, hcallee, hlength, hpushed, hcount, hargs, hresult⟩ := htyped
  refine .bind (meets_checked (a := callee) (mapError_eq_ok.mpr (fetch_eq_ok.mpr hcallee))
    (.bind (meets_frame ?_)))
  refine .bind (meets_checked (Ssa.Function.callArgs_eq hins hlength hpushed) ?_)
  cases hforeign : callee.foreign with
  | none =>
    rw [if_neg (by simp [Ssa.Function.isExternal, hforeign])]
    refine meets_enter (fun fault => Fault.isLimit_of_isExhaustion) h.running.window
      h.running.header_fits (hm.functions _ callee hcallee) hforeign hlength hcount hargs ?_
    intro s' hentered
    exact ⟨fun _ => h.entered hm hins hcallee hforeign hentered,
      fun _ => .of_header hm.stack_lt h.running.header_fits hentered.memory⟩
  | some foreign =>
    have hnative : callee.isExternal = true := by simp [Ssa.Function.isExternal, hforeign]
    have hcalleeKnown := hknown _ callee hcallee
    have htypes : ∀ v ∈ args, ∃ t info, f.values[v.index]? = some t ∧
        m.types.infos[t.index]? = some info := by
      intro v hv
      obtain ⟨j, hj⟩ := List.getElem?_of_mem hv
      have hlt := (hknown _ f h.running.func).pushed _ v (hpushed.2 j v hj)
      obtain ⟨t, ht⟩ : ∃ t, f.values[v.index]? = some t := ⟨_, Array.getElem?_eq_getElem hlt⟩
      obtain ⟨info, hinfo⟩ := ((hknown _ f h.running.func).values t (Array.mem_of_getElem? ht)).info
      exact ⟨t, info, ht, hinfo⟩
    have hholds : ∀ v ∈ args, s.Holds v := by
      intro v hv
      obtain ⟨t, -, ht, -⟩ := htypes v hv
      exact h.holds ht
    have hnext : ∀ s' : State σ, s'.frame = s.frame → s'.frameAt = s.frameAt →
      s'.registers.size = s.registers.size →
        Kept m (.call id argc r) s s'.next := by
      intro s' hframe hat hsize
      refine ⟨fun hspares => ?_, fun hquiet => by simp [writes, hcallee, hnative] at hquiet⟩
      refine h.next hm hins rfl (by simp) hframe hat hsize ?_
      intro c hc
      exact h.suspended.spared hm ⟨f, h.running.func⟩ hspares hc
    rw [if_pos hnative]
    refine .bind (meets_nativeArguments hholds htypes fun words => .bind ?_)
    refine meets_callNative (fun _ => rfl) (fun _ => rfl) (fun t ht =>
      (hcalleeKnown.ret t ht).info) ?_
    intro word memory links native _
    cases r with
    | none => exact meets_advance (hnext _ rfl rfl rfl)
    | some v =>
      have hv : ∃ t, f.values[v.index]? = some t := by
        have hlt := (hf.typed _ _ hins).result_lt (r := v) rfl
        exact ⟨_, Array.getElem?_eq_getElem hlt⟩
      obtain ⟨t, ht⟩ := hv
      refine .bind (meets_setValue ?_ (meets_advance (hnext _ rfl rfl (by simp))))
      exact h.holds ht

end Orderly

/-! ### Steps -/

/-- One instruction keeps the order, if it spares the headers. -/
theorem perform_inOrder (hm : Loaded m) (hknown : m.module.Known m.types)
    (h : Orderly m s f callers) (hins : f.instructions[s.frame.cursor.toNat]? = some ins) :
    (m.perform f ins).Meets s (fun r s' => r = none → Kept m ins s s') (fun fault =>
      fault.isLimit = true) := by
  have hf := h.running.sound hm
  have htyped := hf.typed _ _ hins
  have htargets := Ssa.Function.isWellFormed_targets (h.running.wellFormed hm) hins
  cases ins with
  | allocStack =>
    refine .bind ((h.allocStack hm hins fun fault => Fault.isLimit_of_isExhaustion).mono ?_ fun _ =>
      id)
    intro _ s' hs'
    exact .bind (meets_advance (.pure fun _ => hs'))
  | constant r word =>
    obtain ⟨t, hr⟩ := htyped
    exact h.define hm hins rfl (by simp) hr word
  | binary op r lhs rhs =>
    obtain ⟨t, info, hr, hlhs, hrhs, hinfo, -⟩ := htyped
    refine .bind (meets_typeOf hr hinfo (.bind (meets_getValue (h.holds hlhs) (.bind ?_))))
    refine meets_getValue (h.holds hrhs) ?_
    cases op with
    | int op =>
      cases hword : op.apply info (s.value lhs) (s.value rhs) with
      | some word =>
        simp only [hword]
        exact h.define hm hins rfl (by simp) hr word
      | none =>
        simp only [hword]
        exact .bind (.throw rfl)
    | float op => exact h.define hm hins rfl (by simp) hr _
  | icmp pred r lhs rhs | fcmp pred r lhs rhs =>
    obtain ⟨t, info, hr, hlhs, hrhs, hinfo, -⟩ := htyped
    refine .bind (meets_typeOf hlhs hinfo (.bind (meets_getValue (h.holds hlhs) (.bind ?_))))
    exact meets_getValue (h.holds hrhs) (h.define hm hins rfl (by simp) hr _)
  | load r address =>
    obtain ⟨t, pointer, hr, haddress, hpointer⟩ := htyped
    obtain ⟨info, hinfo⟩ := (hm.types.pointee_registered hpointer).info
    refine .bind (meets_typeOf hr hinfo (.bind (meets_getValue (h.holds haddress)
      (.bind (meets_loadWord ?_)))))
    exact h.define hm hins rfl (by simp) hr _
  | store address v =>
    obtain ⟨t, pointer, hv, haddress, hpointer⟩ := htyped
    obtain ⟨info, hinfo⟩ := (hm.types.pointee_registered hpointer).info
    refine .bind (meets_typeOf hv hinfo (.bind (meets_getValue (h.holds haddress) (.bind ?_))))
    refine meets_getValue (h.holds hv) (.bind (meets_storeWord (.bind (meets_advance
      (.pure fun _ => ?_)))))
    refine ⟨fun hspares => h.next hm hins rfl (by simp) rfl rfl rfl ?_, by simp [writes]⟩
    intro c hc
    exact h.suspended.spared hm ⟨f, h.running.func⟩ hspares hc
  | pushArg v =>
    refine .bind (meets_advance (.pure fun _ => .of_memory rfl ?_))
    exact h.next hm hins rfl (by simp) rfl rfl rfl fun _ _ => rfl
  | call callee argc r =>
    refine .bind ((h.call hm hknown hins).mono ?_ fun _ => id)
    intro _ s' hs'
    exact .pure fun _ => hs'
  | jump target =>
    refine .bind ((h.jump hm hins (by simp) htargets).mono ?_ fun _ => id)
    intro _ s' hs'
    exact .pure fun _ => hs'
  | branch condition consequent alternative =>
    obtain ⟨t, info, hcondition, -⟩ := htyped
    simp only [Ssa.Function.targetsOk, Bool.and_eq_true] at htargets
    refine .bind (meets_getValue (h.holds hcondition) (.bind ?_))
    refine (h.jump hm hins (by simp) ?_).mono (fun _ s' hs' => .pure fun _ => hs') fun _ => id
    split
    next => exact htargets.2
    next => exact htargets.1
  | ret v =>
    obtain ⟨t, hv, -⟩ := htyped
    refine .bind (meets_getValue (h.holds hv) ?_)
    exact h.leave hm _
  | retVoid => exact h.leave hm 0

/-- One step keeps the order, if it spares the headers when it writes. -/
theorem step_inOrder (hm : Loaded m) (hknown : m.module.Known m.types) (h : InOrder m s) :
    m.step.Meets s (fun r s' => r = none → SparesOn writes m s s' → InOrder m s')
      (fun fault => fault.isLimit = true) := by
  obtain ⟨f, callers, h⟩ := h
  obtain ⟨ins, hins⟩ : ∃ ins, f.instructions[s.frame.cursor.toNat]? = some ins :=
    ⟨_, Array.getElem?_eq_getElem h.running.cursor⟩
  have hcurrent : s.frame.current? m.module = some (f, ins) :=
    Frame.current?_eq_some.mpr ⟨h.running.func, hins⟩
  refine meets_step hcurrent ((perform_inOrder hm hknown h hins).mono ?_ fun _ => id)
  intro r s' hkept hr hspares
  cases hwrites : writes m.module ins with
  | true => exact (hkept hr).order (hspares f ins hcurrent hwrites)
  | false => exact (hkept hr).order ((hkept hr).spares hwrites)

/-! ### Runs -/

/-- Whether a step that writes spares the headers, as far as live activations up to a depth go. -/
def sparesWriting (depth : Nat) (m : Machine σ) (s : State σ) : Bool :=
  (m.next? s).all fun s' =>
    !(s.frame.current? m.module).any (writes m.module ·.2) || m.sparesTo depth s s'

theorem SparesOn.of_sparesWriting {depth : Nat} (h : sparesWriting depth m s = true)
    (hstep : m.step s = .ok none s') : SparesOn writes m s s' := by
  intro f ins hcurrent hwrites
  simp only [sparesWriting, next?_eq_some.mpr hstep, Option.all_some, hcurrent, Option.any_some,
    hwrites, Bool.not_true, Bool.false_or] at h
  exact .of_sparesTo h

/-- Code without instructions of the class spares the headers on them. -/
theorem SparesOn.of_absent {member : Ssa.Module → Ssa.Instruction → Bool}
    (h : ∀ f ∈ m.module.functions, ∀ ins ∈ f.instructions, member m.module ins = false) :
    SparesOn member m s s' := by
  intro f ins hcurrent hmember
  obtain ⟨hf, hins⟩ := Frame.current?_eq_some.mp hcurrent
  have habsent := h f (Array.mem_of_getElem? hf) ins (Array.mem_of_getElem? hins)
  rw [hmember] at habsent
  cases habsent

theorem Started.inOrder (hm : Loaded m) {id : Ssa.FuncId} {args : List UInt64}
    (hf : m.module.functions[id.index]? = some f) (hbody : f.foreign = none)
    (h : Started m s id f args s') : InOrder m s' := ⟨f, [], (h.runs hm hf hbody).2, h.caller⟩

/-- A run of a native function ends in no fault but its own. -/
theorem executeNative_fault (hknown : m.module.Known m.types) {id : Ssa.FuncId}
    (hf : m.module.functions[id.index]? = some f) {args : List UInt64} {fault : Fault}
    (h : (m.executeNative id f args s).1 = .faulted fault) : fault.isLimit = true := by
  have hmeets : (m.nativeEntry args f.values.toList >>= m.callNative id f).Meets s (fun _ _ => True)
      (fun fault => fault.isLimit = true) := by
    refine .bind (meets_nativeEntry (fun t ht => ?_) fun words => ?_)
    · exact ((hknown _ f hf).values t (by simpa using ht)).info
    · refine meets_callNative (fun _ => rfl) (fun _ => rfl) (fun t ht => ?_) fun _ _ _ _ _ =>
        trivial
      exact ((hknown _ f hf).ret t ht).info
  unfold executeNative at h
  unfold Action.Meets at hmeets
  split at h
  next => simp at h
  next fault' s' hrun =>
    rw [hrun] at hmeets
    obtain rfl : fault' = fault := by simpa using h
    exact hmeets

end

end MicroCompiler.Machine

/-! ### Sessions -/

namespace MicroCompiler

variable {σ : Type}

namespace Session

open Machine

/-- The code of a proper script is fit to run. -/
theorem loaded {steps : List Ssa.Step} {b : Ssa.Builder}
    (hbuild : Ssa.Step.runAll .initial steps = .ok b)
    (hwellFormed : ∀ f ∈ b.module.functions, f.isWellFormed = true) {e : Environment σ}
    (hmodule : e.module = b.module) (htypes : e.types = b.types) {base : UInt64}
    (hstack : e.limits.stackSize.toNat < Frame.noCaller.toNat) :
    Loaded (e.machine base) := by
  have hsound := Ssa.Step.runAll_sound hbuild
  refine ⟨?_, ?_, ?_, ?_, hstack⟩
  · simpa [Environment.machine, htypes] using hsound.types
  · simpa [Environment.machine, hmodule] using hsound.size
  · intro k f hf
    simp only [Environment.machine, hmodule, htypes] at hf ⊢
    exact hsound.functions k f hf
  · intro k f hf
    simp only [Environment.machine, hmodule] at hf
    exact hwellFormed f (Array.mem_of_getElem? hf)

section

variable {steps : List Ssa.Step} {b : Ssa.Builder} {library : Native.Library σ} {limits : Limits}
  {id : Ssa.FuncId} {f : Ssa.Function} {args : List UInt64} {session : Session σ} {m : Machine σ}
  {s : State σ} {g : Unit}

/-- Where stores and native calls spared the headers so far, the activations are in order. -/
theorem Arrives.inOrder (hbuild : Ssa.Step.runAll .initial steps = .ok b)
    (hproper : Ssa.Step.allProper .initial steps = true)
    (hwellFormed : ∀ f ∈ b.module.functions, f.isWellFormed = true) (hf : b.module.get id = .ok f)
    (h : session.Arrives .empty (SparesOn writes) ⟨b.module, b.types, library, limits⟩ id f args m s
      g) : Loaded m ∧ m.module.Known m.types ∧ InOrder m s := by
  obtain ⟨first, hentry⟩ := h.entry
  obtain ⟨hcount, hlocal, hfits, base, taken, -, rfl, hstart⟩ := entry?_eq_some.mp hentry
  have hm : Loaded (Environment.machine ⟨b.module, b.types, library, limits⟩ base) :=
    loaded hbuild hwellFormed rfl rfl hfits
  have hknown := Ssa.Step.runAll_known hbuild hproper
  refine ⟨hm, hknown, ?_⟩
  clear hentry hstart
  induction h with
  | start hentry =>
    obtain ⟨-, -, -, _, _, -, -, hstart⟩ := entry?_eq_some.mp hentry
    have hlookup : b.module.functions[id.index]? = some f := fetch_eq_ok.mp (mapError_eq_ok.mp hf)
    have hbody : f.foreign = none := by simpa [Ssa.Function.isExternal] using hlocal
    have hmeets := hm.meets_start (s := session.state) hlookup hbody hcount
    simp only [Action.Meets, hstart] at hmeets
    exact hmeets.inOrder hm hlookup hbody
  | step _ hstep hspares ih =>
    have hmeets := step_inOrder hm hknown ih
    simp only [Action.Meets, hstep] at hmeets
    exact hmeets trivial hspares

end

/-- Progress. Consider a run of code that a builder made from good ids, in well-formed functions. At
every state up to which all stores and native calls changed, on the stack, only locals of live
activations and the running header, the next step ends in no fault but a limit, a division by zero
or a fault of native code. So does the whole run if all its stores and native calls are such.
Besides, its arithmetic instructions all are of the class of their type. -/
theorem run_fault_isLimit {steps : List Ssa.Step} {b : Ssa.Builder}
    (hbuild : Ssa.Step.runAll .initial steps = .ok b)
    (hproper : Ssa.Step.allProper .initial steps = true)
    (hwellFormed : ∀ f ∈ b.module.functions, f.isWellFormed = true) (library : Native.Library σ)
    (limits : Limits) {id : Ssa.FuncId} {f : Ssa.Function} (hf : b.module.get id = .ok f)
    {args : List UInt64} (hargs : args.length = f.argCount) (session : Session σ) :
    (∀ m s fault s', session.Arrives .empty (SparesOn writes)
        ⟨b.module, b.types, library, limits⟩ id f args m s () →
      m.step s = .error fault s' → fault.isLimit = true) ∧
    ((∀ m s s', session.Arrives .empty (SparesOn writes)
        ⟨b.module, b.types, library, limits⟩ id f args m s () →
      m.step s = .ok none s' → SparesOn writes m s s') →
      ∀ count fault after,
        run ⟨b.module, b.types, library, limits⟩ count id args session = (.faulted fault, after) →
        fault.isLimit = true) ∧
    ∀ g ∈ b.module.functions, ∀ op r x y, .binary op r x y ∈ g.instructions →
      ∃ t info, g.valueType r = .ok t ∧ b.types.info t = .ok info ∧
        (if op.isFloat then info.isFloat else info.isInt) = true := by
  have hlookup : b.module.functions[id.index]? = some f := fetch_eq_ok.mp (mapError_eq_ok.mp hf)
  have hstep : ∀ m s fault s', session.Arrives .empty (SparesOn writes)
      ⟨b.module, b.types, library, limits⟩ id f args m s () →
      m.step s = .error fault s' → fault.isLimit = true := by
    intro m s fault s' harrives hfault
    obtain ⟨hm, hknown, horder⟩ := harrives.inOrder hbuild hproper hwellFormed hf
    have hmeets := step_inOrder hm hknown horder
    simpa only [Action.Meets, hfault] using hmeets
  refine ⟨hstep, ?_, ?_⟩
  · intro hspares count fault after hrun
    have hfault := congrArg Prod.fst hrun
    cases hforeign : f.foreign with
    | some foreign =>
      have hnative : f.isExternal = true := by simp [Ssa.Function.isExternal, hforeign]
      simp only [run, hf, hargs, ne_eq, not_true_eq_false, if_false, hnative, if_true] at hfault
      exact executeNative_fault (m := ⟨⟨b.module, b.types, library, limits⟩, ⟨0, 0⟩⟩)
        (Ssa.Step.runAll_known hbuild hproper) hlookup hfault
    | none =>
      rcases run_ends (e := ⟨b.module, b.types, library, limits⟩) Ghost.empty hf hforeign hargs
        session count with ⟨m, s, g, harrives, hends⟩ | ⟨fault', hfault', hcause⟩
      · rw [hfault] at hends
        obtain ⟨s', hends⟩ := hends
        exact hstep m s fault s' (harrives.strengthen fun m t _ t' => hspares m t t') hends
      · obtain rfl : fault' = fault := by simpa using hfault'.symm.trans hfault
        rcases hcause with ⟨error, arena, hfull, rfl⟩ | rfl | ⟨hfits, base, after, hstart⟩
        · obtain ⟨_, _, _, _, rfl⟩ := Arena.alloc_error hfull
          rfl
        · rfl
        · have hm : Loaded (Environment.machine ⟨b.module, b.types, library, limits⟩ base) :=
            loaded hbuild hwellFormed rfl rfl hfits
          have hmeets := hm.meets_start (s := session.state) hlookup hforeign hargs
          simp only [Action.Meets, hstart] at hmeets
          exact Fault.isLimit_of_isExhaustion hmeets
  · intro g hg op r x y hins
    obtain ⟨k, hk⟩ := Array.getElem?_of_mem hg
    obtain ⟨i, hi⟩ := Array.getElem?_of_mem hins
    obtain ⟨t, info, hr, -, -, hinfo, hclass⟩ :=
      ((Ssa.Step.runAll_sound hbuild).functions k g hk).typed i _ hi
    exact ⟨t, info, Ssa.Function.valueType_eq_ok.mpr hr, TypeTable.info_eq_ok.mpr hinfo, hclass⟩

/-- Three functions: `main` stores 7 in a local, `clear` has the native `memset` set that local to
zero and returns, and `main` divides by what it then loads. -/
def clearSteps : List Ssa.Step :=
  [.foreign "memset" none [.named "*u8", .named "i32", .named "u64"] (some (.named "*u8")) false,
    .function "clear" [.named "*u8"] none, .constant (.named "i32") 0, .constant (.named "u64") 1,
    .call ⟨0⟩ [⟨0⟩, ⟨1⟩, ⟨2⟩], .retVoid,
    .function "main" [] (some (.named "u8")), .alloca (.named "u8"), .constant (.named "u8") 7,
    .store ⟨0⟩ ⟨1⟩, .call ⟨1⟩ [⟨0⟩], .load ⟨0⟩, .binary (.int .udiv) ⟨1⟩ ⟨2⟩, .ret ⟨3⟩]

/-- A local that a store and a native call write to is loaded after a return, and the division by it
faults. -/
theorem run_fault_isLimit_clear :
    ∃ b f fault after, Ssa.Step.runAll .initial clearSteps = .ok b ∧ b.module.get ⟨2⟩ = .ok f ∧
      (∀ m s s', blank.Arrives .empty (SparesOn writes)
          ⟨b.module, b.types, Native.Standard.library, ⟨64, 64⟩⟩ ⟨2⟩ f [] m s () →
        m.step s = .ok none s' → SparesOn writes m s s') ∧
      run ⟨b.module, b.types, Native.Standard.library, ⟨64, 64⟩⟩ 20 ⟨2⟩ [] blank =
        (.faulted fault, after) ∧ fault = .divisionByZero "main" ∧ fault.isLimit = true := by
  have hcheck : builds clearSteps 2 (fun b f =>
      b.module.functions.all (·.isWellFormed) &&
      passes ⟨b.module, b.types, Native.Standard.library, ⟨64, 64⟩⟩ .empty
        (fun m s _ => sparesWriting 1 m s) 20 ⟨2⟩ f [] blank &&
      (run ⟨b.module, b.types, Native.Standard.library, ⟨64, 64⟩⟩ 20 ⟨2⟩ [] blank).1 ==
        .faulted (.divisionByZero "main")) = true := by decide +kernel
  have hproper : Ssa.Step.allProper .initial clearSteps = true := by decide +kernel
  obtain ⟨b, f, hbuild, hf, hcount, -, hchecks⟩ := exists_of_builds hcheck
  simp only [Bool.and_eq_true, Array.all_eq_true_iff_forall_mem, beq_iff_eq] at hchecks
  obtain ⟨⟨hwellFormed, hpasses⟩, hending⟩ := hchecks
  have hspares : ∀ m s s', blank.Arrives .empty (SparesOn writes)
      ⟨b.module, b.types, Native.Standard.library, ⟨64, 64⟩⟩ ⟨2⟩ f [] m s () →
      m.step s = .ok none s' → SparesOn writes m s s' :=
    fun m s s' harrives hstep => .of_sparesWriting (harrives.of_passes hpasses) hstep
  have hargs : ([] : List UInt64).length = f.argCount := by rw [hcount]; rfl
  have hlimit := (run_fault_isLimit hbuild hproper hwellFormed Native.Standard.library ⟨64, 64⟩ hf
    hargs blank).2.1 hspares
  exact ⟨b, f, _, _, hbuild, hf, hspares, Prod.ext hending rfl, rfl,
    hlimit 20 _ _ (Prod.ext hending rfl)⟩

/-- Four functions: `main` passes the address of a local of one byte on to `inner`, by way of `mid`.
There the native `memset` sets 24 bytes from that address on, so the saved header of `mid` too. -/
def floodSteps : List Ssa.Step :=
  [.foreign "memset" none [.named "*u8", .named "i32", .named "u64"] (some (.named "*u8")) false,
    .function "inner" [.named "*u8"] none, .constant (.named "i32") 255, .constant (.named "u64")
    24, .call ⟨0⟩ [⟨0⟩, ⟨1⟩, ⟨2⟩], .retVoid,
    .function "mid" [.named "*u8"] none, .call ⟨1⟩ [⟨0⟩], .retVoid,
    .function "main" [] (some (.named "u64")), .alloca (.named "u8"), .call ⟨2⟩ [⟨0⟩],
    .constant (.named "u64") 7, .ret ⟨1⟩]

/-- It does not suffice that stores spare the headers: in code without any store, native code writes
over one, and the return to it looks for a function that is not there. -/
theorem native_write_breaks_progress :
    ¬ ∀ (steps : List Ssa.Step) (b : Ssa.Builder) (library : Native.Library Unit) (limits : Limits)
      (id : Ssa.FuncId) (f : Ssa.Function) (args : List UInt64) (session : Session Unit),
      Ssa.Step.runAll .initial steps = .ok b → Ssa.Step.allProper .initial steps = true →
      (∀ f ∈ b.module.functions, f.isWellFormed = true) → b.module.get id = .ok f →
      args.length = f.argCount →
      (∀ m s s', session.Arrives .empty (SparesOn fun _ => stores)
          ⟨b.module, b.types, library, limits⟩ id f args m s () →
        m.step s = .ok none s' → SparesOn (fun _ => stores) m s s') →
      ∀ count fault after,
        run ⟨b.module, b.types, library, limits⟩ count id args session = (.faulted fault, after) →
        fault.isLimit = true := by
  intro hall
  have hcheck : builds floodSteps 3 (fun b _ =>
      b.module.functions.all (fun f => f.isWellFormed && f.instructions.all (!stores ·)) &&
      (run ⟨b.module, b.types, Native.Standard.library, ⟨64, 64⟩⟩ 20 ⟨3⟩ [] blank).1 ==
        .faulted (.code (.bounds (.index 4 4294967295)))) = true := by decide +kernel
  have hproper : Ssa.Step.allProper .initial floodSteps = true := by decide +kernel
  obtain ⟨b, f, hbuild, hf, hcount, -, hchecks⟩ := exists_of_builds hcheck
  simp only [Bool.and_eq_true, Array.all_eq_true_iff_forall_mem, beq_iff_eq] at hchecks
  obtain ⟨hfunctions, hending⟩ := hchecks
  have hfault := hall floodSteps b Native.Standard.library ⟨64, 64⟩ ⟨3⟩ f [] blank hbuild hproper
    (fun g hg => (hfunctions g hg).1) hf (by rw [hcount]; rfl) ?_ 20 _ _ (Prod.ext hending rfl)
  · cases hfault
  · intro m s s' harrives _
    refine .of_absent ?_
    rw [harrives.machine.1]
    exact fun g hg ins hins => by simpa using (hfunctions g hg).2 ins hins

end Session

end MicroCompiler
