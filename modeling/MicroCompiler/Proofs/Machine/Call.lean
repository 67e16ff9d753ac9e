import MicroCompiler.Proofs.Machine.Action

/-! Entering and leaving activations. What a call, a return and the start of a run do to the state
is said once, as a relation or a function of the state before; the limits on registers and stack
bytes are the only faults. -/

namespace MicroCompiler.Machine

variable {σ : Type} {m : Machine σ} {s : State σ} {allowed : Fault → Prop}

/-- The run is out of registers or of stack bytes. -/
def Fault.isExhaustion : Fault → Bool
  | .stackOverflow _ _ _ | .registerOverflow _ _ | .offsetTooLarge _ => true
  | _ => false

/-! ### The layout of locals -/

theorem meets_allocStack {f : Ssa.Function} {post : Unit → State σ → Prop}
    (hlimit : ∀ fault : Fault, fault.isExhaustion = true → allowed fault) (htypes : m.types.Sound)
    (hf : f.Sound m.types m.module) (hoffset : s.frame.stackOffset.toNat ≤ m.stack.size)
    (hwindow : s.frame.base.toNat + f.values.size ≤ s.registers.size)
    (h : ∀ (registers : Array UInt64) (stackOffset : UInt32), registers.size = s.registers.size →
      (∀ k : Nat, (∀ l ∈ f.locals, s.frame.base.toNat + l.value.index ≠ k) →
        registers[k]? = s.registers[k]?) →
      (∀ p ∈ layout m.types s.frame.stackOffset.toNat f.locals.toList,
        registers[s.frame.base.toNat + p.value.index]? = some (m.stack.address p.start)) →
      stackOffset.toNat = layoutEnd m.types s.frame.stackOffset.toNat f.locals.toList →
      stackOffset.toNat ≤ m.stack.size →
      post () { s with registers, frame := { s.frame with stackOffset } }) :
    (m.allocStack f).Meets s post allowed := by
  refine .bind (meets_frame (.bind (meets_layOut (fun _ _ _ => hlimit _ rfl) hoffset
    ?_ ?_ hf.apart ?_)))
  · intro l hl
    obtain ⟨-, pointer, -, hpointer⟩ := hf.locals l (by simpa using hl)
    exact (htypes.pointee_registered hpointer).info
  · intro l hl
    obtain ⟨-, pointer, hvalue, -⟩ := hf.locals l (by simpa using hl)
    have hlt := (Array.getElem?_eq_some_iff.mp hvalue).1
    unfold State.Holds
    omega
  · intro registers hsize hkept hplaces hend
    refine .bind (meets_headerWord (fun _ => hlimit _ rfl) fun stackOffset hstackOffset => ?_)
    exact h registers stackOffset hsize (by simpa using hkept) hplaces hstackOffset (by omega)

/-! ### Calls -/

/-- The state `s'` is at the beginning of an activation of `callee` that a call in `f` began in the
state `s`. -/
structure Entered (m : Machine σ) (s : State σ) (f : Ssa.Function) (id : Ssa.FuncId)
    (callee : Ssa.Function) (args : List Ssa.ValueId) (s' : State σ) : Prop where
  func : s'.frame.func = id.index.toUInt32
  base : s'.frame.base.toNat = s.frame.base.toNat + f.values.size + 1
  cursor : ∃ e, callee.blocks[0]? = some (some e) ∧ s'.frame.cursor = e.offset.toUInt32
  caller : s'.frame.caller.toNat = s.frameAt
  frameAt : s'.frameAt = Stack.alignUp s.frame.stackOffset.toNat Frame.align
  stackOffset : s'.frame.stackOffset.toNat = s'.frameAt + Frame.size
  fits : s'.frameAt + Frame.size ≤ m.stack.size
  /-- The header of the caller is on the stack. -/
  memory : s'.memory = m.stack.writeFrame s.memory s.frameAt s.frame
  grown : s.registers.size ≤ s'.registers.size
  window : s'.frame.base.toNat + callee.values.size ≤ s'.registers.size
  kept : ∀ k ≤ s.frame.base.toNat + f.values.size, k < s.registers.size →
    s'.registers[k]? = s.registers[k]?
  args : ∀ (j : Nat) v, args[j]? = some v →
    s'.registers[s'.frame.base.toNat + j]? = some (s.value v)

/-- A function with a body takes exactly its declared arguments, so they are values of the
caller. -/
theorem meets_enter {f callee : Ssa.Function} {id : Ssa.FuncId} {args : List Ssa.ValueId}
    {argc : Nat} {post : Unit → State σ → Prop}
    (hlimit : ∀ fault : Fault, fault.isExhaustion = true → allowed fault)
    (hwindow : s.frame.base.toNat + f.values.size ≤ s.registers.size)
    (hheader : s.frameAt + Frame.size ≤ m.stack.size) (hsound : callee.Sound m.types m.module)
    (hbody : callee.foreign = none) (hlength : args.length = argc)
    (hcount : if callee.isVariadic then callee.argCount ≤ argc else argc = callee.argCount)
    (htyped : ∀ j < callee.argCount, ∃ v t, args[j]? = some v ∧ callee.values[j]? = some t ∧
      f.values[v.index]? = some t) (h : ∀ s', Entered m s f id callee args s' → post () s') :
    (m.enter f id callee args).Meets s post allowed := by
  have hexact : args.length = callee.argCount := by
    simpa [Ssa.Function.isVariadic, hbody, hlength] using hcount
  have hargs : ∀ v ∈ args, v.index < f.values.size := by
    intro v hv
    obtain ⟨j, hj⟩ := List.getElem?_of_mem hv
    have hlt := (List.getElem?_eq_some_iff.mp hj).1
    obtain ⟨u, t, hu, -, ht⟩ := htyped j (by omega)
    obtain rfl : v = u := Option.some.inj (hj.symm.trans hu)
    exact (Array.getElem?_eq_some_iff.mp ht).1
  have hdeclared := hsound.args
  obtain ⟨n, hentry⟩ := (hsound.body hbody).entry
  obtain ⟨hgrown, hsize⟩ := size_padded s.registers (s.frame.base.toNat + f.values.size + 1 +
    callee.values.size)
  refine .bind (meets_frame (.bind (meets_growRegisters (fun _ _ => hlimit _ rfl) (.bind ?_))))
  refine meets_passArguments (fun v hv => ?_) (Nat.le_trans (by omega) hsize) ?_
  · have hlt := hargs v hv
    simp only
    omega
  intro registers hregisters hkept hpassed
  simp only at hregisters
  refine .bind (show Action.Meets _ _ _ _ from .bind (meets_saveFrame hheader (.bind ?_)))
  refine meets_reserve (fun _ _ _ => hlimit _ rfl) fun hfits => .bind ?_
  refine meets_headerWord (fun _ => hlimit _ rfl) fun base hbase => .bind ?_
  refine meets_headerWord (fun _ => hlimit _ rfl) fun stackOffset hstackOffset => .bind ?_
  refine meets_entryOf hentry (.bind ?_)
  refine meets_headerWord (fun _ => hlimit _ rfl) fun caller hcaller => ?_
  refine h _ ⟨rfl, hbase, ⟨_, hentry, rfl⟩, hcaller, rfl, hstackOffset, hfits, rfl, ?_, ?_, ?_, ?_⟩
  · simp only
    omega
  · simp only
    omega
  · intro k hk hlt
    rw [hkept k (by omega)]
    exact Array.getElem?_append_left hlt
  · intro j v hv
    simp only
    have hlt := hargs v (List.mem_of_getElem? hv)
    rw [hbase, hpassed j v hv]
    simp only [State.value, Array.getD_eq_getD_getElem?, padded]
    rw [Array.getElem?_append_left (by omega)]

/-- The callee lies above the locals of its caller. -/
theorem Entered.above {s' : State σ} {f callee : Ssa.Function} {id : Ssa.FuncId}
    {args : List Ssa.ValueId} (h : Entered m s f id callee args s') :
    s.frame.stackOffset.toNat ≤ s'.frameAt := by
  rw [h.frameAt]
  exact le_alignUp _ (by decide)

/-! ### Returns -/

namespace State

/-- A caller with the header `c` runs again, and finds `word` above its registers. -/
def back (s : State σ) (c : Frame) (word : UInt64) : State σ :=
  { s with
    registers := s.registers.setIfInBounds (s.frame.base.toNat - 1) word
    frame := c
    frameAt := s.frame.caller.toNat }

/-- The state after a return of `word` to a caller whose header is `c`, into the value `r` if there
is one. -/
def returned (s : State σ) (c : Frame) (r : Option Ssa.ValueId) (word : UInt64) : State σ :=
  match r with
  | some v => ((s.back c word).assign v word).next
  | none => (s.back c word).next

section

variable (s : State σ) (c : Frame) (r : Option Ssa.ValueId) (word : UInt64)

@[simp] theorem returned_frame :
    (s.returned c r word).frame = { c with cursor := c.cursor + 1 } := by
  cases r <;> rfl

@[simp] theorem returned_frameAt :
    (s.returned c r word).frameAt = s.frame.caller.toNat := by cases r <;> rfl

@[simp] theorem returned_memory : (s.returned c r word).memory = s.memory := by cases r <;> rfl

@[simp] theorem returned_size : (s.returned c r word).registers.size = s.registers.size := by
  cases r <;> simp [returned, back, next, goTo, assign]

end

end State

theorem base_sub_one {base : UInt32} (h : 1 ≤ base.toNat) :
    (base.toUInt64 - 1).toNat = base.toNat - 1 := by
  have hone : (1 : UInt64) ≤ base.toUInt64 := by
    rw [UInt64.le_iff_toNat_le]
    simpa using h
  rw [UInt64.toNat_sub_of_le _ _ hone]
  simp

theorem meets_leave_last {word : UInt64} {post : Option UInt64 → State σ → Prop}
    (hbase : 1 ≤ s.frame.base.toNat) (hwindow : s.frame.base.toNat ≤ s.registers.size)
    (hcaller : s.frame.caller = Frame.noCaller)
      (h : ∀ answer, (s.registers.setIfInBounds (s.frame.base.toNat - 1) word)[0]? = some answer →
        post (some answer)
      { s with registers := s.registers.setIfInBounds (s.frame.base.toNat - 1) word }) :
    (m.leave word).Meets s post allowed := by
  refine .bind (meets_frame (.bind ?_))
  rw [base_sub_one hbase]
  refine meets_setRegister (by omega) ?_
  have hlast : (!s.frame.hasCaller) = true := by simp [Frame.hasCaller, hcaller]
  rw [if_pos hlast]
  have hzero : 0 < (s.registers.setIfInBounds (s.frame.base.toNat - 1) word).size := by
    simp
    omega
  exact .bind (meets_getRegister (Array.getElem?_eq_getElem hzero)
    (.pure (h _ (Array.getElem?_eq_getElem hzero))))

theorem meets_leave_caller {word : UInt64} {post : Option UInt64 → State σ → Prop} {c : Frame}
    {g : Ssa.Function} {callee : Ssa.FuncId} {argc : Nat} {r : Option Ssa.ValueId}
    (hbase : 1 ≤ s.frame.base.toNat) (hwindow : s.frame.base.toNat ≤ s.registers.size)
    (hcaller : s.frame.caller ≠ Frame.noCaller)
    (hheader : s.frame.caller.toNat + Frame.size ≤ m.stack.size)
    (hframe : m.stack.readFrame s.memory s.frame.caller.toNat = c)
    (hg : m.module.functions[c.func.toNat]? = some g)
    (hcall : g.instructions[c.cursor.toNat]? = some (.call callee argc r))
    (hr : ∀ v ∈ r, c.base.toNat + v.index < s.registers.size)
    (h : post none (s.returned c r word)) : (m.leave word).Meets s post allowed := by
  refine .bind (meets_frame (.bind ?_))
  rw [base_sub_one hbase]
  refine meets_setRegister (by omega) ?_
  have hmore : ¬ (!s.frame.hasCaller) = true := by simp [Frame.hasCaller, hcaller]
  rw [if_neg hmore]
  refine .bind (meets_restoreFrame hheader (.bind (meets_frame (.bind ?_))))
  simp only [hframe]
  refine meets_checked (a := g) (mapError_eq_ok.mpr (fetch_eq_ok.mpr hg)) (.bind ?_)
  refine meets_checked (mapError_eq_ok.mpr (fetch_eq_ok.mpr hcall)) ?_
  cases r with
  | none => exact Action.Meets.bind (meets_advance (.pure h))
  | some v =>
    have hv := hr v rfl
    refine .bind (meets_setValue ?_ (.bind (meets_advance (.pure h))))
    simpa [State.Holds] using hv

/-! ### The first activation -/

/-- The state at the beginning of a run of `f`. -/
structure Started (m : Machine σ) (s : State σ) (id : Ssa.FuncId) (f : Ssa.Function)
    (args : List UInt64) (s' : State σ) : Prop where
  func : s'.frame.func = id.index.toUInt32
  base : s'.frame.base = 1
  cursor : ∃ e, f.blocks[0]? = some (some e) ∧ s'.frame.cursor = e.offset.toUInt32
  caller : s'.frame.caller = Frame.noCaller
  frameAt : s'.frameAt = 0
  stackOffset : s'.frame.stackOffset.toNat = Frame.size
  fits : Frame.size ≤ m.stack.size
  memory : s'.memory = s.memory
  window : 1 + f.values.size ≤ s'.registers.size
  args : ∀ (j : Nat) word, args[j]? = some word → s'.registers[1 + j]? = some word

theorem meets_start {id : Ssa.FuncId} {f : Ssa.Function} {args : List UInt64} {e : Ssa.Extent}
    {post : Unit → State σ → Prop} (hlimit : ∀ fault : Fault, fault.isExhaustion = true →
      allowed fault)
    (hcount : args.length ≤ f.values.size) (hentry : f.blocks[0]? = some (some e))
    (h : ∀ s', Started m s id f args s' → post () s') :
    (m.start id f args).Meets s post allowed := by
  obtain ⟨-, hsize⟩ := size_padded s.registers (1 + f.values.size)
  refine .bind (meets_growRegisters (fun _ _ => hlimit _ rfl) (.bind ?_))
  refine meets_placeArguments (by simp only; omega) ?_
  intro registers hregisters _ hplaced
  simp only at hregisters
  refine .bind (meets_reserve (fun _ _ _ => hlimit _ rfl) fun hfits => .bind ?_)
  refine meets_headerWord (fun _ => hlimit _ rfl) fun stackOffset hstackOffset => .bind ?_
  refine meets_entryOf hentry ?_
  have hzero : Stack.alignUp 0 Frame.align = 0 := rfl
  rw [hzero] at hfits hstackOffset
  refine h _ ⟨rfl, rfl, ⟨e, hentry, rfl⟩, rfl, rfl, ?_, ?_, rfl, ?_, hplaced⟩
  · simpa using hstackOffset
  · simpa using hfits
  · simp only
    omega

end MicroCompiler.Machine
