import MicroCompiler.Proofs.Machine.Chain
import MicroCompiler.Proofs.Machine.Written

/-! Register form, step by step. If every operand was written before it is read, and nothing writes
over the saved header of a caller, then a step leaves every written value in the register form of
its type, and so is what it returns. The code need not be well formed. -/

namespace MicroCompiler.Machine

variable {σ : Type} {v : Ssa.ValueId}

/-! ### Activations -/

/-- Code that a builder made over registered types, on a stack whose offsets fit in a header. -/
structure Built (m : Machine σ) : Prop where
  types : m.types.Sound
  size : m.module.functions.size ≤ UInt32.size
  functions : ∀ (k : Nat) f, m.module.functions[k]? = some f → f.Sound m.types m.module
  values : ∀ (k : Nat) f, m.module.functions[k]? = some f → ∀ t ∈ f.values, m.types.Registered t
  results : ∀ (k : Nat) f, m.module.functions[k]? = some f → ∀ t ∈ f.ret, m.types.Registered t
  /-- The constants of the code are in register form. -/
  constants : ∀ (k : Nat) f, m.module.functions[k]? = some f → ∀ r word,
    .constant r word ∈ f.instructions → ∀ t, f.values[r.index]? = some t → InForm m.types t word
  stack : m.stack.size < Frame.noCaller.toNat

/-- An activation of `f` has its registers and its part of the stack, and what it has written is in
register form. -/
structure Activation.Formed (m : Machine σ) (registers : Array UInt64) (written : List Ssa.ValueId)
    (a : Activation) (f : Ssa.Function) : Prop where
  func : m.module.functions[a.frame.func.toNat]? = some f
  base : 1 ≤ a.frame.base.toNat
  window : a.frame.base.toNat + f.values.size ≤ registers.size
  low : a.offset + Frame.size ≤ a.frame.stackOffset.toNat
  high : a.frame.stackOffset.toNat ≤ m.stack.size
  form : ∀ v ∈ written, ∃ t word, f.values[v.index]? = some t ∧
    registers[a.frame.base.toNat + v.index]? = some word ∧ InForm m.types t word

namespace Activation.Formed

variable {m : Machine σ} {registers registers' : Array UInt64} {written : List Ssa.ValueId}
  {a : Activation} {f : Ssa.Function}

/-- Only the registers of the activation matter. -/
theorem keep (h : a.Formed m registers written f) (hsize : registers.size ≤ registers'.size)
    (hregisters : ∀ k < a.frame.base.toNat + f.values.size, registers'[k]? = registers[k]?) :
    a.Formed m registers' written f := by
  refine ⟨h.func, h.base, Nat.le_trans h.window hsize, h.low, h.high, ?_⟩
  intro v hv
  obtain ⟨t, word, ht, hword, hform⟩ := h.form v hv
  have hlt := (Array.getElem?_eq_some_iff.mp ht).1
  exact ⟨t, word, ht, by rw [hregisters _ (by omega), hword], hform⟩

/-- The position does not matter. -/
theorem goTo (h : a.Formed m registers written f) (cursor : UInt32) :
    Formed m registers written ⟨{ a.frame with cursor }, a.offset⟩ f :=
  ⟨h.func, h.base, h.window, h.low, h.high, h.form⟩

theorem assign (h : a.Formed m registers written f) {t : TypeId} {word : UInt64}
    (hv : f.values[v.index]? = some t) (hword : InForm m.types t word) :
    a.Formed m (registers.setIfInBounds (a.frame.base.toNat + v.index) word) (v :: written) f := by
  have hlt := (Array.getElem?_eq_some_iff.mp hv).1
  have hwindow := h.window
  have hself : (registers.setIfInBounds (a.frame.base.toNat + v.index) word)[a.frame.base.toNat +
      v.index]? = some word := by
    simp only [Array.getElem?_setIfInBounds_self]
    rw [if_pos (by omega)]
  refine ⟨h.func, h.base, by simpa using h.window, h.low, h.high, ?_⟩
  intro u hu
  by_cases heq : u.index = v.index
  · rw [heq]
    exact ⟨t, word, hv, hself, hword⟩
  · obtain ⟨t', word', ht', hword', hform⟩ : ∃ t' word', f.values[u.index]? = some t' ∧
        registers[a.frame.base.toNat + u.index]? = some word' ∧ InForm m.types t' word' := by
      rcases List.mem_cons.mp hu with rfl | hu
      · exact absurd rfl heq
      · exact h.form u hu
    refine ⟨t', word', ht', ?_, hform⟩
    rw [Array.getElem?_setIfInBounds, if_neg (by omega), hword']

end Activation.Formed

/-- The caller `c`, an activation of `g`, waits for the activation `a` of `f`. -/
structure Awaits (m : Machine σ) (memory : Memory) (registers : Array UInt64)
    (written : List Ssa.ValueId) (c : Activation) (g : Ssa.Function) (a : Activation)
    (f : Ssa.Function) : Prop where
  link : a.frame.caller.toNat = c.offset
  saved : m.stack.readFrame memory c.offset = c.frame
  below : c.frame.stackOffset.toNat ≤ a.offset
  base : a.frame.base.toNat = c.frame.base.toNat + g.values.size + 1
  formed : c.Formed m registers written g
  call : ∃ id argc r, g.instructions[c.frame.cursor.toNat]? = some (.call id argc r) ∧
    m.module.functions[id.index]? = some f

/-- The activation `a` of `f` has the callers of a history behind it, the last of all an activation
of `entry`. -/
def Backed (m : Machine σ) (entry : Ssa.Function) (memory : Memory) (registers : Array UInt64) :
    Activation → Ssa.Function → List Caller → Prop
  | a, f, [] => a.frame.caller = Frame.noCaller ∧ a.frame.base = 1 ∧ f = entry
  | a, f, c :: rest => ∃ frame g, Awaits m memory registers c.written ⟨frame, c.offset⟩ g a f ∧
      Backed m entry memory registers ⟨frame, c.offset⟩ g rest

namespace Backed

variable {m : Machine σ} {entry f : Ssa.Function} {memory memory' : Memory} {registers registers' :
  Array UInt64} {a a' : Activation} {callers : List Caller}

/-- The callers stay while their headers and the registers below the activation do. -/
theorem keep (h : Backed m entry memory registers a f callers)
    (hcaller : a'.frame.caller = a.frame.caller) (hbase : a'.frame.base = a.frame.base)
    (hoffset : a'.offset = a.offset) (hsize : registers.size ≤ registers'.size)
    (hregisters : ∀ k < a.frame.base.toNat - 1, registers'[k]? = registers[k]?)
    (hmemory : ∀ c ∈ callers, m.stack.readFrame memory' c.offset =
      m.stack.readFrame memory c.offset) :
    Backed m entry memory' registers' a' f callers := by
  induction callers generalizing a a' f with
  | nil =>
    obtain ⟨hnone, hone, hentry⟩ := h
    exact ⟨by rw [hcaller, hnone], by rw [hbase, hone], hentry⟩
  | cons c rest ih =>
    obtain ⟨frame, g, hawaits, hrest⟩ := h
    have hwindow := hawaits.base
    have hformed : Activation.Formed _ registers' _ _ _ :=
      hawaits.formed.keep hsize fun k hk => hregisters k (by omega)
    refine ⟨frame, g, ⟨by rw [hcaller, hawaits.link], ?_, by rw [hoffset]; exact hawaits.below, ?_,
      hformed, hawaits.call⟩, ih hrest rfl rfl rfl (fun k hk => hregisters k ?_) fun d hd =>
      hmemory d (List.mem_cons_of_mem c hd)⟩
    · rw [hmemory c (by simp), hawaits.saved]
    · rw [hbase, hawaits.base]
    · simp only at hk hwindow
      omega

/-- The headers of the callers lie below the activation and in the stack. -/
theorem header (h : Backed m entry memory registers a f callers) {c : Caller} (hc : c ∈ callers) :
    c.offset + Frame.size ≤ a.offset ∧ c.offset + Frame.size ≤ m.stack.size := by
  induction callers generalizing a f with
  | nil => simp at hc
  | cons d rest ih =>
    obtain ⟨frame, g, hawaits, hrest⟩ := h
    have hbelow := hawaits.below
    have hlow := hawaits.formed.low
    have hhigh := hawaits.formed.high
    simp only at hbelow hlow hhigh
    rcases List.mem_cons.mp hc with rfl | hc
    · omega
    · have hrest := ih hrest hc
      simp only at hrest
      omega

end Backed

/-- The running activation of `f` and its callers are as the history says, all of it in register
form. -/
structure Canonical (m : Machine σ) (entry : Ssa.Function) (s : State σ) (w : History)
    (f : Ssa.Function) : Prop where
  running : s.running.Formed m s.registers w.written f
  backed : Backed m entry s.memory s.registers s.running f w.callers

/-- What a step leaves: an answer in register form, or a state as the new history says, if the
headers of the callers are spared. -/
def After (m : Machine σ) (entry : Ssa.Function) (s : State σ) (w w' : History) :
    Option UInt64 → State σ → Prop
  | some word, _ => ∀ t ∈ entry.ret, InForm m.types t word
  | none, s' => w.Spared m s s' → ∃ g, Canonical m entry s' w' g

namespace Canonical

variable {m : Machine σ} {entry f : Ssa.Function} {s s' : State σ} {w : History}
  {allowed : Fault → Prop}

section

variable (h : Canonical m entry s w f)

include h

theorem holds (hv : v.index < f.values.size) : s.Holds v := by
  have hwindow := h.running.window
  simp only [State.running] at hwindow
  unfold State.Holds
  omega

theorem holds_of_type {t : TypeId} (hv : f.values[v.index]? = some t) :
    s.Holds v := h.holds (Array.getElem?_eq_some_iff.mp hv).1

/-- A written value has its type, and its word is in the form of that type. -/
theorem value (hv : v ∈ w.written) :
    ∃ t, f.values[v.index]? = some t ∧ InForm m.types t (s.value v) := by
  obtain ⟨t, word, ht, hword, hform⟩ := h.running.form v hv
  have hvalue := (h.holds_of_type ht).value
  obtain rfl : word = s.value v := Option.some.inj (hword.symm.trans hvalue)
  exact ⟨t, ht, hform⟩

/-- The running activation may move on, and memory may change if the headers stay. -/
theorem move {cursor : UInt32} (hframe : s'.frame = { s.frame with cursor })
    (hat : s'.frameAt = s.frameAt) (hregisters : s'.registers = s.registers)
    (hspared : w.Spared m s s') : Canonical m entry s' w f := by
  have hrunning : s'.running = ⟨{ s.running.frame with cursor }, s.running.offset⟩ := by
    simp only [State.running, hframe, hat]
  refine ⟨by rw [hrunning, hregisters]; exact h.running.goTo cursor, ?_⟩
  rw [hregisters]
  exact h.backed.keep (by rw [hrunning]) (by rw [hrunning]) (by rw [hrunning]) (Nat.le_refl _)
    (fun _ _ => rfl) hspared

theorem assign {t : TypeId} {word : UInt64} (hv : f.values[v.index]? = some t)
    (hword : InForm m.types t word) : Canonical m entry (s.assign v word) (w.define [v]) f := by
  refine ⟨h.running.assign hv hword, h.backed.keep rfl rfl rfl (by simp) (fun k hk => ?_) fun _ _ =>
    rfl⟩
  simp only [State.running] at hk
  rw [State.assign, Array.getElem?_setIfInBounds, if_neg (by omega)]

/-- An instruction that ends by defining a value. -/
theorem meets_define {t : TypeId} {word : UInt64} (hv : f.values[v.index]? = some t)
    (hword : InForm m.types t word) :
      ((do setValue v word; advance; pure none) : Action σ (Option UInt64)).Meets s
      (After m entry s w (w.define [v])) allowed := by
  refine .bind (meets_setValue (h.holds_of_type hv) (.bind (meets_advance (.pure fun _ =>
    ⟨f, ?_⟩))))
  exact (h.assign hv hword).move rfl rfl rfl fun _ _ => rfl

theorem sound (hm : Built m) : f.Sound m.types m.module := hm.functions _ f h.running.func

theorem header_fits : s.frameAt + Frame.size ≤ m.stack.size :=
  Nat.le_trans h.running.low h.running.high

end

section

variable (hm : Built m) (h : Canonical m entry s w f)

include hm h

/-- The layout writes addresses only. -/
theorem meets_allocStack : (m.allocStack f).Meets s
      (fun _ s' => Canonical m entry s' (w.define (f.locals.toList.map (·.value))) f) (fun _ =>
        True) := by
  have hf := h.sound hm
  have hlow := h.running.low
  have hwindow := h.running.window
  simp only [State.running] at hlow hwindow
  refine Machine.meets_allocStack (fun _ _ => trivial) hm.types hf h.running.high hwindow ?_
  intro registers stackOffset hsize hothers _ hend hfits
  have hgrown : s.frame.stackOffset.toNat ≤ stackOffset.toNat := by
    rw [hend]
    exact layout_bounds.1
  -- A local's register holds some address; every other register is as it was.
  have hlocal : ∀ l ∈ f.locals, ∃ t word, f.values[l.value.index]? = some t ∧
      registers[s.frame.base.toNat + l.value.index]? = some word ∧ InForm m.types t word := by
    intro l hl
    obtain ⟨-, pointer, hvalue, hpointer⟩ := hf.locals l hl
    have hlt := (Array.getElem?_eq_some_iff.mp hvalue).1
    exact ⟨pointer, _, hvalue, Array.getElem?_eq_getElem (by omega), inForm_pointer hpointer _⟩
  refine ⟨⟨h.running.func, h.running.base, by simpa [State.running, hsize] using hwindow,
    Nat.le_trans hlow hgrown, hfits, ?_⟩, h.backed.keep rfl rfl rfl (Nat.le_of_eq hsize.symm)
    (fun k hk => ?_) fun _ _ => rfl⟩
  · intro v hv
    by_cases hslot : ∃ l ∈ f.locals, l.value.index = v.index
    · obtain ⟨l, hl, hindex⟩ := hslot
      rw [← hindex]
      exact hlocal l hl
    · have hold : v ∈ w.written := by
        rcases List.mem_append.mp hv with hv | hv
        · obtain ⟨l, hl, rfl⟩ := List.mem_map.mp hv
          exact absurd ⟨l, by simpa using hl, rfl⟩ hslot
        · exact hv
      obtain ⟨t, word, ht, hword, hform⟩ := h.running.form v hold
      refine ⟨t, word, ht, ?_, hform⟩
      rw [← hword]
      refine hothers _ fun l hl heq => hslot ⟨l, hl, ?_⟩
      simp only [State.running] at heq
      omega
  · simp only [State.running] at hk
    exact hothers k fun l _ => by omega

/-- The arguments of a callee have the types and the form of what is passed. -/
theorem entered {id : Ssa.FuncId} {callee : Ssa.Function}
    {args : List Ssa.ValueId} {argc : Nat} {r : Option Ssa.ValueId}
    (hins : f.instructions[s.frame.cursor.toNat]? = some (.call id argc r))
    (hcallee : m.module.functions[id.index]? = some callee) (hwritten : ∀ v ∈ args, v ∈ w.written)
    (hargs : ∀ j < callee.argCount, ∃ v t, args[j]? = some v ∧ callee.values[j]? = some t ∧
      f.values[v.index]? = some t) (hentered : Entered m s f id callee args s') :
    Canonical m entry s' (.entry callee (⟨s.frameAt, w.written⟩ :: w.callers)) callee := by
  have hheader := h.header_fits
  have hstack := hm.stack
  have hnone : Frame.noCaller.toNat < UInt32.size := by decide
  have hwindow := h.running.window
  have hbase := hentered.base
  simp only [State.running] at hwindow
  have hfunc := func_toNat hm.size hcallee hentered.func
  have hbelow : ∀ k < s.frame.base.toNat + f.values.size, s'.registers[k]? = s.registers[k]? :=
    fun k hk => hentered.kept k (by omega) (by omega)
  refine ⟨⟨?_, ?_, hentered.window, ?_, ?_, ?_⟩, s.frame, f, ⟨hentered.caller, ?_, hentered.above,
    hbase, ?_, id, argc, r, hins, hcallee⟩, h.backed.keep rfl rfl rfl hentered.grown (fun k hk =>
    hbelow k ?_) fun c hc => ?_⟩
  · simpa only [State.running, hfunc] using hcallee
  · simp only [State.running]
    omega
  · exact Nat.le_of_eq hentered.stackOffset.symm
  · simpa only [State.running, hentered.stackOffset] using hentered.fits
  · intro v hv
    obtain ⟨j, hj, rfl⟩ := List.mem_map.mp hv
    obtain ⟨u, t, hu, ht, hut⟩ := hargs j (List.mem_range.mp hj)
    obtain ⟨t', ht', hform⟩ := h.value (hwritten u (List.mem_of_getElem? hu))
    obtain rfl : t = t' := Option.some.inj (hut.symm.trans ht')
    exact ⟨t, s.value u, ht, hentered.args j u hu, hform⟩
  · rw [hentered.memory]
    exact Stack.readFrame_writeFrame _ _ _ _
  · exact h.running.keep hentered.grown hbelow
  · simp only [State.running] at hk
    omega
  · obtain ⟨hunder, hfits⟩ := h.backed.header hc
    simp only [State.running] at hunder
    rw [hentered.memory]
    apply Stack.readFrame_writeFrame_apart
    · omega
    · omega
    · omega

/-- What an activation returns is in the form of its result, if it has one; so is what its caller
gets. -/
theorem meets_leave {word : UInt64}
    (hword : ∀ t ∈ f.ret, InForm m.types t word) {ins : Ssa.Instruction}
    (hins : ins = .retVoid ∨ ∃ v, ins = .ret v) :
    (m.leave word).Meets s (After m entry s w (w.perform m s f ins)) (fun _ => True) := by
  have hbase : 1 ≤ s.frame.base.toNat := h.running.base
  have hsize : s.frame.base.toNat ≤ s.registers.size :=
    Nat.le_trans (Nat.le_add_right _ _) h.running.window
  have hperform : w.perform m s f ins = w.perform m s f .retVoid := by
    rcases hins with rfl | ⟨v, rfl⟩ <;> rfl
  rw [hperform]
  cases hcallers : w.callers with
  | nil =>
    have hbacked := h.backed
    rw [hcallers] at hbacked
    obtain ⟨hnone, hone, rfl⟩ := hbacked
    refine meets_leave_last hbase hsize hnone ?_
    intro answer hanswer
    simp only [State.running] at hone
    have hfirst : s.frame.base.toNat - 1 = 0 := by rw [hone]; rfl
    rw [hfirst, Array.getElem?_setIfInBounds_self, if_pos (by omega)] at hanswer
    obtain rfl : word = answer := by simpa using hanswer
    exact hword
  | cons c rest =>
    have hbacked := h.backed
    rw [hcallers] at hbacked
    obtain ⟨frame, g, hawaits, hrest⟩ := hbacked
    obtain ⟨id, argc, r, hcall, hf⟩ := hawaits.call
    have hlink : s.frame.caller.toNat = c.offset := hawaits.link
    have hfits : c.offset + Frame.size ≤ m.stack.size := Nat.le_trans hawaits.formed.low
      hawaits.formed.high
    have hnone : s.frame.caller ≠ Frame.noCaller := by
      intro heq
      have hstack := hm.stack
      rw [← heq, hlink] at hstack
      omega
    have hframe : m.stack.readFrame s.memory s.frame.caller.toNat = frame := by
      rw [hlink]; exact hawaits.saved
    have hg := hm.functions _ g hawaits.formed.func
    -- The call defines a value of the type that the callee returns.
    have hresult : ∀ v ∈ r, ∃ t, g.values[v.index]? = some t ∧ InForm m.types t word := by
      intro v hv
      obtain ⟨target, _, htarget, -, -, -, -, hret⟩ := hg.typed _ _ hcall
      obtain rfl : target = f := Option.some.inj (htarget.symm.trans hf)
      rw [hv] at hret
      cases hsome : target.ret with
      | none => simp [hsome] at hret
      | some t => exact ⟨t, by simpa [hsome] using hret, hword t hsome⟩
    have hcwindow := hawaits.formed.window
    have hapart := hawaits.base
    simp only [State.running] at hcwindow hapart
    have hback : Canonical m entry (s.back frame word) ⟨c.written, rest⟩ g := by
      have hkept : ∀ k < frame.base.toNat + g.values.size, (s.back frame word).registers[k]? =
          s.registers[k]? := by
        intro k hk
        rw [State.back, Array.getElem?_setIfInBounds, if_neg (by omega)]
      have hrunning : (s.back frame word).running = ⟨frame, c.offset⟩ := by
        simp only [State.running, State.back, hlink]
      have hgrown : s.registers.size ≤ (s.back frame word).registers.size := by simp [State.back]
      refine ⟨by rw [hrunning]; exact hawaits.formed.keep hgrown hkept, ?_⟩
      rw [hrunning]
      exact hrest.keep rfl rfl rfl hgrown (fun k hk => hkept k (by simp only at hk; omega))
        fun _ _ => rfl
    have hwritten : w.perform m s f .retVoid = ⟨r.toList ++ c.written, rest⟩ := by
      have hfunc : m.module.functions[frame.func.toNat]? = some g := hawaits.formed.func
      simp only at hcall
      simp only [History.perform, hcallers, hframe, Frame.awaited, Frame.current?, hfunc, hcall,
        Option.bind_eq_bind, Option.bind_some, Option.pure_def]
    rw [hwritten]
    refine meets_leave_caller hbase hsize hnone (by rw [hlink]; exact hfits) hframe
      hawaits.formed.func hcall ?_ ?_
    · intro v hv
      obtain ⟨t, ht, -⟩ := hresult v hv
      have hlt := (Array.getElem?_eq_some_iff.mp ht).1
      omega
    · intro _
      cases r with
      | none => exact ⟨g, hback.move rfl rfl rfl fun _ _ => rfl⟩
      | some v =>
        obtain ⟨t, ht, hform⟩ := hresult v rfl
        exact ⟨g, (hback.assign ht hform).move rfl rfl rfl fun _ _ => rfl⟩

/-- A call begins an activation, or takes what native code returns in register form. -/
theorem meets_call {id : Ssa.FuncId} {argc : Nat}
    {r : Option Ssa.ValueId} (hins : f.instructions[s.frame.cursor.toNat]? = some (.call id argc r))
    (hreads : ∀ v ∈ operands f s.frame.cursor.toNat (.call id argc r), v ∈ w.written) :
    (m.call f id r).Meets s (fun _ => After m entry s w (w.perform m s f (.call id argc r)) none)
    (fun _ => True) := by
  have hf := h.sound hm
  obtain ⟨callee, args, hcallee, hlength, hpushed, hcount, hargs, hresult⟩ := hf.typed _ _ hins
  have hcallArgs := Ssa.Function.callArgs_eq hins hlength hpushed
  have hwritten : ∀ v ∈ args, v ∈ w.written := by
    intro v hv
    apply hreads v
    simpa [operands, hcallArgs, Except.toOption] using hv
  have htypes : ∀ v ∈ args, ∃ t info, f.values[v.index]? = some t ∧
      m.types.infos[t.index]? = some info := by
    intro v hv
    obtain ⟨t, ht, info, hinfo, -⟩ := h.value (hwritten v hv)
    exact ⟨t, info, ht, hinfo⟩
  have hholds : ∀ v ∈ args, s.Holds v := by
    intro v hv
    obtain ⟨t, -, ht, -⟩ := htypes v hv
    exact h.holds_of_type ht
  refine .bind (meets_checked (a := callee) (mapError_eq_ok.mpr (fetch_eq_ok.mpr hcallee))
    (.bind (meets_frame ?_)))
  refine .bind (meets_checked hcallArgs ?_)
  cases hforeign : callee.foreign with
  | none =>
    have hnative : ¬ callee.isExternal = true := by simp [Ssa.Function.isExternal, hforeign]
    rw [if_neg hnative]
    refine meets_enter (fun _ _ => trivial) h.running.window h.header_fits
      (hm.functions _ callee hcallee) hforeign hlength hcount hargs ?_
    intro s' hentered _
    simp only [History.perform, hcallee, hnative]
    exact ⟨callee, h.entered hm hins hcallee hwritten hargs hentered⟩
  | some foreign =>
    have hnative : callee.isExternal = true := by simp [Ssa.Function.isExternal, hforeign]
    have hregistered := hm.results _ callee hcallee
    rw [if_pos hnative]
    refine .bind (meets_nativeArguments hholds htypes fun words => .bind ?_)
    refine meets_callNative (fun _ => trivial) (fun _ => trivial) (fun t ht =>
      (hregistered t ht).info) ?_
    intro word memory links native hword
    simp only [History.perform, hcallee, hnative, if_true]
    cases r with
    | none =>
      refine meets_advance fun hspared => ⟨f, ?_⟩
      have hmoved : Canonical m entry (State.next { s with memory, links, native }) w f :=
        h.move rfl rfl rfl hspared
      exact hmoved
    | some v =>
      obtain ⟨t, hret, hv⟩ : ∃ t, callee.ret = some t ∧ f.values[v.index]? = some t := by
        cases hsome : callee.ret with
        | none => simp [hsome] at hresult
        | some t => exact ⟨t, rfl, by simpa [hsome] using hresult⟩
      obtain ⟨info, raw, hinfo, rfl⟩ := hword t hret
      refine .bind (meets_setValue (h.holds_of_type hv) (meets_advance fun hspared => ⟨f, ?_⟩))
      have hassigned := h.assign hv (inForm_normalize hinfo raw)
      exact hassigned.move rfl rfl rfl hspared

/-- An instruction keeps written values in register form. -/
theorem meets_perform {ins : Ssa.Instruction}
    (hins : f.instructions[s.frame.cursor.toNat]? = some ins)
    (hreads : ∀ v ∈ operands f s.frame.cursor.toNat ins, v ∈ w.written) :
    (m.perform f ins).Meets s (After m entry s w (w.perform m s f ins)) (fun _ => True) := by
  have htyped := (h.sound hm).typed _ _ hins
  have hnext : After m entry s w w none s.next := fun hspared => ⟨f, h.move rfl rfl rfl hspared⟩
  have hjump : ∀ target : Ssa.BlockId,
      (jump f target : Action σ Unit).Meets s (fun _ => After m entry s w w none) (fun _ =>
      True) := by
    intro target
    unfold jump
    split
    next e _ =>
      intro hspared
      have hmoved : Canonical m entry (s.goTo e.offset.toUInt32) w f := h.move rfl rfl rfl hspared
      exact ⟨f, hmoved⟩
    next => exact .throw trivial
  cases ins with
  | allocStack =>
    refine .bind ((h.meets_allocStack hm).mono (fun _ s' hs' => ?_) fun _ _ => trivial)
    exact .bind (meets_advance (.pure fun _ => ⟨f, hs'.move rfl rfl rfl fun _ _ => rfl⟩))
  | constant r word =>
    obtain ⟨t, hr⟩ := htyped
    exact h.meets_define hr (hm.constants _ f h.running.func r word
      (Array.mem_of_getElem? hins) t hr)
  | binary op r lhs rhs =>
    obtain ⟨t, info, hr, hlhs, hrhs, hinfo, hclass⟩ := htyped
    refine .bind (meets_typeOf hr hinfo (.bind (meets_getValue (h.holds_of_type hlhs) (.bind ?_))))
    refine meets_getValue (h.holds_of_type hrhs) ?_
    cases op with
    | int op =>
      cases hword : op.apply info (s.value lhs) (s.value rhs) with
      | some word =>
        simp only [hword]
        exact h.meets_define hr (inForm_int hinfo hword)
      | none =>
        simp only [hword]
        exact .bind (.throw trivial)
    | float op => exact h.meets_define hr (inForm_float hinfo hclass op _ _)
  | icmp pred r lhs rhs | fcmp pred r lhs rhs =>
    obtain ⟨t, info, hr, hlhs, hrhs, hinfo, -⟩ := htyped
    refine .bind (meets_typeOf hlhs hinfo
      (.bind (meets_getValue (h.holds_of_type hlhs) (.bind ?_))))
    exact meets_getValue (h.holds_of_type hrhs) (h.meets_define hr (inForm_bool hm.types _))
  | load r address =>
    obtain ⟨t, pointer, hr, haddress, hpointer⟩ := htyped
    obtain ⟨info, hinfo⟩ := (hm.types.pointee_registered hpointer).info
    refine .bind (meets_typeOf hr hinfo (.bind (meets_getValue (h.holds_of_type haddress)
      (.bind (meets_loadWord ?_)))))
    exact h.meets_define hr (inForm_normalize hinfo _)
  | store address v =>
    obtain ⟨t, pointer, hv, haddress, hpointer⟩ := htyped
    obtain ⟨info, hinfo⟩ := (hm.types.pointee_registered hpointer).info
    refine .bind (meets_typeOf hv hinfo
      (.bind (meets_getValue (h.holds_of_type haddress) (.bind ?_))))
    refine meets_getValue (h.holds_of_type hv)
      (.bind (meets_storeWord (.bind (meets_advance (.pure ?_)))))
    exact fun hspared => ⟨f, h.move rfl rfl rfl hspared⟩
  | pushArg v => exact .bind (meets_advance (.pure hnext))
  | call callee argc r =>
    exact .bind ((h.meets_call hm hins hreads).mono (fun _ s' hs' => .pure hs') fun _ _ => trivial)
  | jump target => exact .bind ((hjump target).mono (fun _ s' hs' => .pure hs') fun _ _ => trivial)
  | branch condition consequent alternative =>
    obtain ⟨t, info, hcondition, -⟩ := htyped
    refine .bind (meets_getValue (h.holds_of_type hcondition) (.bind ?_))
    exact (hjump _).mono (fun _ s' hs' => .pure hs') fun _ _ => trivial
  | ret v =>
    obtain ⟨t, hv, hret⟩ := htyped
    obtain ⟨t', ht', hform⟩ := h.value (hreads v (by simp [operands]))
    obtain rfl : t = t' := Option.some.inj (hv.symm.trans ht')
    refine .bind (meets_getValue (h.holds_of_type hv) (h.meets_leave hm (fun u hu =>
      ?_) (.inr ⟨v, rfl⟩)))
    obtain rfl : t = u := Option.some.inj (hret.symm.trans hu)
    exact hform
  | retVoid =>
    have hret : f.ret = none := htyped
    exact h.meets_leave hm (by simp [hret]) (.inl rfl)

/-- One step keeps written values in register form. -/
theorem meets_step (hreads : ∀ v ∈ m.reads s, v ∈ w.written) :
    m.step.Meets s (After m entry s w (w.next m s)) (fun _ => True) := by
  have hfunc : m.module.functions[s.frame.func.toNat]? = some f := h.running.func
  cases hins : f.instructions[s.frame.cursor.toNat]? with
  | none =>
    refine .bind (meets_frame (.bind ?_))
    refine meets_checked (a := f) (mapError_eq_ok.mpr (fetch_eq_ok.mpr hfunc)) ?_
    simp only [hins]
    exact .throw trivial
  | some ins =>
    have hcurrent := Frame.current?_eq_some.mpr ⟨hfunc, hins⟩
    simp only [reads, hcurrent] at hreads
    simp only [History.next, hcurrent]
    exact Machine.meets_step hcurrent (h.meets_perform hm hins hreads)

end

end Canonical

/-! ### The beginning of a run -/

section

variable {m : Machine σ} {entry : Ssa.Function} {s s' : State σ}

theorem Built.meets_start (hm : Built m) {id : Ssa.FuncId} {args : List UInt64}
    (hf : m.module.functions[id.index]? = some entry) (hbody : entry.foreign = none)
    (hcount : args.length = entry.argCount) :
    (m.start id entry args).Meets s (fun _ s' => Started m s id entry args s') (fun _ => True) := by
  have hsound := hm.functions _ entry hf
  obtain ⟨n, hentry⟩ := (hsound.body hbody).entry
  exact Machine.meets_start (fun _ _ => trivial) (by rw [hcount]; exact hsound.args)
    hentry fun _ h => h

/-- The first activation begins with its arguments. -/
theorem Started.canonical (hm : Built m) {id : Ssa.FuncId} {args : List UInt64}
    (hf : m.module.functions[id.index]? = some entry) (hcount : args.length = entry.argCount)
    (hargs : ∀ (j : Nat) t word, entry.values[j]? = some t → args[j]? = some word →
      InForm m.types t word)
    (h : Started m s id entry args s') : Canonical m entry s' (.entry entry []) entry := by
  have hid := func_toNat hm.size hf h.func
  have hone : s'.frame.base.toNat = 1 := by rw [h.base]; rfl
  refine ⟨⟨?_, ?_, ?_, ?_, ?_, ?_⟩, h.caller, h.base, rfl⟩
  · simpa only [State.running, hid] using hf
  · simp only [State.running, hone]
    omega
  · simpa only [State.running, hone] using h.window
  · simp only [State.running, h.frameAt, h.stackOffset]
    omega
  · simpa only [State.running, h.stackOffset] using h.fits
  · intro v hv
    obtain ⟨j, hj, rfl⟩ := List.mem_map.mp hv
    have hlt := List.mem_range.mp hj
    have hwide := (hm.functions _ entry hf).args
    obtain ⟨t, ht⟩ : ∃ t, entry.values[j]? = some t := ⟨_, Array.getElem?_eq_getElem (by omega)⟩
    obtain ⟨word, hword⟩ : ∃ word, args[j]? = some word := ⟨_, List.getElem?_eq_getElem (by omega)⟩
    refine ⟨t, word, ht, ?_, hargs j t word ht hword⟩
    simpa only [State.running, hone] using h.args j word hword

end

end MicroCompiler.Machine
