import MicroCompiler.Proofs.Machine.Progress
import MicroCompiler.Proofs.Machine.Reference
import MicroCompiler.Proofs.Machine.Word

/-! States of the machine that correspond to an activation of the reference: the registers of the
running activation hold its values, and the bytes of its locals hold their contents. Every
instruction keeps the correspondence, and what it changes lies in the running activation; so a
caller finds its values and locals again after a call. -/

namespace MicroCompiler.Machine

open Reference

variable {σ : Type}

/-- Code without native functions that loads and stores at locals only. Positions fit in a
header. -/
structure Plain (m : Machine σ) : Prop extends Loaded m where
  bodies : ∀ (k : Nat) f, m.module.functions[k]? = some f → f.foreign = none
  locals : ∀ (k : Nat) f, m.module.functions[k]? = some f → usesLocals f = true
  positions : ∀ (k : Nat) f, m.module.functions[k]? = some f → f.instructions.size ≤ UInt32.size

/-- The places of the locals of the running activation. -/
def State.places (m : Machine σ) (s : State σ) (f : Ssa.Function) : List Place :=
  layout m.types (s.frameAt + Frame.size) f.locals.toList

/-- The running activation has written nothing but its arguments. -/
structure Fresh (s : State σ) (f : Ssa.Function) (store : Store) : Prop where
  stackOffset : s.frame.stackOffset.toNat = s.frameAt + Frame.size
  args : ∀ v word, store.values v = some word →
    v.index < f.argCount ∧ s.registers[s.frame.base.toNat + v.index]? = some word
  locals : ∀ v, store.locals v = none

/-- The registers and the stack bytes of the running activation hold a store. -/
structure Holding (m : Machine σ) (s : State σ) (f : Ssa.Function) (store : Store) : Prop where
  values : ∀ v word, store.values v = some word →
    v.index < f.values.size ∧ s.registers[s.frame.base.toNat + v.index]? = some word
  places : ∀ p ∈ s.places m f, s.registers[s.frame.base.toNat + p.value.index]? =
    some (m.stack.address p.start)
  locals : ∀ p ∈ s.places m f, ∀ word, store.locals p.value = some word →
    normalize p.type (s.memory.load (m.stack.address p.start) p.type.size) = word

/-- The running activation is one of `f` at position `i`, with the values and locals of a store. -/
structure Matches (m : Machine σ) (s : State σ) (f : Ssa.Function) (store : Store) (i : Nat) :
    Prop where
  running : s.running.Runs m s.registers.size f
  cursor : s.frame.cursor.toNat = i
  fresh : i = 0 → Fresh s f store
  holding : i ≠ 0 → Holding m s f store

/-- What changed from `s` to `s'` belongs to the running activation, which goes on. -/
structure Confined (m : Machine σ) (s s' : State σ) : Prop where
  frameAt : s'.frameAt = s.frameAt
  base : s'.frame.base = s.frame.base
  caller : s'.frame.caller = s.frame.caller
  size : s.registers.size ≤ s'.registers.size
  registers : ∀ k < s.frame.base.toNat, s'.registers[k]? = s.registers[k]?
  memory : ∀ i < s.frameAt, s'.memory.get (m.stack.address i) = s.memory.get (m.stack.address i)

section

variable {m : Machine σ} {s s' s'' : State σ} {f : Ssa.Function} {store store' : Store} {i : Nat}

theorem Confined.refl (m : Machine σ) (s : State σ) : Confined m s s :=
  ⟨rfl, rfl, rfl, Nat.le_refl _, fun _ _ => rfl, fun _ _ => rfl⟩

theorem Confined.trans (h : Confined m s s') (h' : Confined m s' s'') : Confined m s s'' where
  frameAt := h'.frameAt.trans h.frameAt
  base := h'.base.trans h.base
  caller := h'.caller.trans h.caller
  size := Nat.le_trans h.size h'.size
  registers := by
    intro k hk
    rw [h'.registers k (by rw [h.base]; exact hk), h.registers k hk]
  memory := by
    intro i hi
    rw [h'.memory i (by rw [h.frameAt]; exact hi), h.memory i hi]

/-! ### Values and locals -/

/-- The value of a place is a value of the function. -/
theorem place_value (hf : f.Sound m.types m.module) {p : Place} (hp : p ∈ s.places m f) :
    f.argCount ≤ p.value.index ∧ p.value.index < f.values.size := by
  obtain ⟨⟨l, hl, hvalue, -⟩, -⟩ := mem_layout hp
  obtain ⟨hargs, pointer, hpointer, -⟩ := hf.locals l (by simpa using hl)
  rw [← hvalue]
  exact ⟨hargs, (Array.getElem?_eq_some_iff.mp hpointer).1⟩

namespace Holding

/-- A store is still held when its own registers and bytes are as before. -/
theorem congr (h : Holding m s f store) (hf : f.Sound m.types m.module)
    (hbase : s'.frame.base = s.frame.base) (hat : s'.frameAt = s.frameAt)
    (hregisters : ∀ k < f.values.size,
      s'.registers[s.frame.base.toNat + k]? = s.registers[s.frame.base.toNat + k]?)
    (hmemory : ∀ p ∈ s.places m f, ∀ i, p.Covers i →
      s'.memory.get (m.stack.address i) = s.memory.get (m.stack.address i)) :
    Holding m s' f store := by
  have hplaces : s'.places m f = s.places m f := by rw [State.places, State.places, hat]
  refine ⟨?_, ?_, ?_⟩
  · intro v word hv
    obtain ⟨hlt, hword⟩ := h.values v word hv
    exact ⟨hlt, by rw [hbase, hregisters _ hlt, hword]⟩
  · intro p hp
    rw [hplaces] at hp
    rw [hbase, hregisters _ (place_value hf hp).2, h.places p hp]
  · intro p hp word hword
    rw [hplaces] at hp
    rw [← h.locals p hp word hword]
    congr 1
    apply Memory.load_congr
    intro j hj
    rw [← Stack.address_add]
    exact hmemory p hp _ ⟨by omega, by unfold Place.stop; omega⟩

/-- A result of an instruction is defined. -/
theorem assign (h : Holding m s f store) (hf : f.Sound m.types m.module) {ins : Ssa.Instruction}
    (hins : f.instructions[i]? = some ins) {r : Ssa.ValueId} (hr : ins.result? = some r)
    (hholds : s.Holds r) (word : UInt64) : Holding m (s.assign r word) f (store.define r word) := by
  obtain ⟨-, hlocals⟩ := hf.results i ins r hins hr
  have hother : ∀ v : Ssa.ValueId, v ≠ r →
    (s.assign r word).registers[s.frame.base.toNat + v.index]? =
      s.registers[s.frame.base.toNat + v.index]? := by
    intro v hne
    have hindex : ¬ s.frame.base.toNat + r.index = s.frame.base.toNat + v.index := by
      intro heq
      apply hne
      cases v
      cases r
      simp only [Ssa.ValueId.mk.injEq]
      simp only at heq
      omega
    simp only [State.assign, Array.getElem?_setIfInBounds, if_neg hindex]
  refine ⟨?_, ?_, h.locals⟩
  · intro v w hv
    by_cases hvr : v = r
    · subst hvr
      obtain rfl : word = w := by simpa [Store.define] using hv
      refine ⟨(hf.typed i ins hins).result_lt hr, ?_⟩
      have hlt : s.frame.base.toNat + v.index < s.registers.size := hholds
      simp [State.assign, hlt]
    · obtain ⟨hlt, hword⟩ := h.values v w (by simpa [Store.define, hvr] using hv)
      exact ⟨hlt, (hother v hvr).trans hword⟩
  · intro p hp
    obtain ⟨⟨l, hl, hvalue, -⟩, -⟩ := mem_layout hp
    have hne : p.value ≠ r := by
      rw [← hvalue]
      exact hlocals l (by simpa using hl)
    exact (hother p.value hne).trans (h.places p hp)

/-- A local is written. The other locals lie apart from it. -/
theorem write (h : Holding m s f store) (hf : f.Sound m.types m.module)
    (hstack : ∀ p ∈ s.places m f, p.stop ≤ UInt32.size) {p : Place} (hp : p ∈ s.places m f)
      (word : UInt64) :
      Holding m { s with memory := s.memory.store (m.stack.address p.start) p.type.size word } f
      (store.write p.value (normalize p.type word)) := by
  refine ⟨h.values, h.places, ?_⟩
  intro q hq w hw
  rcases layout_apart hf.apart hp hq with rfl | ⟨hne, hapart⟩
  · obtain rfl : normalize p.type word = w := by simpa [Store.write] using hw
    exact normalize_load_store _ _ _ _
  · rw [← h.locals q hq w (by simpa [Store.write, hne.symm] using hw)]
    congr 1
    apply Memory.load_congr
    intro j hj
    have hpstop := hstack p hp
    have hqstop := hstack q hq
    have hlength := Bytes.length_littleEndian p.type.size word.toNat
    unfold Place.stop at hpstop hqstop hapart
    rw [← Stack.address_add]
    apply Stack.get_write_apart
    · omega
    · omega
    · omega

end Holding

/-! ### Positions -/

theorem toNat_succ {cursor : UInt32} (h : cursor.toNat + 1 < UInt32.size) :
    (cursor + 1).toNat = cursor.toNat + 1 := by
  have hone : (1 : UInt32).toNat = 1 := rfl
  rw [UInt32.toNat_add, hone]
  exact Nat.mod_eq_of_lt h

namespace Matches

variable {ins : Ssa.Instruction}

section

variable (h : Matches m s f store i)

include h

theorem sound (hm : Plain m) : f.Sound m.types m.module := h.running.sound hm.toLoaded

theorem at_cursor (hins : f.instructions[i]? = some ins) :
    f.instructions[s.frame.cursor.toNat]? = some ins := by
  rw [h.cursor]
  exact hins

theorem laid (hm : Plain m) (hins : f.instructions[i]? = some ins) (hne : ins ≠ .allocStack) :
    layoutEnd m.types (s.frameAt + Frame.size) f.locals.toList ≤ s.frame.stackOffset.toNat :=
  h.running.laid_of hm.toLoaded (h.at_cursor hins) hne

/-- Behind the first instruction the store is held. -/
theorem held (hm : Plain m) (hins : f.instructions[i]? = some ins) (hne : ins ≠ .allocStack) :
    Holding m s f store := by
  apply h.holding
  rintro rfl
  have hfirst := ((h.sound hm).body h.running.body).first
  exact hne (Option.some.inj (hins.symm.trans hfirst))

/-- Places lie in the stack, behind the header. -/
theorem place_bounds (hm : Plain m) (hins : f.instructions[i]? = some ins)
    (hne : ins ≠ .allocStack) {p : Place} (hp : p ∈ s.places m f) :
    s.frameAt + Frame.size ≤ p.start ∧ p.stop ≤ s.frame.stackOffset.toNat ∧
    p.stop ≤ UInt32.size := by
  obtain ⟨hlow, hhigh⟩ := layout_bounds.2 p hp
  have hlaid := h.laid hm hins hne
  have hfits : s.frame.stackOffset.toNat ≤ m.stack.size := h.running.high
  have hstack := hm.stack_lt
  exact ⟨hlow, by omega, by omega⟩

/-- The activation goes on behind an instruction that does not end its block. -/
theorem next (hm : Plain m) (hins : f.instructions[i]? = some ins)
    (hterm : ins.isTerminator = false) (hne : ins ≠ .allocStack) (hframe : s'.frame = s.frame)
    (hat : s'.frameAt = s.frameAt) (hsize : s.registers.size ≤ s'.registers.size)
    (hheld : Holding m s' f store') : Matches m s'.next f store' (i + 1) := by
  have hlt := Ssa.Function.next_lt (h.running.wellFormed hm.toLoaded)
    ((h.sound hm).body h.running.body) hins hterm
  have hpositions := hm.positions _ f h.running.func
  have hcursor : (s.frame.cursor + 1).toNat = i + 1 := by
    rw [toNat_succ (by rw [h.cursor]; omega), h.cursor]
  have hnext : s'.next.frame = { s.frame with cursor := s.frame.cursor + 1 } := by
    simp [State.next, State.goTo, hframe]
  refine ⟨?_, by rw [hnext]; exact hcursor, by simp, fun _ => ⟨hheld.values,
    hheld.places, hheld.locals⟩⟩
  exact h.running.goTo hsize hnext hat (h.laid hm hins hne) (by rw [hcursor]; exact hlt)

/-- The activation goes on at a block. -/
theorem goTo (hm : Plain m) (hins : f.instructions[i]? = some ins)
    (hne : ins ≠ .allocStack) {target : Ssa.BlockId} (htarget : f.isTarget target = true) :
    ∃ e, f.blocks[target.index]? = some (some e) ∧
    Matches m (s.goTo e.offset.toUInt32) f store e.offset := by
  obtain ⟨e, he, hlater, hlt, hcursor⟩ :=
    h.running.target hm.toLoaded (hm.positions _ f h.running.func) htarget
  have hheld := h.held hm hins hne
  refine ⟨e, he, ?_, hcursor, by omega, fun _ => ⟨hheld.values, hheld.places, hheld.locals⟩⟩
  exact h.running.goTo (Nat.le_refl _) rfl rfl (h.laid hm hins hne) (by rw [hcursor]; exact hlt)

end

end Matches

/-! ### Instructions -/

/-- The activation goes on at a position with a store. -/
def Continues (m : Machine σ) (s : State σ) (f : Ssa.Function) (store : Store) (i : Nat)
    (answer : Option UInt64) (s' : State σ) : Prop :=
  answer = none ∧ Matches m s' f store i ∧ Confined m s s'

theorem Confined.assign (m : Machine σ) (s : State σ) (r : Ssa.ValueId) (word : UInt64) :
    Confined m s (s.assign r word) := by
  refine ⟨rfl, rfl, rfl, by simp, ?_, fun _ _ => rfl⟩
  intro k hk
  simp only [State.assign]
  rw [Array.getElem?_setIfInBounds, if_neg (by omega)]

theorem Confined.goTo (h : Confined m s s') (cursor : UInt32) : Confined m s (s'.goTo cursor) :=
  ⟨h.frameAt, h.base, h.caller, h.size, h.registers, h.memory⟩

theorem Confined.next (h : Confined m s s') : Confined m s s'.next := h.goTo _

theorem isTerminator_of_result {ins : Ssa.Instruction} {r : Ssa.ValueId}
    (h : ins.result? = some r) : ins.isTerminator = false ∧ ins ≠ .allocStack := by
  cases ins <;> simp [Ssa.Instruction.result?] at h <;> simp [Ssa.Instruction.isTerminator]

theorem Holding.meets_getValue (h : Holding m s f store) {v : Ssa.ValueId} {word : UInt64}
    (hv : store.values v = some word) {post : UInt64 → State σ → Prop} {allowed : Fault → Prop}
    (hpost : post word s) : (getValue v : Action σ UInt64).Meets s post allowed :=
  .bind (meets_frame (meets_getRegister (h.values v word hv).2 hpost))

/-- The type of a value and the words of two operands are read. -/
theorem Holding.meets_operands (h : Holding m s f store) {v a b : Ssa.ValueId} {t : TypeId}
    {info : TypeInfo} {x y : UInt64} (hv : f.values[v.index]? = some t)
    (hinfo : m.types.infos[t.index]? = some info)
    (hx : store.values a = some x) (hy : store.values b = some y)
    {k : TypeInfo → UInt64 → UInt64 → Action σ (Option UInt64)}
    {post : Option UInt64 → State σ → Prop} {allowed : Fault → Prop}
    (hk : (k info x y).Meets s post allowed) :
      (do let t ← m.typeOf f v; let x ← getValue a; let y ← getValue b; k t x y : Action σ
        (Option UInt64)).Meets s post
      allowed :=
  .bind (meets_typeOf hv hinfo (.bind (h.meets_getValue hx (.bind (h.meets_getValue hy hk)))))

namespace Matches

variable {ins : Ssa.Instruction} {allowed : Fault → Prop}

section

variable (h : Matches m s f store i)

include h

theorem holds {v : Ssa.ValueId} (hv : v.index < f.values.size) : s.Holds v := by
  have hwindow : s.frame.base.toNat + f.values.size ≤ s.registers.size := h.running.window
  unfold State.Holds
  omega

/-- An instruction that ends by defining its result. -/
theorem define (hm : Plain m) (hins : f.instructions[i]? = some ins) {r : Ssa.ValueId}
    (hr : ins.result? = some r) (word : UInt64) :
    ((do setValue r word; advance; pure none) : Action σ (Option UInt64)).Meets s
      (Continues m s f (store.define r word) (i + 1)) allowed := by
  obtain ⟨hterm, hne⟩ := isTerminator_of_result hr
  have hholds := h.holds (((h.sound hm).typed i ins hins).result_lt hr)
  refine .bind (meets_setValue hholds (.bind (meets_advance (.pure ⟨rfl, ?_,
    (Confined.assign m s r word).next⟩))))
  exact h.next hm hins hterm hne rfl rfl (by simp) ((h.held hm hins hne).assign (h.sound hm)
    hins hr hholds word)

/-- The layout of the locals comes before anything is written to them. -/
theorem allocStack (hm : Plain m) (hins : f.instructions[i]? = some .allocStack) :
    (m.perform f .allocStack).Meets s (Continues m s f store (i + 1)) (fun fault =>
      fault.isExhaustion = true) := by
  have hf := h.sound hm
  obtain rfl : i = 0 := hf.typed i _ hins
  have hfresh := h.fresh rfl
  have hoffset := hfresh.stackOffset
  refine .bind (meets_allocStack (fun _ => id) hm.types hf h.running.high h.running.window ?_)
  intro registers stackOffset hsize hkept hplaces hend hfits
  rw [hoffset] at hplaces hend
  refine .bind (meets_advance (.pure ⟨rfl, ?_, ?_⟩))
  · have hlt := Ssa.Function.next_lt (h.running.wellFormed hm.toLoaded)
      (hf.body h.running.body) hins rfl
    have hzero : s.frame.cursor.toNat = 0 := h.cursor
    have hcursor : (s.frame.cursor + 1).toNat = 1 := by
      rw [toNat_succ (by rw [hzero]; decide), hzero]
    have hlow : s.frameAt + Frame.size ≤ stackOffset.toNat := by
      rw [hend]
      exact layout_bounds.1
    have hlaid := Nat.le_of_eq hend.symm
    refine ⟨⟨h.running.func, h.running.body, ?_, h.running.base, ?_, hlow, hfits, .inl hlaid⟩,
      hcursor, by simp,
      fun _ => ⟨?_, hplaces, ?_⟩⟩
    · exact Nat.lt_of_le_of_lt (Nat.le_of_eq hcursor) hlt
    · exact Nat.le_trans h.running.window (Nat.le_of_eq hsize.symm)
    · intro v word hv
      obtain ⟨hlt, hword⟩ := hfresh.args v word hv
      refine ⟨Nat.lt_of_lt_of_le hlt hf.args, (hkept (s.frame.base.toNat + v.index) ?_).trans hword⟩
      intro l hl
      have hargs := (hf.locals l hl).1
      omega
    · intro p _ word hword
      rw [hfresh.locals] at hword
      cases hword
  · refine ⟨rfl, rfl, rfl, Nat.le_of_eq hsize.symm, ?_, fun _ _ => rfl⟩
    intro k hk
    apply hkept
    intro l _
    omega

/-- The local at the address of a load or a store, and the type of what it holds. -/
theorem exists_address (hm : Plain m) (hins : f.instructions[i]? = some ins)
    {a : Ssa.ValueId} (ha : address? ins = some a) {t pointer : TypeId}
    (haddress : f.values[a.index]? = some pointer)
    (hpointer : m.types.infos[pointer.index]? = some (.pointer t)) :
    ∃ p ∈ s.places m f, p.value = a ∧ m.types.infos[t.index]? = some p.type := by
  have hf := h.sound hm
  obtain ⟨l, hl, rfl⟩ := usesLocals_address (hm.locals _ f h.running.func) hins ha
  obtain ⟨-, pointer', hvalue, hpointee⟩ := hf.locals l hl
  obtain rfl : pointer = pointer' := Option.some.inj (haddress.symm.trans hvalue)
  obtain rfl : t = l.type := by simpa using hpointer.symm.trans hpointee
  refine exists_place ?_ (by simpa using hl)
  intro l' hl'
  obtain ⟨-, pointer', -, hpointee'⟩ := hf.locals l' (by simpa using hl')
  exact (hm.types.pointee_registered hpointee').info

theorem load (hm : Plain m) {r a : Ssa.ValueId}
    (hins : f.instructions[i]? = some (.load r a)) {word : UInt64}
    (hword : store.locals a = some word) :
    (m.perform f (.load r a)).Meets s (Continues m s f (store.define r word) (i + 1)) allowed := by
  have hheld := h.held hm hins (by simp)
  obtain ⟨t, pointer, hr, haddress, hpointer⟩ := (h.sound hm).typed i _ hins
  obtain ⟨p, hp, rfl, htype⟩ := h.exists_address hm hins rfl haddress hpointer
  refine .bind (meets_typeOf hr htype (.bind ?_))
  refine .bind (meets_frame (meets_getRegister (hheld.places p hp) (.bind (meets_loadWord ?_))))
  rw [hheld.locals p hp word hword]
  exact h.define hm hins rfl word

theorem write (hm : Plain m) {a v : Ssa.ValueId}
    (hins : f.instructions[i]? = some (.store a v)) {t : TypeInfo}
    (ht : valueInfo m.types f v = some t) {word : UInt64}
    (hword : store.values v = some word) :
    (m.perform f (.store a v)).Meets s (Continues m s f (store.write a (normalize t word)) (i + 1))
    allowed := by
  have hheld := h.held hm hins (by simp)
  obtain ⟨type, pointer, hv, haddress, hpointer⟩ := (h.sound hm).typed i _ hins
  obtain ⟨p, hp, rfl, htype⟩ := h.exists_address hm hins rfl haddress hpointer
  obtain rfl : p.type = t := by simpa [valueInfo, hv, htype] using ht
  have hbounds := h.place_bounds hm hins (by simp) hp
  refine .bind (meets_typeOf hv htype (.bind ?_))
  refine .bind (meets_frame (meets_getRegister (hheld.places p hp) (.bind ?_)))
  refine hheld.meets_getValue hword (.bind
    (meets_storeWord (.bind (meets_advance (.pure ⟨rfl, ?_, ?_⟩)))))
  · refine h.next hm hins rfl (by simp) rfl rfl (Nat.le_refl _) ?_
    exact hheld.write (h.sound hm) (fun q hq => (h.place_bounds hm hins (by simp) hq).2.2) hp word
  · refine Confined.next ⟨rfl, rfl, rfl, Nat.le_refl _, fun _ _ => rfl, ?_⟩
    intro i hi
    have hlength := Bytes.length_littleEndian p.type.size word.toNat
    unfold Place.stop at hbounds
    apply Stack.get_write_apart
    · omega
    · omega
    · omega

/-! ### Calls -/

/-- A call begins an activation with the words of its arguments. -/
theorem call (hm : Plain m) {id : Ssa.FuncId} {argc : Nat} {r : Option Ssa.ValueId}
    (hins : f.instructions[i]? = some (.call id argc r)) :
    ∃ callee args, m.module.functions[id.index]? = some callee ∧ f.callArgs i = .ok args ∧
      ∀ words, args.mapM store.values = some words →
        (m.perform f (.call id argc r)).Meets s
          (fun answer s' => answer = none ∧ Entered m s f id callee args s' ∧
            Matches m s' callee (.ofArgs words) 0)
          (fun fault => fault.isExhaustion = true) := by
  obtain ⟨callee, args, hcallee, hlength, hpushed, hcount, htyped, -⟩ := (h.sound hm).typed i _ hins
  have hcallArgs := Ssa.Function.callArgs_eq hins hlength hpushed
  refine ⟨callee, args, hcallee, hcallArgs, ?_⟩
  intro words hwords
  have hbody := hm.bodies _ callee hcallee
  have hsound := hm.functions _ callee hcallee
  have hexact : args.length = callee.argCount := by
    simpa [Ssa.Function.isVariadic, hbody, hlength] using hcount
  refine .bind (.bind (meets_checked (a := callee)
    (mapError_eq_ok.mpr (fetch_eq_ok.mpr hcallee)) (.bind ?_)))
  refine meets_frame (.bind (meets_checked (a := args) (by rw [h.cursor]; exact hcallArgs) ?_))
  rw [if_neg (by simp [Ssa.Function.isExternal, hbody])]
  refine meets_enter (fun _ hfault => hfault) h.running.window h.running.header_fits hsound hbody
    hlength hcount htyped ?_
  intro s' hentered
  refine .pure ⟨rfl, hentered, ?_⟩
  obtain ⟨hcursor, hruns⟩ := hentered.runs hm.toLoaded hcallee hbody
  refine ⟨hruns, by rw [hcursor]; rfl, fun _ => ⟨hentered.stackOffset, ?_, fun _ => rfl⟩, fun hne =>
    absurd rfl hne⟩
  intro v word hv
  obtain ⟨hsame, hvalues⟩ := Store.mapM_values hwords
  have hlt := (List.getElem?_eq_some_iff.mp (show words[v.index]? = some word from hv)).1
  obtain ⟨u, hu, hword⟩ := hvalues v.index word hv
  refine ⟨by omega, ?_⟩
  obtain ⟨hindex, hregister⟩ := (h.held hm hins (by simp)).values u word hword
  rw [hentered.args v.index u hu, ← hregister, (h.holds hindex).value]

/-- After a call that changed its own activation only, the caller goes on with the result. -/
theorem resume (hm : Plain m) {id callee' : Ssa.FuncId} {argc : Nat}
    {r : Option Ssa.ValueId} (hins : f.instructions[i]? = some (.call id argc r))
    {callee : Ssa.Function} {args : List Ssa.ValueId}
    (hentered : Entered m s f callee' callee args s') (hconfined : Confined m s' s'')
    (word : UInt64) :
    (m.leave word).Meets s'' (Continues m s f (store.defineResult r word) (i + 1)) allowed := by
  have hf := h.sound hm
  have hwindow : s.frame.base.toNat + f.values.size ≤ s.registers.size := h.running.window
  have hfits : s.frameAt + Frame.size ≤ m.stack.size := h.running.header_fits
  have hoffset : s.frame.stackOffset.toNat ≤ m.stack.size := h.running.high
  have hlow : s.frameAt + Frame.size ≤ s.frame.stackOffset.toNat := h.running.low
  have hstack := hm.stack_lt
  have hbase : s''.frame.base.toNat = s.frame.base.toNat + f.values.size + 1 := by
    rw [hconfined.base, hentered.base]
  have hcaller : s''.frame.caller.toNat = s.frameAt := by rw [hconfined.caller, hentered.caller]
  have hsize : s.registers.size ≤ s''.registers.size := Nat.le_trans hentered.grown hconfined.size
  have habove := hentered.above
  -- The registers and bytes of the caller are as they were, but for its header.
  have hregisters : ∀ k < s.frame.base.toNat + f.values.size,
      (s''.back s.frame word).registers[k]? = s.registers[k]? := by
    intro k hk
    simp only [State.back]
    rw [Array.getElem?_setIfInBounds, if_neg (by omega), hconfined.registers k
      (by rw [hentered.base]; omega), hentered.kept k (by omega) (by omega)]
  have hmemory : ∀ j < s.frame.stackOffset.toNat, j < s.frameAt ∨ s.frameAt + Frame.size ≤ j →
      s''.memory.get (m.stack.address j) = s.memory.get (m.stack.address j) := by
    intro j hj hapart
    rw [hconfined.memory j (by omega), hentered.memory]
    apply Stack.get_write_apart
    · omega
    · rw [Stack.length_encode]
      omega
    · rw [Stack.length_encode]
      exact hapart
  have hheader : m.stack.readFrame s''.memory s''.frame.caller.toNat = s.frame := by
    rw [hcaller, ← Stack.readFrame_writeFrame m.stack s.memory s.frameAt s.frame, ← hentered.memory]
    apply Stack.readFrame_congr
    intro j _ hj
    exact hconfined.memory j (by omega)
  have hheld : Holding m (s''.back s.frame word) f store := by
    refine (h.held hm hins (by simp)).congr hf rfl hcaller (fun k hk => hregisters _ (by omega)) ?_
    intro p hp j hj
    obtain ⟨hstart, hstop, -⟩ := h.place_bounds hm hins (by simp) hp
    exact hmemory j (Nat.lt_of_lt_of_le hj.2 hstop) (.inr (Nat.le_trans hstart hj.1))
  have hresult : ∀ v ∈ r, s.frame.base.toNat + v.index < s''.registers.size := by
    intro v hv
    have hlt := (hf.typed i _ hins).result_lt (r := v) hv
    omega
  have hlast : s''.frame.caller ≠ Frame.noCaller := by
    intro heq
    have hlast := hm.stack
    rw [← heq, hcaller] at hlast
    omega
  have hroom : s''.frame.base.toNat ≤ s''.registers.size := by
    have hcallee := hentered.window
    have hgrown := hconfined.size
    rw [hconfined.base]
    omega
  have hgrown : s.registers.size ≤ (s''.back s.frame word).registers.size := by
    simpa [State.back] using hsize
  have hback : Confined m s (s''.back s.frame word) :=
    ⟨hcaller, rfl, rfl, hgrown, fun k hk => hregisters k (by omega), fun j hj =>
      hmemory j (by omega) (.inl hj)⟩
  refine meets_leave_caller (by omega) hroom hlast (by omega) hheader h.running.func
    (h.at_cursor hins) hresult ?_
  refine ⟨rfl, ?_⟩
  cases r with
  | none => exact ⟨h.next hm hins rfl (by simp) rfl hcaller hgrown hheld, hback.next⟩
  | some v =>
    have hholds : (s''.back s.frame word).Holds v := by
      simpa [State.Holds, State.back] using hresult v rfl
    refine ⟨?_, (hback.trans (.assign m _ v word)).next⟩
    exact h.next hm hins rfl (by simp) rfl hcaller (by simpa using hgrown)
      (hheld.assign hf hins rfl hholds word)

end

end Matches

end

end MicroCompiler.Machine
