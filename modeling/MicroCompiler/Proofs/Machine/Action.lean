import Mathlib.Data.List.Nodup
import MicroCompiler.Machine.Run
import MicroCompiler.Proofs.Memory
import MicroCompiler.Proofs.Ssa.Code

/-! Specifications of the parts of a step. A part meets a condition from a state if it ends in a
state with that condition, or in one of the faults that are allowed. There is one rule for each
part; the rules for the layout of locals and for passing arguments say what the registers hold
afterwards. -/

namespace MicroCompiler.Machine

variable {σ α β : Type} {post : Unit → State σ → Prop} {locals : List Ssa.Local} {offset : Nat}
  {v : Ssa.ValueId}

/-- From `s` the action ends with `post`, or in an allowed fault. -/
def Action.Meets (p : Action σ α) (s : State σ) (post : α → State σ → Prop)
    (allowed : Fault → Prop) : Prop :=
  match p s with
  | .ok a s' => post a s'
  | .error e _ => allowed e

namespace Action

variable {s : State σ} {allowed : Fault → Prop}

theorem Meets.pure {a : α} {post : α → State σ → Prop} (h : post a s) :
    Meets (pure a : Action σ α) s post allowed := h

theorem Meets.throw {e : Fault} {post : α → State σ → Prop} (h : allowed e) :
    Meets (throw e : Action σ α) s post allowed := h

theorem Meets.bind {p : Action σ α} {k : α → Action σ β} {post : β → State σ → Prop}
    (h : p.Meets s (fun a s' => (k a).Meets s' post allowed) allowed) :
    (p >>= k).Meets s post allowed := by
  unfold Meets at h ⊢
  show match EStateM.bind p k s with
    | .ok a s' => post a s'
    | .error e _ => allowed e
  unfold EStateM.bind
  cases hp : p s with
  | ok a s' =>
    rw [hp] at h
    exact h
  | error e s' =>
    rw [hp] at h
    exact h

theorem Meets.mono {p : Action σ α} {post post' : α → State σ → Prop} {allowed' : Fault → Prop}
    (h : p.Meets s post allowed) (hpost : ∀ a s', post a s' → post' a s')
    (hallowed : ∀ e, allowed e → allowed' e) : p.Meets s post' allowed' := by
  unfold Meets at h ⊢
  cases hp : p s with
  | ok a s' =>
    rw [hp] at h
    exact hpost a s' h
  | error e s' =>
    rw [hp] at h
    exact hallowed e h

theorem Meets.fault {p : Action σ α} (h : p.Meets s (fun _ _ => False) allowed) :
    ∃ e s', p s = .error e s' ∧ allowed e := by
  unfold Meets at h
  cases hp : p s with
  | ok a s' =>
    rw [hp] at h
    exact h.elim
  | error e s' =>
    rw [hp] at h
    exact ⟨e, s', rfl, h⟩

end Action

/-! ### Changes of a state -/

namespace State

/-- A value of the running activation gets a word. -/
def assign (s : State σ) (v : Ssa.ValueId) (word : UInt64) : State σ :=
  { s with registers := s.registers.setIfInBounds (s.frame.base.toNat + v.index) word }

/-- The running activation goes to a position. -/
def goTo (s : State σ) (cursor : UInt32) : State σ := { s with frame := { s.frame with cursor } }

/-- The running activation goes to the next position. -/
def next (s : State σ) : State σ := s.goTo (s.frame.cursor + 1)

/-- Whether a value of the running activation has a register. -/
def Holds (s : State σ) (v : Ssa.ValueId) : Prop := s.frame.base.toNat + v.index < s.registers.size

/-- The word of a value of the running activation. -/
def value (s : State σ) (v : Ssa.ValueId) : UInt64 :=
  s.registers.getD (s.frame.base.toNat + v.index) 0

theorem Holds.value {s : State σ} (h : s.Holds v) :
    s.registers[s.frame.base.toNat + v.index]? = some (s.value v) := by
  rw [State.value, Array.getD_eq_getD_getElem?, Array.getElem?_eq_getElem h]
  rfl

theorem Holds.getValue {s : State σ} (h : s.Holds v) : getValue v s = .ok (s.value v) s := by
  simp [Machine.getValue, Machine.frame, bind, EStateM.bind, getRegister, h.value]

@[simp] theorem assign_frame (s : State σ) (v : Ssa.ValueId) (word : UInt64) :
    (s.assign v word).frame = s.frame := rfl

@[simp] theorem assign_size (s : State σ) (v : Ssa.ValueId) (word : UInt64) :
    (s.assign v word).registers.size = s.registers.size := by simp [assign]

theorem Holds.assign {s : State σ} {v u : Ssa.ValueId} {word : UInt64} (h : s.Holds v) :
    (s.assign u word).Holds v := by
  simpa [Holds] using h

end State

/-! ### Registers -/

section

variable {s : State σ} {allowed : Fault → Prop}

theorem meets_checked {result : Except Ssa.Fault α} {a : α} {post : α → State σ → Prop}
    (ha : result = .ok a) (h : post a s) : (checked result : Action σ α).Meets s post allowed := by
  subst ha
  exact h

theorem meets_frame {post : Frame → State σ → Prop} (h : post s.frame s) :
    (frame : Action σ Frame).Meets s post allowed := h

theorem meets_getRegister {index : Nat} {word : UInt64} {post : UInt64 → State σ → Prop}
    (hword : s.registers[index]? = some word) (h : post word s) :
    (getRegister index : Action σ UInt64).Meets s post allowed := by
  simp only [Action.Meets, getRegister, hword]
  exact h

theorem meets_setRegister {index : Nat} {word : UInt64} (hindex : index < s.registers.size)
    (h : post () { s with registers := s.registers.setIfInBounds index word }) :
    (setRegister index word : Action σ Unit).Meets s post allowed := by
  simp only [Action.Meets, setRegister, hindex, if_true]
  exact h

theorem meets_getValue {post : UInt64 → State σ → Prop} (hv : s.Holds v) (h : post (s.value v) s) :
    (getValue v : Action σ UInt64).Meets s post allowed :=
  .bind (meets_frame (meets_getRegister hv.value h))

theorem meets_setValue {word : UInt64} (hv : s.Holds v)
    (h : post () (s.assign v word)) : (setValue v word : Action σ Unit).Meets s post allowed :=
  .bind (meets_frame (meets_setRegister hv h))

/-- Registers with zeros added up to a size. -/
def padded (registers : Array UInt64) (size : Nat) : Array UInt64 :=
  registers ++ Array.replicate (size - registers.size) 0

theorem size_padded (registers : Array UInt64) (size : Nat) :
    registers.size ≤ (padded registers size).size ∧ size ≤ (padded registers size).size := by
  simp only [padded, Array.size_append, Array.size_replicate]
  omega

theorem meets_growRegisters {m : Machine σ} {size : Nat}
    (hfault : ∀ wanted limit, allowed (.registerOverflow wanted limit))
    (h : post () { s with registers := padded s.registers size }) :
    (m.growRegisters size : Action σ Unit).Meets s post allowed := by
  unfold growRegisters
  split
  · exact .throw (hfault _ _)
  · exact h

/-! ### Types, offsets, positions -/

theorem meets_typeInfo {m : Machine σ} {t : TypeId} {info : TypeInfo}
    {post : TypeInfo → State σ → Prop} (ht : m.types.infos[t.index]? = some info)
    (h : post info s) : (m.typeInfo t : Action σ TypeInfo).Meets s post allowed :=
  meets_checked (mapError_eq_ok.mpr (TypeTable.info_eq_ok.mpr ht)) h

theorem meets_typeOf {m : Machine σ} {f : Ssa.Function} {t : TypeId} {info : TypeInfo}
    {post : TypeInfo → State σ → Prop} (hv : f.values[v.index]? = some t)
    (ht : m.types.infos[t.index]? = some info) (h : post info s) :
    (m.typeOf f v : Action σ TypeInfo).Meets s post allowed :=
  .bind (meets_checked (Ssa.Function.valueType_eq_ok.mpr hv) (meets_typeInfo ht h))

theorem meets_headerWord {post : UInt32 → State σ → Prop}
    (hfault : ∀ value, allowed (.offsetTooLarge value))
    (h : ∀ word : UInt32, word.toNat = offset → post word s) :
    (headerWord offset : Action σ UInt32).Meets s post allowed := by
  unfold headerWord
  split
  next hlt =>
    refine h _ ?_
    simp only [Nat.toUInt32_eq, UInt32.toNat_ofNat']
    exact Nat.mod_eq_of_lt hlt
  next => exact .throw (hfault _)

theorem meets_reserve {m : Machine σ} {offset size align : Nat} {post : Nat → State σ → Prop}
    (hfault : ∀ size start limit, allowed (.stackOverflow size start limit))
    (h : Stack.alignUp offset align + size ≤ m.stack.size → post (Stack.alignUp offset align) s) :
    (m.reserve offset size align : Action σ Nat).Meets s post allowed := by
  simp only [reserve]
  split
  next hle => exact h hle
  next => exact .throw (hfault _ _ _)

theorem meets_advance (h : post () s.next) : (advance : Action σ Unit).Meets s post allowed := h

theorem meets_entryOf {f : Ssa.Function} {e : Ssa.Extent} {post : UInt32 → State σ → Prop}
    (hentry : f.blocks[0]? = some (some e)) (h : post e.offset.toUInt32 s) :
    (entryOf f : Action σ UInt32).Meets s post allowed := by
  simp only [entryOf, hentry]
  exact h

theorem meets_jump {f : Ssa.Function} {target : Ssa.BlockId} {e : Ssa.Extent}
    (htarget : f.blocks[target.index]? = some (some e)) (h : post () (s.goTo e.offset.toUInt32)) :
    (jump f target : Action σ Unit).Meets s post allowed := by
  simp only [jump, htarget]
  exact h

end

/-! ### Places of locals -/

/-- Where a local lies on the stack. -/
structure Place where
  value : Ssa.ValueId
  type : TypeInfo
  start : Nat

namespace Place

def stop (p : Place) : Nat := p.start + p.type.size

/-- The local has a byte at a stack offset. -/
def Covers (p : Place) (i : Nat) : Prop := p.start ≤ i ∧ i < p.stop

end Place

/-- The places of locals from an offset on. -/
def layout (types : TypeTable) (offset : Nat) : List Ssa.Local → List Place
  | [] => []
  | l :: rest =>
    match types.infos[l.type.index]? with
    | none => []
    | some t =>
      let start := Stack.alignUp offset t.align
      ⟨l.value, t, start⟩ :: layout types (start + t.size) rest

/-- The first offset after locals that are laid out from an offset on. -/
def layoutEnd (types : TypeTable) (offset : Nat) : List Ssa.Local → Nat
  | [] => offset
  | l :: rest =>
    match types.infos[l.type.index]? with
    | none => offset
    | some t => layoutEnd types (Stack.alignUp offset t.align + t.size) rest

theorem size_mem_accessWidths (t : TypeInfo) : t.size ∈ accessWidths := by
  cases t with
  | primitive p => cases p <;> decide
  | pointer t => simp [TypeInfo.size, accessWidths]

theorem size_pos (t : TypeInfo) : 0 < t.size := by
  have h := size_mem_accessWidths t
  simp only [accessWidths, List.mem_cons, List.not_mem_nil, or_false] at h
  omega

theorem le_alignUp (offset : Nat) {align : Nat} (h : 0 < align) :
    offset ≤ Stack.alignUp offset align := by
  have hdiv := Nat.div_add_mod (offset + align - 1) align
  have hmod := Nat.mod_lt (offset + align - 1) h
  rw [Stack.alignUp, Nat.mul_comm]
  omega

theorem mem_layout {types : TypeTable} {p : Place} (hp : p ∈ layout types offset locals) :
    (∃ l ∈ locals, l.value = p.value ∧ types.infos[l.type.index]? = some p.type) ∧
      p.type.align ∣ p.start := by
  induction locals generalizing offset with
  | nil => simp [layout] at hp
  | cons l rest ih =>
    cases ht : types.infos[l.type.index]? with
    | none => simp [layout, ht] at hp
    | some t =>
      simp only [layout, ht, List.mem_cons] at hp
      rcases hp with rfl | hp
      · exact ⟨⟨l, by simp, rfl, ht⟩, Nat.dvd_mul_left _ _⟩
      · obtain ⟨⟨l', hl', hvalue⟩, haligned⟩ := ih hp
        exact ⟨⟨l', List.mem_cons_of_mem l hl', hvalue⟩, haligned⟩

/-- Places lie behind the offset and before the end. -/
theorem layout_bounds {types : TypeTable} : offset ≤ layoutEnd types offset locals ∧
      ∀ p ∈ layout types offset locals, offset ≤ p.start ∧
      p.stop ≤ layoutEnd types offset locals := by
  induction locals generalizing offset with
  | nil => exact ⟨Nat.le_refl _, by simp [layout]⟩
  | cons l rest ih =>
    cases ht : types.infos[l.type.index]? with
    | none => simp [layoutEnd, layout, ht]
    | some t =>
      have hstart := le_alignUp offset (size_pos t)
      obtain ⟨hend, hplaces⟩ := @ih (Stack.alignUp offset t.align + t.size)
      simp only [layoutEnd, ht]
      have halign : t.align = t.size := rfl
      refine ⟨by rw [halign] at hend ⊢; omega, ?_⟩
      intro p hp
      simp only [layout, ht, List.mem_cons] at hp
      rcases hp with rfl | hp
      · exact ⟨hstart, hend⟩
      · obtain ⟨hlow, hhigh⟩ := hplaces p hp
        rw [halign] at hlow
        exact ⟨by omega, hhigh⟩

/-- Every local has a place. -/
theorem exists_place {types : TypeTable}
    (htypes : ∀ l ∈ locals, ∃ t, types.infos[l.type.index]? = some t) {l : Ssa.Local}
    (hl : l ∈ locals) : ∃ p ∈ layout types offset locals, p.value = l.value ∧
    types.infos[l.type.index]? = some p.type := by
  induction locals generalizing offset with
  | nil => simp at hl
  | cons k rest ih =>
    obtain ⟨t, ht⟩ := htypes k (by simp)
    simp only [layout, ht]
    rcases List.mem_cons.mp hl with rfl | hl
    · exact ⟨_, List.mem_cons_self, rfl, ht⟩
    · obtain ⟨p, hp, hvalue, htype⟩ := ih (fun l' hl' => htypes l' (List.mem_cons_of_mem k hl')) hl
      exact ⟨p, List.mem_cons_of_mem _ hp, hvalue, htype⟩

/-- Two places are the same or apart. -/
theorem layout_apart {types : TypeTable}
    (hapart : (locals.map (·.value)).Nodup) {p q : Place} (hp : p ∈ layout types offset locals)
    (hq : q ∈ layout types offset locals) :
    p = q ∨ p.value ≠ q.value ∧ (p.stop ≤ q.start ∨ q.stop ≤ p.start) := by
  induction locals generalizing offset with
  | nil => simp [layout] at hp
  | cons l rest ih =>
    rw [List.map_cons, List.nodup_cons] at hapart
    cases ht : types.infos[l.type.index]? with
    | none => simp [layout, ht] at hp
    | some t =>
      have hlater : ∀ q ∈ layout types (Stack.alignUp offset t.align + t.size) rest,
          l.value ≠ q.value ∧ Stack.alignUp offset t.align + t.size ≤ q.start := by
        intro q hq
        obtain ⟨⟨l', hl', hvalue, -⟩, -⟩ := mem_layout hq
        refine ⟨fun heq => hapart.1 ?_, (layout_bounds.2 q hq).1⟩
        rw [heq, ← hvalue]
        exact List.mem_map_of_mem hl'
      simp only [layout, ht, List.mem_cons] at hp hq
      rcases hp with rfl | hp <;> rcases hq with rfl | hq
      · exact .inl rfl
      · obtain ⟨hne, hle⟩ := hlater q hq
        exact .inr ⟨hne, .inl hle⟩
      · obtain ⟨hne, hle⟩ := hlater p hp
        exact .inr ⟨hne.symm, .inr hle⟩
      · exact ih hapart.2 hp hq

/-- The layout stores the address of every place in its value and leaves all other registers. -/
theorem meets_layOut {m : Machine σ} {s : State σ} {allowed : Fault → Prop}
    {post : Nat → State σ → Prop}
    (hfault : ∀ size start limit, allowed (.stackOverflow size start limit))
    (hoffset : offset ≤ m.stack.size)
    (htypes : ∀ l ∈ locals, ∃ t, m.types.infos[l.type.index]? = some t)
    (hvalues : ∀ l ∈ locals, s.Holds l.value) (hapart : (locals.map (·.value)).Nodup)
    (h : ∀ registers : Array UInt64, registers.size = s.registers.size →
      (∀ k : Nat, (∀ l ∈ locals, s.frame.base.toNat + l.value.index ≠ k) →
        registers[k]? = s.registers[k]?) →
      (∀ p ∈ layout m.types offset locals,
        registers[s.frame.base.toNat + p.value.index]? = some (m.stack.address p.start)) →
      layoutEnd m.types offset locals ≤ m.stack.size →
      post (layoutEnd m.types offset locals) { s with registers }) :
      (m.layOut offset locals).Meets s post allowed := by
  induction locals generalizing s offset with
  | nil => exact .pure (h s.registers rfl (fun _ _ => rfl) (by simp [layout]) hoffset)
  | cons l rest ih =>
    obtain ⟨t, ht⟩ := htypes l (by simp)
    have hl := hvalues l (by simp)
    rw [List.map_cons, List.nodup_cons] at hapart
    refine .bind (meets_typeInfo ht (.bind (meets_reserve hfault fun hfits =>
      .bind (meets_setValue hl ?_))))
    refine ih hfits (fun l' hl' => htypes l' (List.mem_cons_of_mem l hl'))
      (fun l' hl' => (hvalues l' (List.mem_cons_of_mem l hl')).assign) hapart.2 ?_
    intro registers hsize hothers hplaces hend
    have hbelow : ∀ l' ∈ rest, s.frame.base.toNat + l'.value.index ≠
        s.frame.base.toNat + l.value.index := by
      intro l' hl' heq
      apply hapart.1
      have hindex : l'.value = l.value := by
        cases hv : l'.value
        cases hw : l.value
        simp only [hv, hw] at heq
        congr 1
        omega
      rw [← hindex]
      exact List.mem_map_of_mem hl'
    have hpost := h registers (by simpa using hsize) ?_ ?_ ?_
    · simpa only [layoutEnd, ht, State.assign] using hpost
    · intro k hk
      rw [hothers k fun l' hl' => hk l' (List.mem_cons_of_mem l hl')]
      simp [State.assign, hk l (by simp)]
    · intro p hp
      simp only [layout, ht, List.mem_cons] at hp
      rcases hp with rfl | hp
      · rw [hothers _ hbelow]
        have hlt : s.frame.base.toNat + l.value.index < s.registers.size := hl
        simp [State.assign, hlt]
      · exact hplaces p hp
    · simpa only [layoutEnd, ht] using hend

/-! ### Memory and native code -/

section

variable {m : Machine σ} {s : State σ} {allowed : Fault → Prop}

theorem meets_loadWord {address : UInt64} {t : TypeInfo} {post : UInt64 → State σ → Prop}
    (h : post (s.memory.load address t.size) s) :
    (loadWord address t.size : Action σ UInt64).Meets s post allowed := by
  simp only [Action.Meets, loadWord, size_mem_accessWidths, if_true]
  exact h

theorem meets_storeWord {address : UInt64} {t : TypeInfo} {word : UInt64}
    (h : post () { s with memory := s.memory.store address t.size word }) :
    (storeWord address t.size word : Action σ Unit).Meets s post allowed := by
  simp only [Action.Meets, storeWord, size_mem_accessWidths, if_true]
  exact h

theorem meets_nativeArguments {f : Ssa.Function} {declared index : Nat} {args : List Ssa.ValueId}
    {post : List Native.Argument → State σ → Prop} (hvalues : ∀ v ∈ args, s.Holds v)
    (htypes : ∀ v ∈ args, ∃ t info, f.values[v.index]? = some t ∧ m.types.infos[t.index]? =
      some info)
    (h : ∀ words, post words s) :
    (m.nativeArguments f declared index args).Meets s post allowed := by
  induction args generalizing index post with
  | nil => exact .pure (h [])
  | cons v rest ih =>
    obtain ⟨t, info, hv, ht⟩ := htypes v (by simp)
    refine .bind (meets_getValue (hvalues v (by simp)) (.bind (meets_typeOf hv ht (.bind ?_))))
    refine ih (fun u hu => hvalues u (List.mem_cons_of_mem v hu)) (fun u hu =>
      htypes u (List.mem_cons_of_mem v hu)) ?_
    intro words
    exact .pure (h _)

theorem meets_nativeEntry {words : List UInt64} {ts : List TypeId}
    {post : List Native.Argument → State σ → Prop}
    (htypes : ∀ t ∈ ts, ∃ info, m.types.infos[t.index]? = some info) (h : ∀ words, post words s) :
    (m.nativeEntry words ts).Meets s post allowed := by
  induction words generalizing ts post with
  | nil => exact .pure (h [])
  | cons word words ih =>
    cases ts with
    | nil => exact .pure (h [])
    | cons t ts =>
      obtain ⟨info, ht⟩ := htypes t (by simp)
      refine .bind (meets_typeInfo ht (.bind (ih (fun u hu =>
        htypes u (List.mem_cons_of_mem t hu)) ?_)))
      intro words
      exact .pure (h _)

theorem meets_resolve {id : Ssa.FuncId} {callee : Ssa.Function}
    {post : Option UInt64 → State σ → Prop}
    (h : ∀ address links native, post address { s with links, native }) :
    (m.resolve id callee).Meets s post allowed := h _ _ _

theorem meets_invoke {address : UInt64} {args : List Native.Argument} {signature : Native.Signature}
    {post : UInt64 → State σ → Prop} (hnative : ∀ e, allowed (.native e))
    (h : ∀ word memory native, post word { s with memory, native }) :
    (m.invoke address args signature).Meets s post allowed := by
  simp only [Action.Meets, invoke]
  cases (m.library.call address args signature s.memory s.native).result with
  | ok word => exact h _ _ _
  | error e => exact hnative e

/-- Native code may change memory and its own state, but no register and no activation. Whatever it
returns, a result is put in register form. -/
theorem meets_callNative {id : Ssa.FuncId} {callee : Ssa.Function} {args : List Native.Argument}
    {post : UInt64 → State σ → Prop} (hnative : ∀ e, allowed (.native e))
    (hsymbol : ∀ name, allowed (.unresolved name))
    (hret : ∀ t ∈ callee.ret, ∃ info, m.types.infos[t.index]? = some info)
    (h : ∀ word memory links native,
      (∀ t ∈ callee.ret, ∃ info raw, m.types.infos[t.index]? = some info ∧
        word = normalize info raw) →
      post word { s with memory, links, native }) :
    (m.callNative id callee args).Meets s post allowed := by
  refine .bind (meets_resolve fun address links native => ?_)
  cases address with
  | none => exact .throw (hsymbol _)
  | some address =>
    cases hsome : callee.ret with
    | none =>
      exact .bind (meets_invoke hnative fun word memory native =>
        .pure (h _ _ _ _ (by simp [hsome])))
    | some t =>
      obtain ⟨info, hinfo⟩ := hret t hsome
      refine .bind (meets_typeInfo hinfo (.bind (meets_invoke hnative fun word memory native =>
        .pure ?_)))
      refine h _ _ _ _ fun u hu => ?_
      obtain rfl : t = u := Option.some.inj (hsome.symm.trans hu)
      exact ⟨info, word, hinfo, rfl⟩

/-! ### Activations -/

theorem meets_placeArguments {index : Nat} {words : List UInt64}
    (hfits : index + words.length ≤ s.registers.size)
    (h : ∀ registers : Array UInt64, registers.size = s.registers.size →
      (∀ k : Nat, k < index ∨ index + words.length ≤ k → registers[k]? = s.registers[k]?) →
      (∀ (j : Nat) word, words[j]? = some word → registers[index + j]? = some word) →
      post () { s with registers }) : (placeArguments index words :
      Action σ Unit).Meets s post allowed := by
  induction words generalizing s index with
  | nil => exact .pure (h s.registers rfl (fun _ _ => rfl) (by simp))
  | cons word rest ih =>
    simp only [List.length_cons] at hfits h
    have hindex : index < s.registers.size := by omega
    refine .bind (meets_setRegister hindex (ih (by simp; omega) ?_))
    intro registers hsize hothers hwords
    refine h registers (by simpa using hsize) ?_ ?_
    · intro k hk
      rw [hothers k (by omega), Array.getElem?_setIfInBounds, if_neg (by omega)]
    · intro j w hw
      cases j with
      | zero =>
        obtain rfl : word = w := by simpa using hw
        rw [Nat.add_zero, hothers index (by omega)]
        simp [hindex]
      | succ j =>
        rw [← hwords j w (by simpa using hw)]
        congr 1
        omega

/-- Arguments that lie below their new places are passed as they are before the first is passed. -/
theorem passArguments_eq {index : Nat} {args : List Ssa.ValueId}
    (hbelow : ∀ v ∈ args, s.frame.base.toNat + v.index < index)
    (hfits : index + args.length ≤ s.registers.size) :
    passArguments index args s = placeArguments index (args.map s.value) s := by
  induction args generalizing s index with
  | nil => rfl
  | cons v rest ih =>
    simp only [List.length_cons] at hfits
    have hindex : index < s.registers.size := by omega
    have hv := hbelow v (by simp)
    have hholds : s.Holds v := by
      unfold State.Holds
      omega
    have hset : ∀ word, setRegister index word s =
        .ok () { s with registers := s.registers.setIfInBounds index word } := by
      intro word
      simp [setRegister, hindex]
    have hvalues : ∀ u ∈ rest,
        ({ s with registers := s.registers.setIfInBounds index (s.value v) } : State σ).value u =
        s.value u := by
      intro u hu
      have hlt := hbelow u (List.mem_cons_of_mem v hu)
      simp only [State.value, Array.getD_eq_getD_getElem?]
      rw [Array.getElem?_setIfInBounds, if_neg (by omega)]
    have hrest := @ih { s with registers := s.registers.setIfInBounds index (s.value v) }
      (index + 1) (fun u hu => by have := hbelow u (List.mem_cons_of_mem v hu); simp only; omega)
      (by simp; omega)
    rw [List.map_congr_left hvalues] at hrest
    simp only [passArguments, placeArguments, List.map_cons, bind, EStateM.bind,
      hholds.getValue, hset]
    exact hrest

theorem meets_passArguments {index : Nat} {args : List Ssa.ValueId}
    (hbelow : ∀ v ∈ args, s.frame.base.toNat + v.index < index)
    (hfits : index + args.length ≤ s.registers.size)
    (h : ∀ registers : Array UInt64, registers.size = s.registers.size →
      (∀ k : Nat, k < index ∨ index + args.length ≤ k → registers[k]? = s.registers[k]?) →
      (∀ (j : Nat) v, args[j]? = some v → registers[index + j]? = some (s.value v)) →
      post () { s with registers }) : (passArguments index args :
      Action σ Unit).Meets s post allowed := by
  unfold Action.Meets
  rw [passArguments_eq hbelow hfits]
  refine meets_placeArguments (by simpa using hfits) ?_
  intro registers hsize hothers hwords
  refine h registers hsize (by simpa using hothers) ?_
  intro j v hv
  exact hwords j (s.value v) (by simp [hv])

theorem meets_saveFrame (hfits : s.frameAt + Frame.size ≤ m.stack.size)
    (h : post () { s with memory := m.stack.writeFrame s.memory s.frameAt s.frame }) :
    (m.saveFrame : Action σ Unit).Meets s post allowed := by
  simp only [Action.Meets, saveFrame, Stack.holdsHeader, hfits, decide_true, if_true]
  exact h

theorem meets_restoreFrame (hfits : offset + Frame.size ≤ m.stack.size)
    (h : post () { s with frame := m.stack.readFrame s.memory offset, frameAt := offset }) :
    (m.restoreFrame offset : Action σ Unit).Meets s post allowed := by
  simp only [Action.Meets, restoreFrame, Stack.holdsHeader, hfits, decide_true, if_true]
  exact h

end

end MicroCompiler.Machine
