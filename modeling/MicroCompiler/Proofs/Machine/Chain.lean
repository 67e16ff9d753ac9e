import MicroCompiler.Proofs.Machine.Call

/-! The chain of live activations. Behind the running activation are its callers, whose headers are
on the stack; each lies wholly below its callee. As long as the bytes that are written belong to
locals of live activations, or to no part of the stack, or to the header of the running activation,
the headers of the callers stay as they are. -/

namespace MicroCompiler.Machine

variable {σ : Type}

/-- Code that is fit to run, on a stack whose offsets fit in a header. -/
structure Loaded (m : Machine σ) : Prop where
  types : m.types.Sound
  size : m.module.functions.size ≤ UInt32.size
  functions : ∀ (k : Nat) f, m.module.functions[k]? = some f → f.Sound m.types m.module
  wellFormed : ∀ (k : Nat) f, m.module.functions[k]? = some f → f.isWellFormed = true
  stack : m.stack.size < Frame.noCaller.toNat

theorem Loaded.stack_lt {m : Machine σ} (hm : Loaded m) : m.stack.size < UInt32.size := by
  have hnone : Frame.noCaller.toNat < UInt32.size := by decide
  exact Nat.lt_trans hm.stack hnone

theorem toNat_toUInt32 {n limit : Nat} (h : n < limit) (hlimit : limit ≤ UInt32.size) :
    n.toUInt32.toNat = n := by
  rw [Nat.toUInt32_eq, UInt32.toNat_ofNat_of_lt' (Nat.lt_of_lt_of_le h hlimit)]

/-- A header can name every function. -/
theorem func_toNat {m : Machine σ} {id : Ssa.FuncId} {f : Ssa.Function} {word : UInt32}
    (hsize : m.module.functions.size ≤ UInt32.size)
    (hf : m.module.functions[id.index]? = some f) (hword : word = id.index.toUInt32) :
    word.toNat = id.index := by
  rw [hword]
  exact toNat_toUInt32 (Array.getElem?_eq_some_iff.mp hf).1 hsize

/-- An activation: its header, and the stack offset that belongs to the header. -/
structure Activation where
  frame : Frame
  offset : Nat

def State.running (s : State σ) : Activation := ⟨s.frame, s.frameAt⟩

namespace Activation

/-- The activation whose header is where the caller's should be. -/
def caller (m : Machine σ) (memory : Memory) (a : Activation) : Activation :=
  ⟨m.stack.readFrame memory a.frame.caller.toNat, a.frame.caller.toNat⟩

/-- A byte of the stack belongs to a local of the activation. -/
def Owns (m : Machine σ) (a : Activation) (i : Nat) : Prop :=
  ∃ f, m.module.functions[a.frame.func.toNat]? = some f ∧
    ∃ p ∈ layout m.types (a.offset + Frame.size) f.locals.toList, p.Covers i

end Activation

/-- The second activation is the first, or its caller, or the caller of that, and so on. -/
inductive Live (m : Machine σ) (memory : Memory) : Activation → Activation → Prop
  | self (a : Activation) : Live m memory a a
  | caller {a b : Activation} (h : a.frame.hasCaller = true) (hrest : Live m memory
    (a.caller m memory) b) : Live m memory a b

/-- On the stack only locals of live activations changed, and perhaps the header of the running
one. -/
def Spares (m : Machine σ) (s s' : State σ) : Prop :=
  ∀ i < m.stack.size, (∀ a, Live m s.memory s.running a → ¬ a.Owns m i) →
    (i < s.frameAt ∨ s.frameAt + Frame.size ≤ i) →
    s'.memory.get (m.stack.address i) = s.memory.get (m.stack.address i)

/-- Whether a stack byte belongs to a local of the activation. -/
def Activation.ownsByte (m : Machine σ) (a : Activation) (i : Nat) : Bool :=
  m.module.functions[a.frame.func.toNat]?.any fun f =>
    (layout m.types (a.offset + Frame.size) f.locals.toList).any fun p => p.start ≤ i && i < p.stop

/-- Whether a stack byte belongs to a local of the activation or of its callers, as far back as a
depth. -/
def ownedByte (m : Machine σ) (memory : Memory) : Nat → Activation → Nat → Bool
  | 0, a, i => a.ownsByte m i
  | depth + 1, a, i =>
    a.ownsByte m i || (a.frame.hasCaller && m.ownedByte memory depth (a.caller m memory) i)

/-- Whether only locals that are live at some depth, or the running header, differ between two
states. -/
def sparesTo (m : Machine σ) (depth : Nat) (s s' : State σ) : Bool :=
  (List.range m.stack.size).all fun i =>
    (s.frameAt ≤ i && i < s.frameAt + Frame.size) || m.ownedByte s.memory depth s.running i ||
      s'.memory.get (m.stack.address i) == s.memory.get (m.stack.address i)

section

variable {m : Machine σ} {s s' : State σ}

theorem Activation.owns_of_ownsByte {a : Activation} {i : Nat} (h : a.ownsByte m i = true) :
    a.Owns m i := by
  simp only [ownsByte, Option.any_eq_true, List.any_eq_true, Bool.and_eq_true,
    decide_eq_true_eq] at h
  exact h

theorem exists_live_of_ownedByte {memory : Memory} {depth i : Nat} {a : Activation}
    (h : m.ownedByte memory depth a i = true) : ∃ b, Live m memory a b ∧ b.Owns m i := by
  induction depth generalizing a with
  | zero => exact ⟨a, .self a, Activation.owns_of_ownsByte h⟩
  | succ depth ih =>
    simp only [ownedByte, Bool.or_eq_true, Bool.and_eq_true] at h
    rcases h with h | ⟨hmore, hrest⟩
    · exact ⟨a, .self a, Activation.owns_of_ownsByte h⟩
    · obtain ⟨b, hlive, hown⟩ := ih hrest
      exact ⟨b, .caller hmore hlive, hown⟩

theorem Spares.of_sparesTo {depth : Nat} (h : m.sparesTo depth s s' = true) : m.Spares s s' := by
  intro i hi hother hapart
  simp only [sparesTo, List.all_eq_true, List.mem_range, Bool.or_eq_true, Bool.and_eq_true,
    decide_eq_true_eq, beq_iff_eq] at h
  rcases h i hi with (hheader | howned) | hsame
  · omega
  · obtain ⟨b, hlive, hown⟩ := exists_live_of_ownedByte howned
    exact absurd hown (hother b hlive)
  · exact hsame

theorem Spares.of_memory (h : s'.memory = s.memory) : m.Spares s s' := fun i _ _ _ => by rw [h]

/-- Saving the header of the running activation spares those of the callers. -/
theorem Spares.of_header (hstack : m.stack.size < UInt32.size)
    (hfits : s.frameAt + Frame.size ≤ m.stack.size)
    (h : s'.memory = m.stack.writeFrame s.memory s.frameAt s.frame) : m.Spares s s' := by
  intro i hi _ hapart
  rw [h]
  apply Stack.get_write_apart
  · omega
  · rw [Stack.length_encode]
    omega
  · rw [Stack.length_encode]
    exact hapart

end

/-! ### One activation -/

/-- What holds of an activation of `f` while there are `size` registers. -/
structure Activation.Runs (m : Machine σ) (size : Nat) (a : Activation) (f : Ssa.Function) :
    Prop where
  func : m.module.functions[a.frame.func.toNat]? = some f
  body : f.foreign = none
  cursor : a.frame.cursor.toNat < f.instructions.size
  base : 1 ≤ a.frame.base.toNat
  window : a.frame.base.toNat + f.values.size ≤ size
  low : a.offset + Frame.size ≤ a.frame.stackOffset.toNat
  high : a.frame.stackOffset.toNat ≤ m.stack.size
  /-- The locals have their places, or the layout is still to come. -/
  laid : layoutEnd m.types (a.offset + Frame.size) f.locals.toList ≤ a.frame.stackOffset.toNat ∨
    a.frame.cursor = 0 ∧ a.frame.stackOffset.toNat = a.offset + Frame.size

/-- The activation is at a call. -/
def Activation.Calls (a : Activation) (f : Ssa.Function) : Prop :=
  ∃ callee argc r, f.instructions[a.frame.cursor.toNat]? = some (.call callee argc r)

namespace Activation

variable {m : Machine σ} {size size' : Nat} {a a' : Activation} {f : Ssa.Function}

theorem Runs.sound (h : a.Runs m size f) (hm : Loaded m) : f.Sound m.types m.module :=
  hm.functions _ f h.func

theorem Runs.wellFormed (h : a.Runs m size f) (hm : Loaded m) : f.isWellFormed = true :=
  hm.wellFormed _ f h.func

theorem Runs.header_fits (h : a.Runs m size f) : a.offset + Frame.size ≤ m.stack.size :=
  Nat.le_trans h.low h.high

/-- Behind the first instruction the locals have their places. -/
theorem Runs.laid_of (h : a.Runs m size f) (hm : Loaded m) {ins : Ssa.Instruction}
    (hins : f.instructions[a.frame.cursor.toNat]? = some ins) (hne : ins ≠ .allocStack) :
    layoutEnd m.types (a.offset + Frame.size) f.locals.toList ≤ a.frame.stackOffset.toNat := by
  rcases h.laid with hlaid | ⟨hcursor, -⟩
  · exact hlaid
  · have hfirst := ((h.sound hm).body h.body).first
    rw [hcursor] at hins
    exact absurd (Option.some.inj (hins.symm.trans hfirst)) hne

/-- A target is a block behind the first instruction, at a position that a header can hold. -/
theorem Runs.target (h : a.Runs m size f) (hm : Loaded m)
    (hpositions : f.instructions.size ≤ UInt32.size) {target : Ssa.BlockId}
    (htarget : f.isTarget target = true) :
    ∃ e, f.blocks[target.index]? = some (some e) ∧ 0 < e.offset ∧
      e.offset < f.instructions.size ∧ e.offset.toUInt32.toNat = e.offset := by
  obtain ⟨e, he, hlt⟩ := Ssa.Function.isTarget_block (h.wellFormed hm) htarget
  refine ⟨e, he, ?_, hlt, toNat_toUInt32 hlt hpositions⟩
  apply ((h.sound hm).body h.body).later _ e he
  intro hzero
  simp [Ssa.Function.isTarget, hzero] at htarget

/-- An activation keeps running when only its position changes, and there may be more registers. -/
theorem Runs.goTo (h : a.Runs m size f) (hsize : size ≤ size') {cursor : UInt32}
    (hframe : a'.frame = { a.frame with cursor }) (hoffset : a'.offset = a.offset)
    (hlaid : layoutEnd m.types (a.offset + Frame.size) f.locals.toList ≤ a.frame.stackOffset.toNat)
    (hcursor : cursor.toNat < f.instructions.size) : a'.Runs m size' f where
  func := by rw [hframe]; exact h.func
  body := h.body
  cursor := by rw [hframe]; exact hcursor
  base := by rw [hframe]; exact h.base
  window := by rw [hframe]; exact Nat.le_trans h.window hsize
  low := by rw [hframe, hoffset]; exact h.low
  high := by rw [hframe]; exact h.high
  laid := by rw [hframe, hoffset]; exact .inl hlaid

theorem Runs.grow (h : a.Runs m size f) (hsize : size ≤ size') : a.Runs m size' f :=
  ⟨h.func, h.body, h.cursor, h.base, Nat.le_trans h.window hsize, h.low, h.high, h.laid⟩

/-- An activation that begins is at its first instruction, and its locals are still to come. -/
theorem Runs.of_entry (hm : Loaded m) {id : Ssa.FuncId}
    (hf : m.module.functions[id.index]? = some f)
    (hbody : f.foreign = none) (hfunc : a.frame.func = id.index.toUInt32)
    (hentry : ∃ e, f.blocks[0]? = some (some e) ∧ a.frame.cursor = e.offset.toUInt32)
    (hbase : 1 ≤ a.frame.base.toNat) (hwindow : a.frame.base.toNat + f.values.size ≤ size)
    (hoffset : a.frame.stackOffset.toNat = a.offset + Frame.size)
    (hfits : a.offset + Frame.size ≤ m.stack.size) : a.frame.cursor = 0 ∧ a.Runs m size f := by
  have hlaid := (hm.functions _ f hf).body hbody
  have hid := func_toNat hm.size hf hfunc
  have hcursor : a.frame.cursor = 0 := by
    obtain ⟨e, he, hcursor⟩ := hentry
    obtain ⟨n, hn⟩ := hlaid.entry
    obtain rfl : ⟨0, n + 1⟩ = e := by simpa using hn.symm.trans he
    exact hcursor
  refine ⟨hcursor, by rw [hid]; exact hf, hbody, ?_, hbase, hwindow,
    Nat.le_of_eq hoffset.symm, by omega, .inr ⟨hcursor, hoffset⟩⟩
  rw [hcursor]
  exact (Array.getElem?_eq_some_iff.mp hlaid.first).1

/-- The locals of an activation lie between its header and the end of the layout. -/
theorem Owns.bounds {i : Nat} (hown : a.Owns m i)
    (hfunc : m.module.functions[a.frame.func.toNat]? = some f) :
    a.offset + Frame.size ≤ i ∧ i < layoutEnd m.types (a.offset + Frame.size) f.locals.toList := by
  obtain ⟨g, hg, p, hp, hcovers⟩ := hown
  obtain rfl : f = g := Option.some.inj (hfunc.symm.trans hg)
  obtain ⟨hlow, hhigh⟩ := layout_bounds.2 p hp
  exact ⟨Nat.le_trans hlow hcovers.1, Nat.lt_of_lt_of_le hcovers.2 hhigh⟩

end Activation

/-! ### The beginning of an activation -/

theorem Entered.runs {m : Machine σ} {s s' : State σ} {f callee : Ssa.Function} {id : Ssa.FuncId}
    {args : List Ssa.ValueId} (hm : Loaded m)
    (hcallee : m.module.functions[id.index]? = some callee)
    (hbody : callee.foreign = none) (h : Entered m s f id callee args s') :
    s'.frame.cursor = 0 ∧ s'.running.Runs m s'.registers.size callee := by
  have hbase : 1 ≤ s'.running.frame.base.toNat := by
    simp only [State.running, h.base]
    omega
  exact Activation.Runs.of_entry hm hcallee hbody h.func h.cursor hbase h.window
    h.stackOffset h.fits

theorem Started.runs {m : Machine σ} {s s' : State σ} {f : Ssa.Function} {id : Ssa.FuncId}
    {args : List UInt64} (hm : Loaded m) (hf : m.module.functions[id.index]? = some f)
    (hbody : f.foreign = none) (h : Started m s id f args s') :
    s'.frame.cursor = 0 ∧ s'.running.Runs m s'.registers.size f := by
  apply Activation.Runs.of_entry (a := s'.running) hm hf hbody h.func h.cursor
  · simp [State.running, h.base]
  · simpa [State.running, h.base] using h.window
  · simp [State.running, h.frameAt, h.stackOffset]
  · simpa [State.running, h.frameAt] using h.fits

theorem Loaded.meets_start {m : Machine σ} {s : State σ} {f : Ssa.Function} {id : Ssa.FuncId}
    {args : List UInt64} (hm : Loaded m) (hf : m.module.functions[id.index]? = some f)
    (hbody : f.foreign = none) (hargs : args.length = f.argCount) :
    (m.start id f args).Meets s (fun _ s' => Started m s id f args s') (fun fault =>
      fault.isExhaustion = true) := by
  have hsound := hm.functions _ f hf
  obtain ⟨n, hentry⟩ := (hsound.body hbody).entry
  exact Machine.meets_start (fun _ h => h) (by rw [hargs]; exact hsound.args) hentry fun _ h => h

/-! ### The callers -/

/-- The callers of an activation, from the last one on. -/
def Suspended (m : Machine σ) (memory : Memory) (size : Nat) : Activation → List Activation → Prop
  | a, [] => a.frame.caller = Frame.noCaller
  | a, c :: rest =>
    a.frame.caller.toNat = c.offset ∧ m.stack.readFrame memory c.offset = c.frame ∧
      c.frame.stackOffset.toNat ≤ a.offset ∧ (∃ f, c.Runs m size f ∧ c.Calls f) ∧
      Suspended m memory size c rest

namespace Suspended

variable {m : Machine σ} {memory memory' : Memory} {size size' : Nat} {a a' b c : Activation}
  {callers : List Activation}

section

variable (h : Suspended m memory size a callers)

include h

/-- The callers stay while their headers do. -/
theorem keep (hcaller : a'.frame.caller = a.frame.caller) (hoffset : a'.offset = a.offset)
    (hsize : size ≤ size') (hmemory : ∀ c ∈ callers, m.stack.readFrame memory' c.offset =
      m.stack.readFrame memory c.offset) :
    Suspended m memory' size' a' callers := by
  induction callers generalizing a a' with
  | nil => exact hcaller.trans h
  | cons c rest ih =>
    obtain ⟨hat, hframe, hbelow, ⟨f, hruns, hcalls⟩, hrest⟩ := h
    refine ⟨by rw [hcaller, hat], ?_, by rw [hoffset]; exact hbelow,
      ⟨f, hruns.grow hsize, hcalls⟩, ?_⟩
    · rw [hmemory c (by simp), hframe]
    · exact ih hrest rfl rfl fun d hd => hmemory d (List.mem_cons_of_mem c hd)

/-- Every caller lies below the activation. -/
theorem below (hc : c ∈ callers) : c.frame.stackOffset.toNat ≤ a.offset := by
  induction callers generalizing a with
  | nil => simp at hc
  | cons d rest ih =>
    obtain ⟨-, -, hbelow, ⟨f, hruns, -⟩, hrest⟩ := h
    rcases List.mem_cons.mp hc with rfl | hc
    · exact hbelow
    · have hfirst := ih hrest hc
      have hlow := hruns.low
      omega

theorem runs (hc : c ∈ callers) : ∃ f, c.Runs m size f ∧ c.Calls f := by
  induction callers generalizing a with
  | nil => simp at hc
  | cons d rest ih =>
    obtain ⟨-, -, -, hruns, hrest⟩ := h
    rcases List.mem_cons.mp hc with rfl | hc
    · exact hruns
    · exact ih hrest hc

/-- The header of a caller lies below the activation and in the stack. -/
theorem header (hc : c ∈ callers) :
    c.offset + Frame.size ≤ a.offset ∧ c.offset + Frame.size ≤ m.stack.size := by
  obtain ⟨f, hruns, -⟩ := h.runs hc
  have hbelow := h.below hc
  have hlow := hruns.low
  have hhigh := hruns.high
  omega

/-- The live activations are the running one and its callers. -/
theorem live (hlive : Live m memory a b) : b = a ∨ b ∈ callers := by
  induction hlive generalizing callers with
  | self => exact .inl rfl
  | @caller a b hmore _ ih =>
    cases callers with
    | nil =>
      have hnone : a.frame.caller = Frame.noCaller := h
      simp [Frame.hasCaller, hnone] at hmore
    | cons c rest =>
      obtain ⟨hat, hframe, -, -, hrest⟩ := h
      have hc : a.caller m memory = c := by
        simp only [Activation.caller, hat, hframe]
      rw [hc] at ih
      rcases ih hrest with rfl | hb
      · exact .inr (by simp)
      · exact .inr (List.mem_cons_of_mem c hb)

end

/-- No live activation has a local in the header of a caller. -/
theorem header_apart (hm : Loaded m) (h : Suspended m memory size a callers)
    (hfunc : ∃ f, m.module.functions[a.frame.func.toNat]? = some f) (hc : c ∈ callers)
    (hb : b = a ∨ b ∈ callers) {i : Nat} (hlow : c.offset ≤ i) (hhigh : i < c.offset + Frame.size) :
    ¬ b.Owns m i := by
  induction callers generalizing a with
  | nil => simp at hc
  | cons d rest ih =>
    have hheader := h.header hc
    obtain ⟨-, -, hbelow, ⟨f, hruns, callee, argc, r, hcall⟩, hrest⟩ := h
    intro hown
    rcases hb with rfl | hb
    · -- The running activation lies above all callers.
      obtain ⟨g, hg⟩ := hfunc
      have := (hown.bounds hg).1
      omega
    rcases List.mem_cons.mp hc with rfl | hc
    · -- The caller's own locals lie behind its header, those of older callers below it.
      rcases List.mem_cons.mp hb with rfl | hb
      · have := (hown.bounds hruns.func).1
        omega
      · obtain ⟨g, hg, callee', argc', r', hcall'⟩ := hrest.runs hb
        have hlaid := hg.laid_of hm hcall' (by simp)
        have := (hown.bounds hg.func).2
        have := hrest.below hb
        omega
    · exact ih hrest ⟨f, hruns.func⟩ hc (List.mem_cons.mp hb) hown

/-- A step that spares the headers leaves them as they are. -/
theorem spared {s s' : State σ} (hm : Loaded m) (h : Suspended m s.memory size s.running callers)
    (hfunc : ∃ f, m.module.functions[s.frame.func.toNat]? = some f) (hspares : m.Spares s s')
    (hc : c ∈ callers) :
    m.stack.readFrame s'.memory c.offset = m.stack.readFrame s.memory c.offset := by
  obtain ⟨hbelow, hfits⟩ := h.header hc
  apply Stack.readFrame_congr
  intro i hlow hhigh
  apply hspares i (by omega)
  · intro b hlive
    exact h.header_apart hm hfunc hc (h.live hlive) hlow hhigh
  · have : s.running.offset = s.frameAt := rfl
    omega

end Suspended

end MicroCompiler.Machine
