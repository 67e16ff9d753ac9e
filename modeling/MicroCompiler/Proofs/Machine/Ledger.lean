import MicroCompiler.Proofs.Machine.Run
import MicroCompiler.Proofs.Machine.Transfer

/-! The ledger of a run. Beside the state of the machine goes a ledger of the live activations: the
callers as they were when they called, and how often each activation laid out its locals. One step
keeps the live activations apart on the stack if it spares the saved headers, so every run does; a
return finds the header that the call wrote. -/

namespace MicroCompiler.Machine

variable {σ : Type}

/-! ### Ledgers -/

/-- A live activation, and how often its locals were laid out. -/
structure Record where
  activation : Activation
  layouts : Nat

/-- How often the locals of the running activation were laid out, and its callers, the last one
first. -/
structure Ledger where
  layouts : Nat
  callers : List Record

namespace Ledger

/-- The ledger at the beginning of a run. -/
def first : Ledger := ⟨0, []⟩

/-- The ledger after an instruction of the activation `a`. -/
def perform (l : Ledger) (a : Activation) : Turn → Ledger
  | .layout => { l with layouts := l.layouts + 1 }
  | .entry => ⟨0, ⟨a, l.layouts⟩ :: l.callers⟩
  | .exit =>
    match l.callers with
    | [] => l
    | c :: rest => ⟨c.layouts, rest⟩
  | .onward => l

/-- The ledger after the next step. -/
def next (m : Machine σ) (s : State σ) (l : Ledger) : Ledger :=
  match s.frame.current? m.module with
  | some (_, ins) => l.perform s.running (turn m.module ins)
  | none => l

/-- The running activation and its callers. -/
def live (s : State σ) (l : Ledger) : List Record := ⟨s.running, l.layouts⟩ :: l.callers

end Ledger

/-- The ledger beside the states of a run. -/
def Ghost.ledger : Ghost σ Ledger := ⟨fun _ => .first, fun m s l => l.next m s⟩

/-! ### Regions -/

/-- The stack bytes from one offset up to another. -/
structure Region where
  start : Nat
  stop : Nat
  deriving DecidableEq, Repr

def Region.Apart (r q : Region) : Prop := r.stop ≤ q.start ∨ q.stop ≤ r.start

instance : DecidableRel Region.Apart :=
  fun r q => inferInstanceAs (Decidable (r.stop ≤ q.start ∨ q.stop ≤ r.start))

namespace Record

/-- The places of the locals, once they are laid out. -/
def places (m : Machine σ) (r : Record) : List Place :=
  if r.layouts = 0 then []
  else
    match m.module.functions[r.activation.frame.func.toNat]? with
    | some f => layout m.types (r.activation.offset + Frame.size) f.locals.toList
    | none => []

/-- What an activation has on the stack: its header and its locals. -/
def regions (m : Machine σ) (r : Record) : List Region :=
  ⟨r.activation.offset, r.activation.offset + Frame.size⟩ :: (r.places m).map fun p =>
    ⟨p.start, p.stop⟩

end Record

def Ledger.regions (m : Machine σ) (s : State σ) (l : Ledger) : List Region :=
  (l.live s).flatMap (·.regions m)

/-- The live activations share no byte of the stack, and every local that was laid out has an
aligned address in its register. -/
structure Intact (m : Machine σ) (s : State σ) (l : Ledger) : Prop where
  inside : ∀ r ∈ l.regions m s, r.stop ≤ m.stack.size
  apart : (l.regions m s).Pairwise Region.Apart
  once : ∀ r ∈ l.live s, r.layouts ≤ 1
  locals : ∀ r ∈ l.live s, ∃ g, m.module.get ⟨r.activation.frame.func.toNat⟩ = .ok g ∧
    (r.layouts = 1 → ∀ x ∈ g.locals, ∃ p ∈ r.places m, p.value = x.value ∧ m.types.info x.type =
      .ok p.type ∧ s.registers[r.activation.frame.base.toNat + x.value.index]? =
      some (m.stack.address p.start) ∧ p.type.align ∣ (m.stack.address p.start).toNat)

/-- The running activation returns to the caller `c`: the header on the stack is that of `c`, as it
was when it called, and `c` goes on one instruction behind that call. -/
structure ReturnsTo (m : Machine σ) (s : State σ) (c : Activation) : Prop where
  saved : m.stack.readFrame s.memory s.frame.caller.toNat = c.frame
  call : ∃ g argc r, c.frame.current? m.module = some (g, .call ⟨s.frame.func.toNat⟩ argc r)
  position : (c.frame.cursor + 1).toNat = c.frame.cursor.toNat + 1
  resumes : ∃ s', m.step s = .ok none s' ∧
    s'.frame = { c.frame with cursor := c.frame.cursor + 1 } ∧
    s'.frameAt = c.offset

/-! ### Alignment -/

theorem align_dvd_sixteen (t : TypeInfo) : t.align ∣ 16 := by
  have hsize : t.size ∣ 16 := by
    have h := size_mem_accessWidths t
    simp only [accessWidths, List.mem_cons, List.not_mem_nil, or_false] at h
    rcases h with h | h | h | h <;> rw [h] <;> decide
  exact hsize

/-- An aligned offset in a stack at a multiple of 16 is an aligned address. -/
theorem Stack.align_dvd_address {stack : Stack} (hbase : 16 ∣ stack.base.toNat) {t : TypeInfo}
    {offset : Nat} (hoffset : t.align ∣ offset) : t.align ∣ (stack.address offset).toNat := by
  have hpower : t.align ∣ 2 ^ 64 := Nat.dvd_trans (align_dvd_sixteen t) (by decide)
  rw [Stack.address, UInt64.toNat_add, Nat.dvd_mod_iff hpower]
  refine Nat.dvd_add (Nat.dvd_trans (align_dvd_sixteen t) hbase) ?_
  rw [Nat.toUInt64_eq, UInt64.toNat_ofNat', Nat.dvd_mod_iff hpower]
  exact hoffset

/-! ### One activation -/

/-- The registers of the locals hold the addresses of their places. -/
def Activation.Seated (m : Machine σ) (registers : Array UInt64) (a : Activation)
    (f : Ssa.Function) : Prop :=
  ∀ p ∈ layout m.types (a.offset + Frame.size) f.locals.toList,
    registers[a.frame.base.toNat + p.value.index]? = some (m.stack.address p.start)

/-- What holds of every live activation. -/
structure Record.Sits (m : Machine σ) (registers : Array UInt64) (r : Record) (f : Ssa.Function) :
    Prop where
  func : m.module.functions[r.activation.frame.func.toNat]? = some f
  low : r.activation.offset + Frame.size ≤ r.activation.frame.stackOffset.toNat
  high : r.activation.frame.stackOffset.toNat ≤ m.stack.size
  once : r.layouts ≤ 1
  laid : r.layouts = 1 →
    layoutEnd m.types (r.activation.offset + Frame.size) f.locals.toList ≤
      r.activation.frame.stackOffset.toNat ∧ r.activation.Seated m registers f

section

variable {m : Machine σ} {registers registers' : Array UInt64} {a a' : Activation}
  {f : Ssa.Function} {r : Record}

/-- The register of a local lies in the window of its activation. -/
theorem Activation.Seated.keep (h : a.Seated m registers f) (hf : f.Sound m.types m.module)
    (hbase : a'.frame.base = a.frame.base) (hoffset : a'.offset = a.offset)
    (hregisters : ∀ l ∈ f.locals, l.value.index < f.values.size →
      registers'[a.frame.base.toNat + l.value.index]? =
      registers[a.frame.base.toNat + l.value.index]?) :
    a'.Seated m registers' f := by
  intro p hp
  rw [hoffset] at hp
  obtain ⟨⟨l, hl, hvalue, -⟩, -⟩ := mem_layout hp
  obtain ⟨-, pointer, hpointer, -⟩ := hf.locals l (by simpa using hl)
  have hlt := (Array.getElem?_eq_some_iff.mp hpointer).1
  rw [hbase, ← hvalue, hregisters l (by simpa using hl) hlt, hvalue]
  exact h p hp

namespace Record.Sits

theorem places_eq (h : r.Sits m registers f) (hone : r.layouts = 1) :
    r.places m = layout m.types (r.activation.offset + Frame.size) f.locals.toList := by
  simp [places, hone, h.func]

theorem layouts_eq_one (h : r.Sits m registers f) {p : Place} (hp : p ∈ r.places m) :
    r.layouts = 1 := by
  have honce := h.once
  have hne : r.layouts ≠ 0 := by
    intro hzero
    simp [places, hzero] at hp
  omega

/-- Every place lies between the header and the first free byte. -/
theorem place_bounds (h : r.Sits m registers f) {p : Place} (hp : p ∈ r.places m) :
    r.activation.offset + Frame.size ≤ p.start ∧ p.stop ≤ r.activation.frame.stackOffset.toNat := by
  have hone := h.layouts_eq_one hp
  rw [h.places_eq hone] at hp
  obtain ⟨hlow, hhigh⟩ := layout_bounds.2 p hp
  exact ⟨hlow, Nat.le_trans hhigh (h.laid hone).1⟩

theorem region_bounds (h : r.Sits m registers f) {q : Region} (hq : q ∈ r.regions m) :
    r.activation.offset ≤ q.start ∧ q.stop ≤ r.activation.frame.stackOffset.toNat := by
  rcases List.mem_cons.mp hq with rfl | hq
  · exact ⟨Nat.le_refl _, h.low⟩
  · obtain ⟨p, hp, rfl⟩ := List.mem_map.mp hq
    obtain ⟨hlow, hhigh⟩ := h.place_bounds hp
    exact ⟨Nat.le_trans (Nat.le_add_right _ _) hlow, hhigh⟩

end Record.Sits

theorem layout_pairwise {types : TypeTable} {offset : Nat} {locals : List Ssa.Local} :
    (layout types offset locals).Pairwise fun p q => p.stop ≤ q.start := by
  induction locals generalizing offset with
  | nil => exact .nil
  | cons l rest ih =>
    cases ht : types.infos[l.type.index]? with
    | none => simp [layout, ht]
    | some t =>
      simp only [layout, ht]
      exact .cons (fun q hq => (layout_bounds.2 q hq).1) ih

/-- The header and the locals of one activation lie apart. -/
theorem Record.Sits.regions_apart (h : r.Sits m registers f) :
    (r.regions m).Pairwise Region.Apart := by
  refine .cons ?_ ?_
  · intro q hq
    obtain ⟨p, hp, rfl⟩ := List.mem_map.mp hq
    exact .inl (h.place_bounds hp).1
  · rw [List.pairwise_map]
    rcases Nat.eq_zero_or_pos r.layouts with hzero | hpos
    · simp [places, hzero]
    · have honce := h.once
      rw [h.places_eq (by omega)]
      exact layout_pairwise.imp fun hle => .inl hle

end

/-! ### The callers -/

/-- The caller `c` waits for the activation `a`, with its locals laid out. -/
def Record.Awaits (m : Machine σ) (registers : Array UInt64) (c : Record) (a : Activation) : Prop :=
  ∃ g, m.module.functions[c.activation.frame.func.toNat]? = some g ∧
    a.frame.base.toNat = c.activation.frame.base.toNat + g.values.size + 1 ∧ c.layouts = 1 ∧
    c.activation.Seated m registers g ∧
    ∃ argc r, g.instructions[c.activation.frame.cursor.toNat]? =
    some (.call ⟨a.frame.func.toNat⟩ argc r)

/-- Every caller waits for its callee, from the last one on. -/
def Queued (m : Machine σ) (registers : Array UInt64) : Activation → List Record → Prop
  | _, [] => True
  | a, c :: rest => c.Awaits m registers a ∧ Queued m registers c.activation rest

section

variable {m : Machine σ} {registers registers' : Array UInt64} {memory : Memory} {size : Nat}
  {a a' : Activation}

/-- The callers only need the registers below those of their callees. -/
theorem Queued.keep (hm : Loaded m) {callers : List Record} (h : Queued m registers a callers)
    (hfunc : a'.frame.func = a.frame.func) (hbase : a'.frame.base = a.frame.base)
    (hregisters : ∀ k < a.frame.base.toNat - 1, registers'[k]? = registers[k]?) :
    Queued m registers' a' callers := by
  induction callers generalizing a a' with
  | nil => trivial
  | cons c rest ih =>
    obtain ⟨⟨g, hg, hwindow, hone, hseated, argc, r, hcall⟩, hrest⟩ := h
    have hkept : c.activation.Seated m registers' g :=
      hseated.keep (hm.functions _ g hg) rfl rfl fun l _ hlt => hregisters _ (by omega)
    refine ⟨⟨g, hg, by rw [hbase]; exact hwindow, hone, hkept, argc, r, by rw [hfunc]; exact hcall⟩,
      ?_⟩
    exact ih hrest rfl rfl fun k hk => hregisters k (by omega)

theorem Queued.awaits {callers : List Record} (h : Queued m registers a callers) {c : Record}
    (hc : c ∈ callers) : ∃ b, c.Awaits m registers b := by
  induction callers generalizing a with
  | nil => simp at hc
  | cons d rest ih =>
    rcases List.mem_cons.mp hc with rfl | hc
    · exact ⟨a, h.1⟩
    · exact ih h.2 hc

/-- Each activation lies wholly above all that are older. -/
theorem Suspended.ordered {callers : List Activation} (h : Suspended m memory size a callers) :
    (a :: callers).Pairwise fun b c => c.frame.stackOffset.toNat ≤ b.offset := by
  induction callers generalizing a with
  | nil => simp
  | cons c rest ih =>
    obtain ⟨-, -, -, -, hrest⟩ := id h
    exact .cons (fun b hb => h.below hb) (ih hrest)

end

/-- A return writes the register below the callee and the result of the call. -/
theorem State.getElem?_returned {s : State σ} {c : Frame} {r : Option Ssa.ValueId} {word : UInt64}
    {k : Nat} (hslot : k ≠ s.frame.base.toNat - 1) (hresult : ∀ v ∈ r, c.base.toNat + v.index ≠ k) :
    (s.returned c r word).registers[k]? = s.registers[k]? := by
  cases r with
  | none =>
    simp only [State.returned, State.next, State.goTo, State.back]
    rw [Array.getElem?_setIfInBounds, if_neg (by omega)]
  | some v =>
    have hv := hresult v rfl
    simp only [State.returned, State.next, State.goTo, State.back, State.assign]
    rw [Array.getElem?_setIfInBounds, if_neg hv, Array.getElem?_setIfInBounds, if_neg (by omega)]

/-! ### The invariant -/

/-- The running activation of `f` and its callers are in order, and are as the ledger says. -/
structure Stacked (m : Machine σ) (s : State σ) (l : Ledger) (f : Ssa.Function) : Prop where
  order : Orderly m s f (l.callers.map (·.activation))
  layouts : l.layouts = if s.frame.cursor.toNat = 0 then 0 else 1
  fresh : s.frame.cursor.toNat = 0 → s.frame.stackOffset.toNat = s.frameAt + Frame.size
  seated : s.frame.cursor.toNat ≠ 0 → s.running.Seated m s.registers f
  queued : Queued m s.registers s.running l.callers

namespace Stacked

variable {m : Machine σ} {s s' : State σ} {l : Ledger} {f : Ssa.Function}

/-- Behind the first instruction the position is not zero. -/
theorem position_ne_zero (hm : Loaded m) (h : Stacked m s l f) {ins : Ssa.Instruction}
    (hins : f.instructions[s.frame.cursor.toNat]? = some ins) (hne : ins ≠ .allocStack) :
    s.frame.cursor.toNat ≠ 0 := by
  intro hzero
  have hfirst := ((h.order.running.sound hm).body h.order.running.body).first
  rw [hzero] at hins
  exact hne (Option.some.inj (hins.symm.trans hfirst))

theorem layouts_eq_one (hm : Loaded m) (h : Stacked m s l f) {ins : Ssa.Instruction}
    (hins : f.instructions[s.frame.cursor.toNat]? = some ins) (hne : ins ≠ .allocStack) :
    l.layouts = 1 := by
  rw [h.layouts, if_neg (h.position_ne_zero hm hins hne)]

theorem sits_running (h : Stacked m s l f) :
    Record.Sits m s.registers ⟨s.running, l.layouts⟩ f := by
  refine ⟨h.order.running.func, h.order.running.low, h.order.running.high, ?_, fun hone => ?_⟩
  · simp only [h.layouts]
    split <;> omega
  · have hne : s.frame.cursor.toNat ≠ 0 := by
      intro hzero
      simp [h.layouts, hzero] at hone
    refine ⟨?_, h.seated hne⟩
    rcases h.order.running.laid with hlaid | ⟨hcursor, -⟩
    · exact hlaid
    · have hzero : s.frame.cursor = 0 := hcursor
      exact absurd (by rw [hzero]; rfl) hne

theorem sits (hm : Loaded m) (h : Stacked m s l f) {r : Record} (hr : r ∈ l.live s) :
    ∃ g, r.Sits m s.registers g := by
  rcases List.mem_cons.mp hr with rfl | hr
  · exact ⟨f, h.sits_running⟩
  · obtain ⟨g, hruns, id, argc, v, hcall⟩ := h.order.suspended.runs (List.mem_map_of_mem hr)
    obtain ⟨b, g', hg', -, hone, hseated, -⟩ := h.queued.awaits hr
    obtain rfl : g = g' := Option.some.inj (hruns.func.symm.trans hg')
    exact ⟨g, hg', hruns.low, hruns.high, Nat.le_of_eq hone, fun _ =>
      ⟨hruns.laid_of hm hcall (by simp), hseated⟩⟩

/-- The live activations keep apart. -/
theorem intact (hm : Loaded m) (hbase : 16 ∣ m.stack.base.toNat) (h : Stacked m s l f) :
    Intact m s l where
  inside := by
    intro q hq
    obtain ⟨r, hr, hq⟩ := List.mem_flatMap.mp hq
    obtain ⟨g, hg⟩ := h.sits hm hr
    exact Nat.le_trans (hg.region_bounds hq).2 hg.high
  apart := by
    have hordered : ((l.live s).map (·.activation)).Pairwise fun b c =>
        c.frame.stackOffset.toNat ≤ b.offset :=
      h.order.suspended.ordered
    rw [List.pairwise_map] at hordered
    refine List.pairwise_flatMap.mpr ⟨fun r hr => (h.sits hm hr).choose_spec.regions_apart, ?_⟩
    refine hordered.imp_of_mem fun {b c} hb hc hle x hx y hy => .inr ?_
    obtain ⟨f', hf'⟩ := h.sits hm hb
    obtain ⟨g, hg⟩ := h.sits hm hc
    have hlow := (hf'.region_bounds hx).1
    have hhigh := (hg.region_bounds hy).2
    omega
  once := fun r hr => (h.sits hm hr).choose_spec.once
  locals := by
    intro r hr
    obtain ⟨g, hg⟩ := h.sits hm hr
    refine ⟨g, mapError_eq_ok.mpr (fetch_eq_ok.mpr hg.func), fun hone x hx => ?_⟩
    have hsound := hm.functions _ g hg.func
    have hinfo : ∀ y ∈ g.locals.toList, ∃ t, m.types.infos[y.type.index]? = some t := by
      intro y hy
      obtain ⟨-, pointer, -, hpointer⟩ := hsound.locals y (by simpa using hy)
      exact (hm.types.pointee_registered hpointer).info
    obtain ⟨p, hp, hvalue, htype⟩ : ∃ p ∈ Machine.layout m.types (r.activation.offset +
      Frame.size) g.locals.toList,
        p.value = x.value ∧ m.types.infos[x.type.index]? = some p.type :=
        exists_place hinfo (by simpa using hx)
    refine ⟨p, by rw [hg.places_eq hone]; exact hp, hvalue, TypeTable.info_eq_ok.mpr htype, ?_, ?_⟩
    · rw [← hvalue]
      exact (hg.laid hone).2 p hp
    · exact Stack.align_dvd_address hbase (mem_layout hp).2

/-! ### Steps -/

section

variable (hm : Numbered m) (h : Stacked m s l f)

include hm h

/-- The layout of the locals. -/
theorem layout {registers : Array UInt64} {stackOffset : UInt32}
    (hzero : s.frame.cursor.toNat = 0) (hfollowing : 1 < f.instructions.size)
    (hsize : registers.size = s.registers.size)
    (hothers : ∀ k : Nat, (∀ x ∈ f.locals, s.frame.base.toNat + x.value.index ≠ k) →
      registers[k]? = s.registers[k]?)
    (hplaces : ∀ p ∈ Machine.layout m.types s.frame.stackOffset.toNat f.locals.toList,
      registers[s.frame.base.toNat + p.value.index]? = some (m.stack.address p.start))
    (hend : stackOffset.toNat = layoutEnd m.types s.frame.stackOffset.toNat f.locals.toList)
    (hfits : stackOffset.toNat ≤ m.stack.size) :
    Stacked m (State.next { s with registers, frame := { s.frame with stackOffset } })
      (l.perform s.running .layout) f := by
  have hone : (s.frame.cursor + 1).toNat = 1 := by rw [toNat_succ (by rw [hzero]; decide), hzero]
  have hoffset := h.fresh hzero
  rw [hoffset] at hend hplaces
  have hlow : s.frameAt + Frame.size ≤ stackOffset.toNat := by
    rw [hend]
    exact layout_bounds.1
  have hruns := h.order.running
  refine ⟨⟨⟨hruns.func, hruns.body, ?_, hruns.base, ?_, hlow, hfits, .inl (Nat.le_of_eq hend.symm)⟩,
    ?_⟩, ?_, ?_, ?_, ?_⟩
  · exact Nat.lt_of_le_of_lt (Nat.le_of_eq hone) hfollowing
  · exact Nat.le_trans hruns.window (Nat.le_of_eq hsize.symm)
  · exact h.order.suspended.keep rfl rfl (Nat.le_of_eq hsize.symm) fun _ _ => rfl
  · have hbefore := h.layouts
    rw [if_pos hzero] at hbefore
    simp only [Ledger.perform, State.next, State.goTo, hone, hbefore]
    rfl
  · intro heq
    simp only [State.next, State.goTo, hone] at heq
    omega
  · exact fun _ => hplaces
  · refine h.queued.keep hm.toLoaded rfl rfl fun k hk => hothers k fun x _ => ?_
    simp only [State.running] at hk
    omega

/-- A callee begins, and its caller waits. -/
theorem entry {id : Ssa.FuncId} {argc : Nat} {r : Option Ssa.ValueId} {callee : Ssa.Function}
    {args : List Ssa.ValueId}
    (hcall : f.instructions[s.frame.cursor.toNat]? = some (.call id argc r))
    (hcallee : m.module.functions[id.index]? = some callee) (hbody : callee.foreign = none)
    (hentered : Entered m s f id callee args s') :
    Stacked m s' (l.perform s.running .entry) callee := by
  have hloaded := hm.toLoaded
  have hstack := hloaded.stack_lt
  have hwindow := h.order.running.window
  have hheader := h.order.running.header_fits
  have hbase := hentered.base
  obtain ⟨hcursor, hruns⟩ := hentered.runs hloaded hcallee hbody
  have hzero : s'.frame.cursor.toNat = 0 := by rw [hcursor]; rfl
  have hid := func_toNat hm.size hcallee hentered.func
  simp only [State.running] at hwindow hheader
  have hkept : ∀ k < s.frame.base.toNat + f.values.size, s'.registers[k]? = s.registers[k]? :=
    fun k hk => hentered.kept k (by omega) (by omega)
  refine ⟨⟨hruns, ?_⟩, by rw [if_pos hzero]; rfl, fun _ => hentered.stackOffset, fun hne =>
    absurd hzero hne, ?_, ?_⟩
  · refine ⟨hentered.caller, ?_, hentered.above, ⟨f, h.order.running.grow hentered.grown,
      id, argc, r, hcall⟩, ?_⟩
    · rw [hentered.memory]
      exact Stack.readFrame_writeFrame _ _ _ _
    · refine h.order.suspended.keep rfl rfl hentered.grown fun c hc => ?_
      obtain ⟨hbelow, hfits⟩ := h.order.suspended.header hc
      simp only [State.running] at hbelow
      rw [hentered.memory]
      apply Stack.readFrame_writeFrame_apart
      · omega
      · omega
      · omega
  · have hseated := h.seated (h.position_ne_zero hloaded hcall (by simp))
    refine ⟨f, h.order.running.func, hbase, h.layouts_eq_one hloaded hcall (by simp),
      ?_, argc, r, ?_⟩
    · exact hseated.keep (h.order.running.sound hloaded) rfl rfl fun x _ hlt =>
        hkept _ (Nat.add_lt_add_left hlt _)
    · simpa only [State.running, hid] using hcall
  · refine h.queued.keep hloaded rfl rfl fun k hk => hkept k ?_
    simp only [State.running] at hk
    omega

/-- The running activation ends, and its caller goes on. -/
theorem exit {c : Record} {rest : List Record} (hcallers : l.callers = c :: rest)
    {g : Ssa.Function} {id : Ssa.FuncId} {argc : Nat} {r : Option Ssa.ValueId}
    (hg : m.module.functions[c.activation.frame.func.toNat]? = some g)
    (hcall : g.instructions[c.activation.frame.cursor.toNat]? = some (.call id argc r))
    (word : UInt64) :
    Stacked m (s.returned c.activation.frame r word) (l.perform s.running .exit) g := by
  have hloaded := hm.toLoaded
  have hsuspended := h.order.suspended
  have hqueued := h.queued
  simp only [hcallers, List.map_cons] at hsuspended hqueued
  obtain ⟨hlink, -, -, ⟨g', hruns, -⟩, hrest⟩ := hsuspended
  obtain rfl : g = g' := Option.some.inj (hg.symm.trans hruns.func)
  obtain ⟨⟨g', hg', hwindow, hone, hseated, -⟩, hqueue⟩ := hqueued
  obtain rfl : g = g' := Option.some.inj (hg.symm.trans hg')
  have hsound := hruns.sound hloaded
  have hat : s.frame.caller.toNat = c.activation.offset := hlink
  have hlt := Ssa.Function.next_lt (hruns.wellFormed hloaded) (hsound.body hruns.body) hcall rfl
  have hpositions := hm.positions _ g hg
  have hcursor : (c.activation.frame.cursor + 1).toNat = c.activation.frame.cursor.toNat + 1 :=
    toNat_succ (by omega)
  have hgrown : s.registers.size ≤ (s.returned c.activation.frame r word).registers.size := by simp
  have hrunning : (s.returned c.activation.frame r word).running =
      ⟨{ c.activation.frame with cursor := c.activation.frame.cursor + 1 },
      c.activation.offset⟩ := by
    simp only [State.running, State.returned_frame, State.returned_frameAt, hat]
  have hne : ((s.returned c.activation.frame r word).frame).cursor.toNat ≠ 0 := by
    rw [State.returned_frame]
    simp only [hcursor]
    omega
  simp only [State.running] at hwindow
  have hledger : l.perform s.running .exit = ⟨c.layouts, rest⟩ := by
    simp only [Ledger.perform, hcallers]
  rw [hledger]
  refine ⟨⟨?_, ?_⟩, by rw [if_neg hne]; exact hone, fun heq => absurd heq hne, fun _ => ?_, ?_⟩
  · exact hruns.goTo hgrown (by rw [hrunning]) (by rw [hrunning]) (hruns.laid_of hloaded hcall
      (by simp)) (by rw [hcursor]; exact hlt)
  · exact hrest.keep (by rw [hrunning]) (by rw [hrunning]) hgrown (by simp)
  · refine hseated.keep hsound (by rw [hrunning]) (by rw [hrunning]) fun x hx hvalue =>
      State.getElem?_returned (by omega) ?_
    intro v hv heq
    refine (hsound.results _ _ v hcall hv).2 x hx ?_
    cases hxv : x.value
    cases v
    simp only [hxv] at heq
    congr 1
    omega
  · refine hqueue.keep hloaded (by rw [hrunning]) (by rw [hrunning]) fun k hk =>
      State.getElem?_returned (by omega) fun v _ => ?_
    omega

/-- The running activation goes on. -/
theorem onward {cursor : UInt32} {ins : Ssa.Instruction}
    (hins : f.instructions[s.frame.cursor.toNat]? = some ins) (hne : ins ≠ .allocStack)
    (hframe : s'.frame = { s.frame with cursor }) (hat : s'.frameAt = s.frameAt)
    (hposition : 0 < cursor.toNat ∧ cursor.toNat < f.instructions.size)
    (hsize : s'.registers.size = s.registers.size)
    (hbelow : ∀ k < s.frame.base.toNat, s'.registers[k]? = s.registers[k]?)
      (hlocals : ∀ x ∈ f.locals, s'.registers[s.frame.base.toNat + x.value.index]? =
        s.registers[s.frame.base.toNat + x.value.index]?)
    (hspares : m.Spares s s') : Stacked m s' l f := by
  have hloaded := hm.toLoaded
  have hgrown := Nat.le_of_eq hsize.symm
  have hrunning : s'.running = ⟨{ s.frame with cursor }, s.frameAt⟩ := by
    simp only [State.running, hframe, hat]
  have hcursor : s'.frame.cursor.toNat ≠ 0 := by
    rw [hframe]
    exact Nat.ne_of_gt hposition.1
  have hruns : s'.running.Runs m s'.registers.size f :=
    h.order.running.goTo hgrown hframe hat (h.order.running.laid_of hloaded hins hne) hposition.2
  refine ⟨⟨hruns, ?_⟩, ?_, fun heq => absurd heq hcursor, fun _ => ?_, ?_⟩
  · refine h.order.suspended.keep (by rw [hrunning]; rfl) hat hgrown fun c hc => ?_
    exact h.order.suspended.spared hloaded ⟨f, h.order.running.func⟩ hspares hc
  · rw [if_neg hcursor, h.layouts_eq_one hloaded hins hne]
  · exact (h.seated (h.position_ne_zero hloaded hins hne)).keep (h.order.running.sound hloaded)
      (by rw [hrunning]; rfl) hat fun x hx _ => hlocals x hx
  · refine h.queued.keep hloaded (by rw [hrunning]; rfl) (by rw [hrunning]; rfl) fun k hk =>
      hbelow k ?_
    simp only [State.running] at hk
    omega

/-- Every turn keeps the stack in order, if it spares the headers. -/
theorem transfer {t : Turn} (ht : Transfer m s f (l.callers.map (·.activation)) t s')
    (hspares : m.Spares s s') : ∃ g, Stacked m s' (l.perform s.running t) g := by
  cases ht with
  | layout hzero hfollowing hsize hothers hplaces hend hfits =>
    exact ⟨f, h.layout hm hzero hfollowing hsize hothers hplaces hend hfits⟩
  | entry hcall hcallee hbody hentered => exact ⟨_, h.entry hm hcall hcallee hbody hentered⟩
  | exit hfirst hg hcall =>
    obtain ⟨c, rest, hcallers, rfl, -⟩ := List.map_eq_cons_iff.mp hfirst
    exact ⟨_, h.exit hm hcallers hg hcall _⟩
  | onward hins hne hframe hat hposition hsize hbelow hlocals =>
    exact ⟨f, h.onward hm hins hne hframe hat hposition hsize hbelow hlocals hspares⟩

end

theorem current (h : Stacked m s l f) : ∃ ins, s.frame.current? m.module = some (f, ins) ∧
    f.instructions[s.frame.cursor.toNat]? = some ins := by
  have hins := Array.getElem?_eq_getElem h.order.running.cursor
  exact ⟨_, Frame.current?_eq_some.mpr ⟨h.order.running.func, hins⟩, hins⟩

theorem step (hm : Numbered m) (h : Stacked m s l f) (hstep : m.step s = .ok none s')
    (hspares : m.Spares s s') : ∃ g, Stacked m s' (l.next m s) g := by
  obtain ⟨ins, hcurrent, hins⟩ := h.current
  have hmeets := h.order.meets_turn hm hins
  rw [step_eq_perform hcurrent] at hstep
  simp only [Action.Meets, hstep] at hmeets
  simp only [Ledger.next, hcurrent]
  exact h.transfer hm (hmeets trivial) hspares

/-- A return finds the header that the call wrote. -/
theorem returnsTo (hm : Numbered m) (h : Stacked m s l f) {g : Ssa.Function} {ins : Ssa.Instruction}
    (hcurrent : s.frame.current? m.module = some (g, ins)) (hexit : turn m.module ins = .exit)
    {c : Record} {rest : List Record} (hcallers : l.callers = c :: rest) :
    ReturnsTo m s c.activation := by
  have horder := h.order
  have hqueued := h.queued
  rw [hcallers] at horder hqueued
  obtain ⟨hlink, hsaved, -, ⟨g', hruns, -⟩, -⟩ := horder.suspended
  obtain ⟨⟨g'', hg, -, -, -, argc, r, hcall⟩, -⟩ := hqueued
  obtain rfl : g' = g'' := Option.some.inj (hruns.func.symm.trans hg)
  have hat : s.frame.caller.toNat = c.activation.offset := hlink
  have hlt := Ssa.Function.next_lt (hruns.wellFormed hm.toLoaded) ((hruns.sound hm.toLoaded).body
    hruns.body) hcall rfl
  have hpositions := hm.positions _ g' hg
  have hleave : ∀ word, (m.leave word).Meets s (fun answer s' => answer = none ∧
      s'.frame = { c.activation.frame with cursor := c.activation.frame.cursor + 1 } ∧
      s'.frameAt = c.activation.offset)
      fun _ => False := by
    intro word
    refine (horder.meets_leave hm word).mono ?_ fun _ => id
    rintro answer s' ⟨hanswer, _, _, _, v, -, -, rfl⟩
    exact ⟨hanswer, State.returned_frame _ _ _ _, by rw [State.returned_frameAt, hat]⟩
  refine ⟨by rw [hat]; exact hsaved, ⟨g', argc, r, ?_⟩, toNat_succ (by omega), ?_⟩
  · exact Frame.current?_eq_some.mpr ⟨hg, hcall⟩
  · obtain ⟨ins', hcurrent', hins⟩ := h.current
    obtain ⟨rfl, rfl⟩ : f = g ∧ ins' = ins := by simpa using hcurrent'.symm.trans hcurrent
    have hreturns : ∃ answer s', m.perform f ins' s = .ok answer s' ∧ answer = none ∧
        s'.frame = { c.activation.frame with cursor := c.activation.frame.cursor + 1 } ∧
        s'.frameAt = c.activation.offset := by
      cases ins' with
      | ret v =>
        obtain ⟨t, hv, -⟩ := (h.order.running.sound hm.toLoaded).typed _ _ hins
        exact Action.Meets.returns (.bind (meets_getValue (h.order.holds hv) (hleave _)))
      | retVoid => exact (hleave 0).returns
      | call id argc' r' =>
        simp only [turn] at hexit
        split at hexit <;> cases hexit
      | _ => cases hexit
    obtain ⟨answer, s', hperform, rfl, hframe, hframeAt⟩ := hreturns
    exact ⟨s', by rw [step_eq_perform hcurrent', hperform], hframe, hframeAt⟩

end Stacked

theorem Started.stacked {m : Machine σ} {s s' : State σ} {id : Ssa.FuncId} {f : Ssa.Function}
    {args : List UInt64} (hm : Numbered m) (hf : m.module.functions[id.index]? = some f)
    (hbody : f.foreign = none) (h : Started m s id f args s') : Stacked m s' .first f := by
  obtain ⟨hcursor, hruns⟩ := h.runs hm.toLoaded hf hbody
  have hzero : s'.frame.cursor.toNat = 0 := by rw [hcursor]; rfl
  refine ⟨⟨hruns, h.caller⟩, by rw [if_pos hzero]; rfl, fun _ => ?_, fun hne =>
    absurd hzero hne, trivial⟩
  rw [h.stackOffset, h.frameAt, Nat.zero_add]

end MicroCompiler.Machine
