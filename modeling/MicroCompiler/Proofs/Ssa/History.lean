import MicroCompiler.Proofs.Ssa.Layout

/-! What a script does to the bodies of functions, step by step. A step may start a block or make a
call; the events of a script, in order, say how its functions are laid out in the end. Main
statement: `runAll_arranged`. -/

namespace MicroCompiler.Ssa

/-! ### Events -/

/-- A block of a function is started, or a call is written into a function. -/
inductive Event where
  | started (func block : Nat)
  | called (func : Nat) (call : Invocation)
  deriving DecidableEq, Repr

def Event.startIn? (k : Nat) : Event → Option Nat
  | .started func block => if func = k then some block else none
  | .called _ _ => none

def Event.callIn? (k : Nat) : Event → Option Invocation
  | .started _ _ => none
  | .called func call => if func = k then some call else none

/-- The blocks of a function in the order in which they were started. -/
def startsIn (k : Nat) (log : List Event) : List Nat := log.filterMap (·.startIn? k)

/-- The calls in a function in the order in which they were made. -/
def callsIn (k : Nat) (log : List Event) : List Invocation := log.filterMap (·.callIn? k)

@[simp] theorem startsIn_append (k : Nat) (log log' : List Event) :
    startsIn k (log ++ log') = startsIn k log ++ startsIn k log' := List.filterMap_append

@[simp] theorem callsIn_append (k : Nat) (log log' : List Event) :
    callsIn k (log ++ log') = callsIn k log ++ callsIn k log' := List.filterMap_append

@[simp] theorem startsIn_nil (k : Nat) : startsIn k [] = [] := rfl

@[simp] theorem callsIn_nil (k : Nat) : callsIn k [] = [] := rfl

@[simp] theorem startsIn_started (k func block : Nat) :
    startsIn k [.started func block] = if func = k then [block] else [] := by
  by_cases h : func = k <;> simp [startsIn, Event.startIn?, h]

@[simp] theorem callsIn_started (k func block : Nat) : callsIn k [.started func block] = [] := rfl

@[simp] theorem startsIn_called (k func : Nat) (call : Invocation) :
    startsIn k [.called func call] = [] := rfl

@[simp] theorem callsIn_called (k func : Nat) (call : Invocation) :
    callsIn k [.called func call] = if func = k then [call] else [] := by
  by_cases h : func = k <;> simp [callsIn, Event.callIn?, h]

/-- How many instructions the current function has. -/
def Builder.written (b : Builder) : Nat := (b.function.toOption.map (·.instructions.size)).getD 0

namespace Step

/-- What a step starts or calls, if it succeeds. A call is written behind its arguments. -/
def events (b : Builder) : Step → List Event
  | .function _ _ _ => [.started b.module.functions.size 0]
  | .switchTo block => b.cursor.toList.map fun c => .started c.func.index block.index
  | .call callee args =>
    b.cursor.toList.map fun c => .called c.func.index ⟨b.written + args.length, callee, args⟩
  | _ => []

/-- The events of a script, up to the first step that fails. -/
def history (b : Builder) : List Step → List Event
  | [] => []
  | s :: rest =>
    s.events b ++
      match s.run b with
      | .ok (_, b') => history b' rest
      | .error _ => []

end Step

/-! ### Builders -/

namespace Builder

variable {p : Prop} {b b' : Builder} {c : Cursor} {f g : Function} {log : List Event}
  {block : BlockId} {is : List Instruction}

/-- All bodies are laid out as the events say, and the current block is the one started last. -/
structure Arranged (b : Builder) (log : List Event) : Prop where
  bodies : ∀ (k : Nat) (f : Function), b.module.functions[k]? = some f → f.foreign = none →
    f.Tiled (startsIn k log) ∧ f.Records (callsIn k log)
  cursor : ∀ c, b.cursor = some c → (startsIn c.func.index log).getLast? = some c.block.index
  /-- Nothing has happened in functions to come. -/
  fresh : ∀ k, b.module.functions.size ≤ k → startsIn k log = [] ∧ callsIn k log = []

theorem initial_arranged : initial.Arranged [] where
  bodies k f hf := by simp [initial, Module.empty] at hf
  cursor c hc := by simp [initial] at hc
  fresh k _ := ⟨rfl, rfl⟩

section

variable (h : b.Arranged log)

include h

/-- The types do not matter. -/
theorem Arranged.congr (hmodule : b'.module = b.module) (hcursor : b'.cursor = b.cursor) :
    b'.Arranged log where
  bodies k f hf := h.bodies k f (hmodule ▸ hf)
  cursor c hc := h.cursor c (hcursor ▸ hc)
  fresh k hk := h.fresh k (hmodule ▸ hk)

theorem Arranged.renewed : b.renewed.Arranged log where
  bodies := h.bodies
  cursor c hc := by simp [Builder.renewed] at hc
  fresh := h.fresh

/-- The body of the current function may be replaced together with what has happened in it. -/
theorem Arranged.replace (hat : b.At c f) {events : List Event}
    (hg : g.Tiled (startsIn c.func.index (log ++ events)) ∧
      g.Records (callsIn c.func.index (log ++ events)))
    (hother : ∀ k, c.func.index ≠ k → startsIn k events = [] ∧ callsIn k events = [])
    (hblock : (startsIn c.func.index (log ++ events)).getLast? = some block.index) :
    { b.place c g with cursor := some ⟨c.func, block⟩ }.Arranged (log ++ events) where
  bodies k f' hf' hforeign' := by
    by_cases hk : c.func.index = k
    · subst hk
      obtain rfl : g = f' := Option.some.inj ((hat.place g).2.symm.trans hf')
      exact hg
    · have hold : b.module.functions[k]? = some f' := by simpa [Builder.place, hk] using hf'
      obtain ⟨hstarts, hcalls⟩ := hother k hk
      simpa [hstarts, hcalls] using h.bodies k f' hold hforeign'
  cursor c' hc' := by
    obtain rfl : ⟨c.func, block⟩ = c' := by simpa using hc'
    exact hblock
  fresh k hk := by
    have hsize : b.module.functions.size ≤ k := by simpa [Builder.place] using hk
    have hlt := (Array.getElem?_eq_some_iff.mp hat.2).1
    obtain ⟨hstarts, hcalls⟩ := hother k (by omega)
    simpa [hstarts, hcalls] using h.fresh k hsize

/-- The same without a change of the current block. -/
theorem Arranged.place (hat : b.At c f) {events : List Event}
    (hg : g.Tiled (startsIn c.func.index (log ++ events)) ∧
      g.Records (callsIn c.func.index (log ++ events)))
    (hother : ∀ k, c.func.index ≠ k → startsIn k events = [] ∧ callsIn k events = [])
    (hsame : startsIn c.func.index events = []) : (b.place c g).Arranged (log ++ events) := by
  rw [(hat.place g).eq]
  refine h.replace hat hg hother ?_
  rw [startsIn_append, hsame, List.append_nil]
  exact h.cursor c hat.1

/-- The same where nothing happened in the function. -/
theorem Arranged.place_quiet (hat : b.At c f)
    (hg : g.Tiled (startsIn c.func.index log) ∧ g.Records (callsIn c.func.index log)) :
    (b.place c g).Arranged log := by
  have hplace := @Arranged.place b c f g log h hat [] (by simpa using hg) (fun _ _ => ⟨rfl, rfl⟩)
    rfl
  simpa using hplace

theorem Arranged.push {cursor : Option Cursor} {events : List Event}
    (hg : g.foreign = none → g.Tiled (startsIn b.module.functions.size events) ∧
      g.Records (callsIn b.module.functions.size events))
    (hother : ∀ k, b.module.functions.size ≠ k → startsIn k events = [] ∧ callsIn k events = [])
    (hcursor : ∀ c, cursor = some c → (startsIn c.func.index (log ++ events)).getLast? =
      some c.block.index) :
    { b with module := ⟨b.module.functions.push g⟩, cursor }.Arranged (log ++ events) where
  bodies k f' hf' hforeign := by
    simp only [Array.getElem?_push] at hf'
    split at hf'
    next hk =>
      obtain rfl : g = f' := by simpa using hf'
      obtain ⟨hstarts, hcalls⟩ := h.fresh k (Nat.le_of_eq hk.symm)
      subst hk
      simpa [hstarts, hcalls] using hg hforeign
    next hk =>
      obtain ⟨hstarts, hcalls⟩ := hother k (Ne.symm hk)
      simpa [hstarts, hcalls] using h.bodies k f' hf' hforeign
  cursor := hcursor
  fresh k hk := by
    simp only [Array.size_push] at hk
    obtain ⟨hstarts, hcalls⟩ := hother k (by omega)
    simpa [hstarts, hcalls] using h.fresh k (by omega)

theorem Arranged.begin (name : String) (args : List TypeId) (ret : Option TypeId) : { b with
      module := ⟨b.module.functions.push (.begun name args ret)⟩
      cursor := some ⟨⟨b.module.functions.size⟩, ⟨0⟩⟩ }.Arranged
        (log ++ [Event.started b.module.functions.size 0]) := by
  refine h.push ?_ ?_ ?_
  · intro _
    simpa using ⟨Function.begun_tiled name args ret, Function.begun_records name args ret⟩
  · intro k hk
    simp [hk]
  · intro c hc
    obtain rfl : ⟨⟨b.module.functions.size⟩, ⟨0⟩⟩ = c := by simpa using hc
    simp

theorem Arranged.declare (name : String) (args : List TypeId) (ret : Option TypeId)
    (foreign : Foreign) :
    { b with module := ⟨b.module.functions.push (.declare name args ret (some foreign))⟩ }.Arranged
    log := by
  have hpush := @Arranged.push b (.declare name args ret (some foreign)) log h b.cursor []
    (by simp [Function.declare]) (fun _ _ => ⟨rfl, rfl⟩) (by simpa using h.cursor)
  simpa using hpush

/-- The current block is the one that was started last, and the builder knows whether it is
closed. -/
theorem Arranged.current (hb : b.Sound) (hat : b.At c f) {closed : Bool}
    (hclosed : b.isTerminated = .ok closed) : f.Tiled (startsIn c.func.index log) ∧
      f.Records (callsIn c.func.index log) ∧ (f.Ends c.block.index ↔ closed = true) := by
  obtain ⟨hforeign, e, he, -⟩ := hb.current hat
  obtain ⟨htiled, hrecords⟩ := h.bodies _ f hat.2 hforeign
  refine ⟨htiled, hrecords, ?_⟩
  obtain ⟨c', f', is, hat', his, hlast⟩ := isTerminated_eq_ok.mp hclosed
  obtain ⟨rfl, rfl⟩ := hat.unique hat'
  rw [Function.ends_iff_getLast? he his, hlast]

theorem Arranged.start (hb : b.Sound) (hat : b.At c f) (hclosed : b.isTerminated = .ok true)
    (hblock : f.blocks[block.index]? = some none) :
    { b.place c (f.start block) with cursor := some ⟨c.func, block⟩ }.Arranged
      (log ++ [Event.started c.func.index block.index]) := by
  obtain ⟨htiled, hrecords, hends⟩ := h.current hb hat hclosed
  have hlast := h.cursor c hat.1
  refine h.replace hat ⟨?_, ?_⟩ ?_ ?_
  · rw [startsIn_append, startsIn_started, if_pos rfl]
    refine htiled.start ?_ hblock
    intro k hk
    obtain rfl : c.block.index = k := Option.some.inj (hlast.symm.trans hk)
    exact hends.mpr rfl
  · rw [callsIn_append, callsIn_started, List.append_nil]
    refine hrecords.congr rfl ?_
    intro k e he
    have hne : block.index ≠ k := by
      rintro rfl
      simp [he] at hblock
    rw [Function.start_blocks hblock, if_neg hne, he]
  · intro k hk
    simp [hk]
  · simp

/-- Any phrase but a call is one instruction. -/
theorem Arranged.wrote (hb : b.Sound) {ins : Instruction} (hwrote : Wrote p b b' [ins])
    (hplain : ins.isPlain = true) : b'.Arranged log := by
  obtain ⟨c, f, ts, hat, hopen, -, rfl⟩ := hwrote
  obtain ⟨htiled, hrecords, hends⟩ := h.current hb hat hopen
  refine h.place_quiet hat ⟨htiled.extend (h.cursor c hat.1) ?_ (by simp),
    hrecords.extend_plain hplain⟩
  rw [hends]
  simp

theorem Arranged.called (hb : b.Sound) {callee : FuncId} {args : List ValueId}
    {r : Option ValueId}
    (hwrote : Wrote p b b' (args.map .pushArg ++ [.call callee args.length r])) :
    b'.Arranged (log ++ (Step.call callee args).events b) := by
  obtain ⟨c, f, ts, hat, hopen, -, rfl⟩ := hwrote
  obtain ⟨htiled, hrecords, hends⟩ := h.current hb hat hopen
  have hevents : (Step.call callee args).events b =
      [.called c.func.index ⟨f.instructions.size + args.length, callee, args⟩] := by
    simp [Step.events, hat.1, written, hat.function, Except.toOption]
  rw [hevents]
  refine h.place hat ⟨?_, ?_⟩ ?_ (by simp)
  · rw [startsIn_append, startsIn_called, List.append_nil]
    refine htiled.extend (h.cursor c hat.1) ?_ ?_
    · rw [hends]
      simp
    · intro ins hins
      simp only [List.dropLast_concat, List.mem_map] at hins
      obtain ⟨v, -, rfl⟩ := hins
      rfl
  · rw [callsIn_append, callsIn_called, if_pos rfl]
    exact hrecords.extend_call (hb.current hat).2 callee args r
  · intro k hk
    simp [hk]

end

end Builder

/-! ### Bodies -/

/-- A body in which these blocks were started, in this order, and these calls were made. -/
structure Function.Structured (f : Function) (order : List Nat) (calls : List Invocation) :
    Prop where
  started : ∀ k, k ∈ order ↔ ∃ e, f.blocks[k]? = some (some e)
  nodup : order.Nodup
  head : order.head? = some 0
  entry : ∃ n, f.blocks[0]? = some (some ⟨0, n⟩)
  tiles : Tiles f.blocks 0 order f.instructions.size
  disjoint : ∀ (k l : Nat) (e e' : Extent), k ≠ l → f.blocks[k]? = some (some e) →
    f.blocks[l]? = some (some e') → e.offset + e.length ≤ e'.offset ∨
    e'.offset + e'.length ≤ e.offset
  allocStack : ∀ i, f.instructions[i]? = some .allocStack ↔ i = 0
  /-- A terminator is the last instruction of a block. -/
  terminators : ∀ (i : Nat) (ins : Instruction), f.instructions[i]? = some ins →
    ins.isTerminator = true → ∃ (k : Nat) (e : Extent), f.blocks[k]? = some (some e) ∧
    e.offset ≤ i ∧ i + 1 = e.offset + e.length
  closed : ∀ k ∈ order.dropLast, f.Ends k
  targets : ∀ (i : Nat) (ins : Instruction), f.instructions[i]? = some ins → ∀ t ∈ ins.targets,
    0 < t.index ∧ t.index < f.blocks.size
  /-- A push belongs to a call. -/
  pushes : ∀ (i : Nat) (v : ValueId), f.instructions[i]? = some (.pushArg v) →
    ∃ c ∈ calls, c.position ≤ i + c.args.length ∧ i < c.position
  made : ∀ (i : Nat) (callee : FuncId) (argc : Nat) (r : Option ValueId),
    f.instructions[i]? = some (.call callee argc r) → ∃ c ∈ calls, c.position = i
  invokes : ∀ c ∈ calls, f.Invokes c ∧ f.callArgs c.position = .ok c.args

/-- Jumps and branches lead to blocks that exist, and not back to the first one. -/
theorem Instruction.Typed.targets {types : TypeTable} {m : Module} {f : Function} {i : Nat}
    {ins : Instruction} (h : ins.Typed types m f i) :
    ∀ t ∈ ins.targets, 0 < t.index ∧ t.index < f.blocks.size := by
  cases ins with
  | jump k =>
    intro t ht
    obtain rfl : t = k := by simpa [Instruction.targets] using ht
    exact h
  | branch condition k l =>
    obtain ⟨-, -, -, -, -, hk, hl⟩ := h
    intro t ht
    rcases (by simpa [Instruction.targets] using ht : t = k ∨ t = l) with rfl | rfl
    · exact hk
    · exact hl
  | _ => simp [Instruction.targets]

theorem Function.Tiled.terminators {f : Function} {order : List Nat} (h : f.Tiled order) {i : Nat}
    {ins : Instruction} (hi : f.instructions[i]? = some ins) (hterm : ins.isTerminator = true) :
    ∃ (k : Nat) (e : Extent), f.blocks[k]? = some (some e) ∧ e.offset ≤ i ∧
    i + 1 = e.offset + e.length := by
  have hlt := (Array.getElem?_eq_some_iff.mp hi).1
  obtain ⟨k, e, he, hle, hend⟩ := h.tiles.cover (Nat.zero_le i) hlt
  refine ⟨k, e, he, hle, ?_⟩
  by_contra hne
  have hinner := h.inner k e i ins he hle (by omega) hi
  simp [hinner] at hterm

theorem Function.Sound.structured {types : TypeTable} {m : Module} {f : Function} {order : List Nat}
    {calls : List Invocation} (h : f.Sound types m) (hforeign : f.foreign = none)
    (htiled : f.Tiled order) (hrecords : f.Records calls) : f.Structured order calls where
  started := htiled.started
  nodup := htiled.nodup
  head := htiled.entry
  entry := by
    obtain ⟨n, hentry⟩ := (h.body hforeign).entry
    exact ⟨n + 1, hentry⟩
  tiles := htiled.tiles
  disjoint k l e e' hne he he' :=
    htiled.tiles.apart ((htiled.started k).mpr ⟨e, he⟩) ((htiled.started l).mpr ⟨e', he'⟩) hne
      he he'
  allocStack i := by
    constructor
    · exact fun hi => h.typed i _ hi
    · rintro rfl
      exact (h.body hforeign).first
  terminators i ins := htiled.terminators
  closed := htiled.closed
  targets i ins hi := (h.typed i ins hi).targets
  pushes := hrecords.pushes
  made := hrecords.complete
  invokes c hc := ⟨hrecords.invokes c hc, (hrecords.invokes c hc).callArgs⟩

/-- Offsets are 32-bit numbers, and the last of them marks a block that was not started. -/
def Extent.unstarted : Nat := UInt32.size - 1

/-- Blocks and calls reach no further than the code. -/
theorem Function.Structured.below {f : Function} {order : List Nat} {calls : List Invocation}
    (h : f.Structured order calls) (hsize : f.instructions.size < Extent.unstarted) :
    (∀ (i : Nat) (e : Extent), f.blocks[i]? = some (some e) →
        e.offset + e.length < Extent.unstarted) ∧
      ∀ c ∈ calls, c.args.length < Extent.unstarted := by
  have hbound (i : Nat) (e : Extent) (he : f.blocks[i]? = some (some e)) :
      e.offset + e.length < Extent.unstarted :=
    Nat.lt_of_le_of_lt (h.tiles.bounds ((h.started i).mpr ⟨e, he⟩) he).2 hsize
  refine ⟨hbound, fun c hc => ?_⟩
  obtain ⟨i, e, he, hargs, hcall⟩ := (h.invokes c hc).1.block
  have hstop := hbound i e he
  omega

/-! ### Scripts -/

namespace Step

open Builder

variable {b b' : Builder} {s : Step} {r : Option Nat} {log : List Event}

theorem resolve_module {t : TypeRef} {u : TypeId} (h : t.resolve b = .ok (u, b')) :
    b'.module = b.module ∧ b'.cursor = b.cursor := by
  cases t with
  | id t =>
    cases h
    exact ⟨rfl, rfl⟩
  | named name =>
    simp only [TypeRef.resolve, resolveType, bind_eq_ok] at h
    obtain ⟨⟨found, types⟩, -, hr⟩ := h
    cases found with
    | none => cases hr
    | some t =>
      cases hr
      exact ⟨rfl, rfl⟩

theorem resolveAll_module {ts : List TypeRef} {us : List TypeId}
    (h : resolveAll b ts = .ok (us, b')) : b'.module = b.module ∧ b'.cursor = b.cursor := by
  induction ts generalizing b us with
  | nil =>
    cases h
    exact ⟨rfl, rfl⟩
  | cons t ts ih =>
    simp only [resolveAll, bind_eq_ok] at h
    obtain ⟨⟨u, b₁⟩, hfirst, ⟨us, b₂⟩, hrest, hr⟩ := h
    cases hr
    have hsame := resolve_module hfirst
    have hsame' := ih hrest
    exact ⟨hsame'.1.trans hsame.1, hsame'.2.trans hsame.2⟩

theorem resolveOption_module {t : Option TypeRef} {u : Option TypeId}
    (h : resolveOption b t = .ok (u, b')) : b'.module = b.module ∧ b'.cursor = b.cursor := by
  cases t with
  | none =>
    cases h
    exact ⟨rfl, rfl⟩
  | some t =>
    simp only [resolveOption, bind_eq_ok] at h
    obtain ⟨⟨u, b₁⟩, hfirst, hr⟩ := h
    cases hr
    exact resolve_module hfirst

theorem signature_module {args : List TypeRef} {result : Option TypeRef} {ts : List TypeId}
    {t : Option TypeId} {b₁ b₂ : Builder} (hargs : resolveAll b args = .ok (ts, b₁))
    (hresult : resolveOption b₁ result = .ok (t, b₂)) :
    b₂.module = b.module ∧ b₂.cursor = b.cursor := by
  have hsame := resolveAll_module hargs
  have hsame' := resolveOption_module hresult
  exact ⟨hsame'.1.trans hsame.1, hsame'.2.trans hsame.2⟩

/-- A step that succeeds leaves the bodies arranged, with its own events added. -/
theorem run_arranged (h : s.run b = .ok (r, b')) (hb : b.Sound) (harranged : b.Arranged log) :
    b'.Arranged (log ++ s.events b) := by
  have hwrote : ∀ {b₁ : Builder} {ins : Instruction}, b₁.Sound → b₁.Arranged log →
    Wrote False b₁ b' [ins] →
      ins.isPlain = true → b'.Arranged (log ++ []) := by
    intro b₁ ins hb₁ h₁ hwrote hplain
    rw [List.append_nil]
    exact h₁.wrote hb₁ hwrote hplain
  cases s with
  | resolve type =>
    obtain ⟨⟨t, b₁⟩, hresolve, hr⟩ := map_eq_ok.mp h
    cases hr
    obtain ⟨hmodule, hcursor⟩ := resolve_module hresolve
    simpa [events] using harranged.congr hmodule hcursor
  | function name args result =>
    simp only [run, bind_eq_ok] at h
    obtain ⟨⟨ts, b₁⟩, hargs, ⟨t, b₂⟩, hresult, ⟨id, b₃⟩, hbegin, hr⟩ := h
    cases hr
    obtain ⟨hmodule, hcursor⟩ := signature_module hargs hresult
    obtain ⟨-, rfl⟩ := beginFunction_eq_ok hbegin
    rw [events, ← hmodule]
    exact (harranged.congr hmodule hcursor).begin name ts t
  | foreign name library args result variadic =>
    simp only [run, bind_eq_ok] at h
    obtain ⟨⟨ts, b₁⟩, hargs, ⟨t, b₂⟩, hresult, ⟨id, b₃⟩, hdeclare, hr⟩ := h
    cases hr
    obtain ⟨hmodule, hcursor⟩ := signature_module hargs hresult
    obtain ⟨-, rfl⟩ := declareForeign_eq_ok hdeclare
    simpa [events] using (harranged.congr hmodule hcursor).declare name ts t
      ⟨library, name, variadic⟩
  | renew =>
    cases h
    simpa [events] using harranged.renewed
  | arg index =>
    obtain ⟨v, -, hr⟩ := map_eq_ok.mp h
    cases hr
    simpa [events] using harranged
  | createBlock =>
    obtain ⟨⟨block, b₁⟩, hcreate, hr⟩ := map_eq_ok.mp h
    cases hr
    obtain ⟨c, f, hat, rfl⟩ := createBlock_eq_ok hcreate
    obtain ⟨htiled, hrecords⟩ := harranged.bodies _ f hat.2 (hb.current hat).1
    have hrecords' : f.addBlock.Records _ := hrecords.congr rfl fun _ _ => Grown.push _ _ _ _
    simpa [events] using harranged.place_quiet hat ⟨htiled.addBlock, hrecords'⟩
  | switchTo block =>
    obtain ⟨c, f, hat, hclosed, hblock, rfl⟩ := switchTo_eq_ok (silently_eq_ok h)
    have hevents : (switchTo block).events b = [.started c.func.index block.index] := by
      simp [events, hat.1]
    rw [hevents]
    exact harranged.start hb hat hclosed hblock
  | constant type value =>
    simp only [run, bind_eq_ok] at h
    obtain ⟨⟨t, b₁⟩, hresolve, hr⟩ := h
    obtain ⟨v, hconstant⟩ := answering_eq_ok hr
    obtain ⟨hmodule, hcursor⟩ := resolve_module hresolve
    have hsound := (resolve_edits (p := False) hresolve hb.types).1.sound hb
    exact hwrote hsound (harranged.congr hmodule hcursor) (constant_wrote hconstant False.elim) rfl
  | binary op lhs rhs =>
    obtain ⟨v, hv⟩ := answering_eq_ok h
    exact hwrote hb harranged (binary_wrote hv) rfl
  | icmp pred lhs rhs =>
    obtain ⟨v, hv⟩ := answering_eq_ok h
    exact hwrote hb harranged (icmp_wrote hv) rfl
  | fcmp pred lhs rhs =>
    obtain ⟨v, hv⟩ := answering_eq_ok h
    exact hwrote hb harranged (fcmp_wrote hv) rfl
  | alloca type =>
    simp only [run, bind_eq_ok] at h
    obtain ⟨⟨t, b₁⟩, hresolve, hr⟩ := h
    obtain ⟨v, halloca⟩ := answering_eq_ok hr
    obtain ⟨hmodule, hcursor⟩ := resolve_module hresolve
    have hsound := (resolve_edits (p := False) hresolve hb.types).1.sound hb
    obtain ⟨pointer, types, c, f, -, hat, rfl⟩ := alloca_eq_ok halloca
    have h₁ := harranged.congr hmodule hcursor
    obtain ⟨htiled, hrecords⟩ := h₁.bodies _ f hat.2 (hsound.current hat).1
    have hrecords' : (f.addLocal t pointer).Records _ := hrecords.congr rfl fun _ _ he => he
    have hplace : ({ b₁ with types }.place c (f.addLocal t pointer)).Arranged log :=
      (h₁.place_quiet hat ⟨htiled.addLocal t pointer, hrecords'⟩).congr rfl rfl
    simpa [events] using hplace
  | load address =>
    obtain ⟨v, hv⟩ := answering_eq_ok h
    exact hwrote hb harranged (load_wrote hv) rfl
  | store address value => exact hwrote hb harranged (store_wrote (silently_eq_ok h)) rfl
  | call callee args =>
    obtain ⟨⟨v, b₁⟩, hcall, hr⟩ := map_eq_ok.mp h
    cases hr
    exact harranged.called hb (call_wrote (p := False) hcall False.elim)
  | jump target => exact hwrote hb harranged (jump_wrote (silently_eq_ok h)) rfl
  | branch condition consequent alternative =>
    exact hwrote hb harranged (branch_wrote (silently_eq_ok h)) rfl
  | ret value => exact hwrote hb harranged (ret_wrote (silently_eq_ok h)) rfl
  | retVoid => exact hwrote hb harranged (retVoid_wrote (silently_eq_ok h)) rfl

theorem runAll_arranged {steps : List Step} (h : runAll b steps = .ok b') (hb : b.Sound)
    (harranged : b.Arranged log) : b'.Arranged (log ++ history b steps) := by
  induction steps generalizing b log with
  | nil =>
    cases h
    simpa [history] using harranged
  | cons s rest ih =>
    simp only [runAll, List.foldlM_cons, bind_eq_ok, map_eq_ok] at h
    obtain ⟨b₁, ⟨⟨r, b₁⟩, hrun, rfl⟩, hrest⟩ := h
    have hfirst := run_arranged hrun hb harranged
    have hsound := (run_edits hrun hb.types).sound hb
    have hothers := ih hrest hsound hfirst
    rw [List.append_assoc] at hothers
    simpa only [history, hrun] using hothers

/-- Every body that a script makes has the structure that its events say, and it is well-formed
exactly if the block started last is closed and all jumps lead to blocks that were started. As long
as there is an offset for each instruction, the offsets and counts of the body are 32-bit numbers,
and no block that was started looks like one that was not. -/
theorem runAll_structured {steps : List Step} (h : runAll .initial steps = .ok b) {k : Nat}
    {f : Function} (hf : b.module.functions[k]? = some f) (hbody : f.isExternal = false) :
    f.Structured (startsIn k (history .initial steps)) (callsIn k (history .initial steps)) ∧
      (f.isWellFormed = true ↔
        (∀ l, (startsIn k (history .initial steps)).getLast? = some l → f.Ends l) ∧
        ∀ (i : Nat) (ins : Instruction), f.instructions[i]? = some ins → ∀ t ∈ ins.targets,
          t.index ∈ startsIn k (history .initial steps)) ∧
      (f.instructions.size < Extent.unstarted →
        (∀ (i : Nat) (e : Extent), f.blocks[i]? = some (some e) →
          e.offset + e.length < Extent.unstarted) ∧
        ∀ c ∈ callsIn k (history .initial steps), c.args.length < Extent.unstarted) := by
  have hforeign : f.foreign = none := by simpa [Function.isExternal] using hbody
  have hsound := (runAll_sound h).functions k f hf
  have harranged := runAll_arranged h initial_sound initial_arranged
  rw [List.nil_append] at harranged
  obtain ⟨htiled, hrecords⟩ := harranged.bodies k f hf hforeign
  have hstructured := hsound.structured hforeign htiled hrecords
  refine ⟨hstructured, htiled.isWellFormed_iff fun i ins hi t ht => ?_, hstructured.below⟩
  exact (hstructured.targets i ins hi t ht).1

/-- A function that prints a number and branches, with one of the two blocks left open to be
started. -/
def branchingSteps : List Step :=
  [.foreign "print" none [.id .i64] none false, .function "main" [.id .bool] none,
    .constant (.id .i64) 7, .call ⟨0⟩ [⟨1⟩], .createBlock, .createBlock, .branch ⟨0⟩ ⟨1⟩ ⟨2⟩,
    .switchTo ⟨2⟩, .retVoid]

/-- Blocks 0 and 2 tile the function, its call finds the value that was passed, and it is not
well-formed, since block 1 was not started. -/
theorem runAll_structured_branching :
    ∃ b f, runAll .initial branchingSteps = .ok b ∧ b.module.functions[1]? = some f ∧
      f.isExternal = false ∧ Tiles f.blocks 0 [0, 2] f.instructions.size ∧
      f.callArgs 3 = .ok [⟨1⟩] ∧ f.isWellFormed = false := by
  have hcheck : ((runAll .initial branchingSteps).toOption.bind fun b => b.module.functions[1]?).map
      (fun f => (f.isExternal, f.instructions[4]?)) = some (false, some (.branch ⟨0⟩ ⟨1⟩ ⟨2⟩)) := by
      decide +kernel
  have hstarts : startsIn 1 (history .initial branchingSteps) = [0, 2] := by decide +kernel
  have hcalls : callsIn 1 (history .initial branchingSteps) = [⟨3, ⟨0⟩, [⟨1⟩]⟩] := by decide +kernel
  simp only [Option.map_eq_some_iff, Option.bind_eq_some_iff, toOption_eq_some, Prod.mk.injEq]
    at hcheck
  obtain ⟨f, ⟨b, hbuild, hf⟩, hbody, hbranch⟩ := hcheck
  obtain ⟨hstructured, hwellFormed, -⟩ := runAll_structured hbuild hf hbody
  rw [hstarts] at hstructured hwellFormed
  rw [hcalls] at hstructured
  refine ⟨b, f, hbuild, hf, hbody, hstructured.tiles,
    (hstructured.invokes _ (List.mem_singleton_self _)).2, ?_⟩
  by_contra hwell
  have htarget := (hwellFormed.mp (by simpa using hwell)).2 4 _ hbranch ⟨1⟩
    (by simp [Instruction.targets])
  simp at htarget

end Step

end MicroCompiler.Ssa
