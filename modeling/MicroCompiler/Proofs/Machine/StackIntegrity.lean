import MicroCompiler.Proofs.Machine.Ledger
import MicroCompiler.Proofs.Machine.RegisterRun

/-! Integrity of the stack. As long as a run spares the saved headers, the headers and the locals of
all live activations lie apart from each other in the stack, the registers of locals hold their
aligned addresses, and a caller goes on as it was when it called. A store to a saved header can
break all of this. -/

namespace MicroCompiler

variable {σ : Type}

namespace Session

open Machine

/-- A run that spares the headers keeps the stack in order. -/
theorem Arrives.stacked {e : Environment σ} {id : Ssa.FuncId} {f : Ssa.Function}
    {args : List UInt64} {session : Session σ} {m : Machine σ} {s : State σ} {l : Ledger}
    (hm : Numbered m) (hf : e.module.get id = .ok f)
    (h : session.Arrives .ledger Machine.Spares e id f args m s l) : ∃ g, Stacked m s l g := by
  induction h with
  | start hentry =>
    obtain ⟨hcount, hlocal, -, base, taken, -, rfl, hstart⟩ := entry?_eq_some.mp hentry
    have hlookup : e.module.functions[id.index]? = some f := fetch_eq_ok.mp (mapError_eq_ok.mp hf)
    have hbody : f.foreign = none := by simpa [Ssa.Function.isExternal] using hlocal
    have hstarted := hm.toLoaded.meets_start (s := session.state) hlookup hbody hcount
    simp only [Action.Meets, hstart] at hstarted
    exact ⟨f, hstarted.stacked hm hlookup hbody⟩
  | step _ hstep hspares ih =>
    obtain ⟨g, hg⟩ := ih
    exact hg.step hm hstep hspares

/-- A run that spared the saved headers so far has its stack in order: the headers of all live
activations and the locals that they have laid out are disjoint regions inside the stack, no
activation has laid out its locals twice, and the register of every local holds an address that is
aligned to its type. A return then reads back the header that the call of the running activation
wrote, so the caller goes on with the same function, registers, stack offset and caller, one
instruction behind that call. -/
theorem run_keeps_stack {steps : List Ssa.Step} {b : Ssa.Builder}
    (hbuild : Ssa.Step.runAll .initial steps = .ok b)
    (hwellFormed : ∀ f ∈ b.module.functions, f.isWellFormed = true)
    (hpositions : ∀ f ∈ b.module.functions, f.instructions.size ≤ UInt32.size)
    (library : Native.Library σ) (limits : Limits) {id : Ssa.FuncId} {f : Ssa.Function}
    (hf : b.module.get id = .ok f) {args : List UInt64}
    {session : Session σ} {m : Machine σ} {s : State σ} {l : Ledger}
    (harrives : session.Arrives .ledger Machine.Spares ⟨b.module, b.types, library,
      limits⟩ id f args m s l) :
    Intact m s l ∧ ∀ g ins c rest, s.frame.current? b.module = some (g, ins) →
      (ins = .retVoid ∨ ∃ v, ins = .ret v) → l.callers = c :: rest →
      ReturnsTo m s c.activation := by
  obtain ⟨first, hentry⟩ := harrives.entry
  obtain ⟨hcount, hlocal, hfits, base, taken, halloc, rfl, hstart⟩ := entry?_eq_some.mp hentry
  have hm : Numbered (Environment.machine ⟨b.module, b.types, library, limits⟩ base) :=
    { toLoaded := loaded hbuild hwellFormed rfl rfl hfits
      positions := fun k g hg => hpositions g (Array.mem_of_getElem? hg) }
  obtain ⟨g, hg⟩ := harrives.stacked hm hf
  refine ⟨hg.intact hm.toLoaded (Arena.alloc_aligned halloc), ?_⟩
  intro g' ins c rest hcurrent hins hcallers
  have hexit : turn b.module ins = .exit := by
    rcases hins with rfl | ⟨v, rfl⟩ <;> rfl
  exact hg.returnsTo hm hcurrent hexit hcallers

/-- Builds code and runs one of its functions without arguments, by steps that pass a check; then
there is still something to check. -/
def arrivesAt (steps : List Ssa.Step) (limits : Limits)
    (check : (m : Machine Unit) → State Unit → State Unit → Bool)
    (count index : Nat) (answer : Machine Unit → State Unit → Ledger → Bool) : Bool :=
  builds steps index fun b f =>
    b.module.functions.all (fun f => f.isWellFormed && f.instructions.size ≤ UInt32.size) &&
      (blank.follow ⟨b.module, b.types, wideSums, limits⟩ .ledger check count ⟨index⟩ f []).any
        fun (m, s, l) => answer m s l

theorem exists_of_arrivesAt (kind : (m : Machine Unit) → State Unit → State Unit → Prop)
    {steps : List Ssa.Step} {limits : Limits}
    {check : (m : Machine Unit) → State Unit → State Unit → Bool} {count index : Nat}
    {answer : Machine Unit → State Unit → Ledger → Bool}
    (hkind : ∀ m s s', check m s s' = true → kind m s s')
    (h : arrivesAt steps limits check count index answer = true) :
    ∃ b f m s l, Ssa.Step.runAll .initial steps = .ok b ∧
      (∀ f ∈ b.module.functions, f.isWellFormed = true) ∧
      (∀ f ∈ b.module.functions, f.instructions.size ≤ UInt32.size) ∧ b.module.get ⟨index⟩ = .ok f ∧
      blank.Arrives .ledger kind ⟨b.module, b.types, wideSums, limits⟩ ⟨index⟩ f [] m s l ∧
      answer m s l = true := by
  obtain ⟨b, f, hbuild, hf, -, -, h⟩ := exists_of_builds h
  simp only [Bool.and_eq_true, Array.all_eq_true_iff_forall_mem, decide_eq_true_eq] at h
  obtain ⟨hfunctions, h⟩ := h
  obtain ⟨⟨m, s, l⟩, hfollow, hanswer⟩ := (Option.any_eq_true _ _).mp h
  refine ⟨b, f, m, s, l, hbuild, fun g hg => (hfunctions g hg).1, fun g hg => (hfunctions g hg).2,
    hf, ?_, hanswer⟩
  exact .of_follow hkind hfollow

/-- Two functions with locals of several sizes: `main` passes the address of one to `renew`, which
writes to it. -/
def renewSteps : List Ssa.Step :=
  [.function "renew" [.named "*u32"] none, .alloca (.named "u8"), .constant (.named "u8") 7,
    .store ⟨1⟩ ⟨2⟩, .constant (.named "u32") 9, .store ⟨0⟩ ⟨3⟩, .retVoid,
    .function "main" [] (some (.named "u32")), .alloca (.named "u8"), .alloca (.named "u32"),
    .constant (.named "u32") 5, .store ⟨1⟩ ⟨2⟩, .call ⟨0⟩ [⟨1⟩], .load ⟨1⟩, .ret ⟨3⟩]

/-- When `renew` is about to return, two headers and three locals are on the stack. -/
theorem run_keeps_stack_renew :
    ∃ b f m s l c, Ssa.Step.runAll .initial renewSteps = .ok b ∧ b.module.get ⟨1⟩ = .ok f ∧
      blank.Arrives .ledger Machine.Spares ⟨b.module, b.types, wideSums, ⟨64, 64⟩⟩ ⟨1⟩ f [] m s l ∧
      l.regions m s = [⟨28, 48⟩, ⟨48, 49⟩, ⟨0, 20⟩, ⟨20, 21⟩, ⟨24, 28⟩] ∧ Intact m s l ∧
      l.callers = [c] ∧ ReturnsTo m s c.activation := by
  have hcheck : arrivesAt renewSteps ⟨64, 64⟩ (fun m => m.sparesTo 1) 10 1 (fun m s l =>
      l.regions m s == [⟨28, 48⟩, ⟨48, 49⟩, ⟨0, 20⟩, ⟨20, 21⟩, ⟨24, 28⟩] && l.callers.length == 1 &&
        (s.frame.current? m.module).any fun current => current.2 == .retVoid) =
        true := by decide +kernel
  obtain ⟨b, f, m, s, l, hbuild, hwellFormed, hpositions, hf, harrives, hanswer⟩ :=
    exists_of_arrivesAt Machine.Spares (fun m s s' h => .of_sparesTo h) hcheck
  simp only [Bool.and_eq_true, beq_iff_eq, Option.any_eq_true] at hanswer
  obtain ⟨⟨hregions, hlength⟩, ⟨g, ins⟩, hcurrent, rfl⟩ := hanswer
  obtain ⟨c, hcallers⟩ := List.length_eq_one_iff.mp hlength
  obtain ⟨hintact, hreturns⟩ := run_keeps_stack hbuild hwellFormed hpositions wideSums
    ⟨64, 64⟩ hf harrives
  have hmodule : m.module = b.module := harrives.machine.1
  rw [hmodule] at hcurrent
  exact ⟨b, f, m, s, l, c, hbuild, hf, harrives, hregions, hintact, hcallers,
    hreturns g .retVoid c [] hcurrent (.inl rfl) hcallers⟩

/-- Four functions: `main` gets the address of the stack offset in its own header from the native
`sum`, `reset` stores zero there, and so `inner` begins where `main` did. -/
def resetSteps : List Ssa.Step :=
  [.foreign "sum" none [.named "*u32", .named "u64"] (some (.named "*u32")) false,
    .function "reset" [.named "*u32"] none, .constant (.named "u32") 0, .store ⟨0⟩ ⟨1⟩, .retVoid,
    .function "inner" [] none, .alloca (.named "u32"), .constant (.named "u32") 9, .store ⟨0⟩ ⟨1⟩,
    .retVoid, .function "main" [] (some (.named "u32")), .alloca (.named "u32"), .constant
    (.named "u32") 5, .store ⟨0⟩ ⟨1⟩, .constant (.named "u64") (-523), .call ⟨0⟩ [⟨0⟩, ⟨2⟩],
    .call ⟨1⟩ [⟨3⟩], .call ⟨2⟩ [], .load ⟨0⟩, .ret ⟨4⟩]

/-- The headers have to be spared: if a store changes the stack offset in one, two headers lie on
each other. -/
theorem overwritten_header_overlaps :
    ¬ ∀ (steps : List Ssa.Step) (b : Ssa.Builder) (library : Native.Library Unit)
      (limits : Limits) (id : Ssa.FuncId) (f : Ssa.Function) (args : List UInt64)
      (session : Session Unit) (m : Machine Unit) (s : State Unit) (l : Ledger),
      Ssa.Step.runAll .initial steps = .ok b → (∀ f ∈ b.module.functions, f.isWellFormed = true) →
      (∀ f ∈ b.module.functions, f.instructions.size ≤ UInt32.size) → b.module.get id = .ok f →
      session.Arrives .ledger (fun _ _ _ => True) ⟨b.module, b.types, library, limits⟩ id f args m s
      l → (l.regions m s).Pairwise Region.Apart := by
  intro hall
  have hcheck : arrivesAt resetSteps ⟨64, 64⟩ (fun _ _ _ => true) 14 3 (fun m s l =>
      l.regions m s == [⟨0, 20⟩, ⟨0, 20⟩, ⟨20, 24⟩]) = true := by decide +kernel
  obtain ⟨b, f, m, s, l, hbuild, hwellFormed, hpositions, hf, harrives, hanswer⟩ :=
    exists_of_arrivesAt (fun _ _ _ => True) (fun _ _ _ _ => trivial) hcheck
  have hapart := hall resetSteps b wideSums ⟨64, 64⟩ ⟨3⟩ f [] blank m s l hbuild hwellFormed
    hpositions hf harrives
  rw [beq_iff_eq.mp hanswer] at hapart
  exact absurd hapart (by decide)

end Session

end MicroCompiler
