import MicroCompiler.Proofs.Machine.RegisterForm

/-! Register form along a run. In a run over registered types whose constants and arguments are in
register form, which writes before it reads and spares the saved headers, every written value is in
the register form of its type, and so is what the run returns. A store to a saved header can break
that. -/

namespace MicroCompiler

open Machine

variable {σ : Type}

/-- Whether the operands of the next step are written, and, if they have to, the headers of the
callers stay. -/
def Machine.History.allows (headers : Bool) (m : Machine σ) (s : State σ) (w : History) : Bool :=
  (m.reads s).all (· ∈ w.written) && (!headers || (m.next? s).all fun s' => w.Spared m s s')

namespace Session

/-- The run of a function `f` with a body comes to the state `s` of the machine `m`, with the
history `w`. -/
abbrev Comes (e : Environment σ) (id : Ssa.FuncId) (f : Ssa.Function) (args : List UInt64)
    (session : Session σ) (m : Machine σ) (s : State σ) (w : History) : Prop :=
  session.Arrives .history (fun _ _ _ => True) e id f args m s w

theorem Comes.of_passes {e : Environment σ} {headers : Bool} {count : Nat} {id : Ssa.FuncId}
    {f : Ssa.Function} {args : List UInt64} {session : Session σ} {m : Machine σ} {s : State σ}
    {w : History} (hpasses : session.passes e .history (History.allows headers) count id f args =
      true)
    (h : session.Comes e id f args m s w) : (∀ v ∈ m.reads s, v ∈ w.written) ∧
      (headers = true → ∀ s', m.step s = .ok none s' → w.Spared m s s') := by
  have hallows := Arrives.of_passes hpasses h
  simp only [History.allows, Bool.and_eq_true, List.all_eq_true, decide_eq_true_eq] at hallows
  refine ⟨hallows.1, fun hheaders s' hstep => ?_⟩
  simpa [hheaders, next?_eq_some.mpr hstep] using hallows.2

section

variable {steps : List Ssa.Step} {b : Ssa.Builder} {library : Native.Library σ} {limits : Limits}
  {id : Ssa.FuncId} {f : Ssa.Function} {args : List UInt64} {session : Session σ}

/-- Whether all types that the functions name are registered, and all constants are in register
form. -/
def isInForm (b : Ssa.Builder) : Bool :=
  b.module.functions.all fun g =>
    g.values.all (·.index < b.types.size) && g.ret.all (·.index < b.types.size) &&
      g.instructions.all fun ins =>
      match ins with
      | .constant r word => g.values[r.index]?.all fun t => InForm b.types t word
      | _ => true

theorem types_of_isInForm (h : isInForm b = true) :
    ∀ g ∈ b.module.functions, ∀ t, t ∈ g.values ∨ t ∈ g.ret → b.types.Registered t := by
  intro g hg t ht
  simp only [isInForm, Array.all_eq_true_iff_forall_mem, Bool.and_eq_true, Option.all_eq_true,
    decide_eq_true_eq] at h
  obtain ⟨⟨hvalues, hret⟩, -⟩ := h g hg
  exact ht.elim (hvalues t) (hret t)

theorem constants_of_isInForm (h : isInForm b = true) :
    ∀ g ∈ b.module.functions, ∀ r word, .constant r word ∈ g.instructions →
      ∀ t, g.valueType r = .ok t → InForm b.types t word := by
  intro g hg r word hins t ht
  simp only [isInForm, Array.all_eq_true_iff_forall_mem, Bool.and_eq_true] at h
  have hconstant := (h g hg).2 _ hins
  simpa [Ssa.Function.valueType_eq_ok.mp ht] using hconstant

section

variable (hbuild : Ssa.Step.runAll .initial steps = .ok b)
  (htypes : ∀ g ∈ b.module.functions, ∀ t, t ∈ g.values ∨ t ∈ g.ret → b.types.Registered t)
  (hconstants : ∀ g ∈ b.module.functions, ∀ r word, .constant r word ∈ g.instructions →
    ∀ t, g.valueType r = .ok t → InForm b.types t word)

include hbuild htypes hconstants

theorem built (hfits : limits.stackSize.toNat < Frame.noCaller.toNat) (base : UInt64) :
    Built (Environment.machine ⟨b.module, b.types, library, limits⟩ base) := by
  have hsound := Ssa.Step.runAll_sound hbuild
  refine ⟨hsound.types, hsound.size, hsound.functions, ?_, ?_, ?_, hfits⟩
  · exact fun k g hg t ht => htypes g (Array.mem_of_getElem? hg) t (.inl ht)
  · exact fun k g hg t ht => htypes g (Array.mem_of_getElem? hg) t (.inr ht)
  · intro k g hg r word hins t ht
    exact hconstants g (Array.mem_of_getElem? hg) r word hins t
      (Ssa.Function.valueType_eq_ok.mpr ht)

variable (hf : b.module.get id = .ok f)
  (hargs : ∀ (j : Nat) t word, f.values[j]? = some t → args[j]? = some word →
    InForm b.types t word)
  (hreads : ∀ m s w, session.Comes ⟨b.module, b.types, library, limits⟩ id f args m s w →
    ∀ v ∈ m.reads s, v ∈ w.written)
  (hspared : ∀ m s w s', session.Comes ⟨b.module, b.types, library, limits⟩ id f args m s w →
    m.step s = .ok none s' → w.Spared m s s')

include hf hargs hreads hspared

/-- A run that writes before it reads and spares the headers keeps written values in register
form. -/
theorem Comes.canonical {m : Machine σ} {s : State σ} {w : History}
    (h : session.Comes ⟨b.module, b.types, library, limits⟩ id f args m s w) :
    Built m ∧ ∃ g, Canonical m f s w g := by
  have hm : Built m := by
    obtain ⟨first, hentry⟩ := h.entry
    obtain ⟨-, -, hfits, base, taken, -, rfl, -⟩ := entry?_eq_some.mp hentry
    exact built hbuild htypes hconstants hfits base
  refine ⟨hm, ?_⟩
  induction h with
  | start hentry =>
    obtain ⟨hcount, hlocal, -, base, taken, -, rfl, hstart⟩ := entry?_eq_some.mp hentry
    have hlookup : b.module.functions[id.index]? = some f := fetch_eq_ok.mp (mapError_eq_ok.mp hf)
    have hbody : f.foreign = none := by simpa [Ssa.Function.isExternal] using hlocal
    have hstarted := hm.meets_start (s := session.state) hlookup hbody hcount
    simp only [Action.Meets, hstart] at hstarted
    exact ⟨f, hstarted.canonical hm hlookup hcount hargs⟩
  | @step t t' u hrest hstep _ ih =>
    obtain ⟨g, hg⟩ := ih
    have hmeets := hg.meets_step hm (hreads m t u hrest)
    simp only [Action.Meets, hstep] at hmeets
    exact hmeets (hspared m t u t' hrest hstep)

/-- What an operand holds is then in register form. -/
theorem Comes.read_inForm {m : Machine σ} {s : State σ} {w : History}
    (h : session.Comes ⟨b.module, b.types, library, limits⟩ id f args m s w) {g : Ssa.Function}
    (hg : b.module.functions[s.frame.func.toNat]? = some g) {v : Ssa.ValueId} (hv : v ∈ m.reads s)
    {t : TypeId} (htype : g.valueType v = .ok t) : s.Holds v ∧ InForm b.types t (s.value v) := by
  obtain ⟨hm, g', hcanonical⟩ :=
    Comes.canonical hbuild htypes hconstants hf hargs hreads hspared h
  have hread := hreads m s w h v hv
  obtain ⟨hmodule, htable⟩ : m.module = b.module ∧ m.types = b.types := h.machine
  have hfunc := hcanonical.running.func
  rw [hmodule] at hfunc
  obtain rfl : g = g' := Option.some.inj (hg.symm.trans hfunc)
  obtain ⟨t', ht', hform⟩ := hcanonical.value hread
  obtain rfl : t = t' := Option.some.inj ((Ssa.Function.valueType_eq_ok.mp htype).symm.trans ht')
  rw [htable] at hform
  exact ⟨hcanonical.holds_of_type ht', hform⟩

end

/-- A run that returns has come to a step that answers. -/
theorem run_returned (hf : b.module.get id = .ok f) (hbody : f.foreign = none)
    {count : Nat} {word : UInt64}
    (h : (run ⟨b.module, b.types, library, limits⟩ count id args session).1 = .returned word) :
    ∃ m s w s', session.Comes ⟨b.module, b.types, library, limits⟩ id f args m s w ∧
      m.step s = .ok (some word) s' := by
  by_cases hargs : args.length = f.argCount
  · rcases run_ends (e := ⟨b.module, b.types, library, limits⟩) Ghost.history hf hbody hargs session
      count with ⟨m, s, w, hcomes, hends⟩ | ⟨fault, hfault, -⟩
    · rw [h] at hends
      obtain ⟨s', hstep⟩ := hends
      exact ⟨m, s, w, s', hcomes, hstep⟩
    · rw [h] at hfault
      cases hfault
  · simp only [run, hf, ne_eq, hargs, not_false_eq_true, if_true] at h
    cases h

/-- A native function that is run by itself returns register form too. -/
theorem executeNative_returned {m : Machine σ} {s : State σ} {word : UInt64} {t : TypeId}
    (htypes : ∀ t, t ∈ f.values ∨ t ∈ f.ret → m.types.Registered t) (hret : f.ret = some t)
    (h : (m.executeNative id f args s).1 = .returned word) : InForm m.types t word := by
  have hmeets : (m.nativeEntry args f.values.toList >>= m.callNative id f).Meets s
      (fun word _ => InForm m.types t word) (fun _ => True) := by
    refine .bind (meets_nativeEntry (fun u hu => (htypes u (.inl (by simpa using hu))).info)
      fun words => ?_)
    refine meets_callNative (fun _ => trivial) (fun _ => trivial) (fun u hu =>
      (htypes u (.inr hu)).info) ?_
    intro word memory links native hword
    obtain ⟨info, raw, hinfo, rfl⟩ := hword t hret
    exact inForm_normalize hinfo raw
  unfold executeNative at h
  unfold Action.Meets at hmeets
  split at h
  next answer s' hrun =>
    rw [hrun] at hmeets
    obtain rfl : answer = word := by simpa using h
    exact hmeets
  next => cases h

end

/-- Written values are in register form. In a run of code that a builder made over registered types,
with constants and arguments in register form, in which every operand was written before in its
activation and the saved headers of callers are not written over, every value that an activation has
written is in the form of its type at every state, whatever native code returns; and so is the word
that the run returns. -/
theorem run_inForm {steps : List Ssa.Step} {b : Ssa.Builder}
    (hbuild : Ssa.Step.runAll .initial steps = .ok b)
    (htypes : ∀ g ∈ b.module.functions, ∀ t, t ∈ g.values ∨ t ∈ g.ret → b.types.Registered t)
    (hconstants : ∀ g ∈ b.module.functions, ∀ r word, .constant r word ∈ g.instructions →
      ∀ t, g.valueType r = .ok t → InForm b.types t word)
    (library : Native.Library σ) (limits : Limits) {id : Ssa.FuncId} {f : Ssa.Function}
    (hf : b.module.get id = .ok f) {args : List UInt64}
    (hargs : ∀ (j : Nat) t word, f.values[j]? = some t → args[j]? = some word →
      InForm b.types t word)
    (session : Session σ)
    (hreads : ∀ m s w, session.Comes ⟨b.module, b.types, library, limits⟩ id f args m s w →
      ∀ v ∈ m.reads s, v ∈ w.written)
    (hspared : ∀ m s w s', session.Comes ⟨b.module, b.types, library, limits⟩ id f args m s w →
      m.step s = .ok none s' → w.Spared m s s') :
    (∀ m s w, session.Comes ⟨b.module, b.types, library, limits⟩ id f args m s w →
      ∃ g, b.module.get ⟨s.frame.func.toNat⟩ = .ok g ∧ ∀ v ∈ w.written, ∃ t word,
        g.valueType v = .ok t ∧ s.registers[s.frame.base.toNat + v.index]? = some word ∧
        InForm b.types t word) ∧
    ∀ count word after t, run ⟨b.module, b.types, library, limits⟩ count id args session =
      (.returned word, after) → f.ret = some t → InForm b.types t word := by
  refine ⟨?_, ?_⟩
  · intro m s w hcomes
    obtain ⟨-, g, hg⟩ := Comes.canonical hbuild htypes hconstants hf hargs hreads hspared hcomes
    obtain ⟨hmodule, htable⟩ := hcomes.machine
    have hfunc := hg.running.func
    rw [hmodule] at hfunc
    refine ⟨g, mapError_eq_ok.mpr (fetch_eq_ok.mpr hfunc), ?_⟩
    intro v hv
    obtain ⟨t, word, ht, hword, hform⟩ := hg.running.form v hv
    rw [htable] at hform
    exact ⟨t, word, Ssa.Function.valueType_eq_ok.mpr ht, hword, hform⟩
  · intro count word after t hrun hret
    have hword := congrArg Prod.fst hrun
    cases hforeign : f.foreign with
    | some foreign =>
      have hlookup : b.module.functions[id.index]? = some f := fetch_eq_ok.mp (mapError_eq_ok.mp hf)
      have hnative : f.isExternal = true := by simp [Ssa.Function.isExternal, hforeign]
      by_cases hcount : args.length = f.argCount
      · simp only [run, hf, hcount, ne_eq, not_true_eq_false, if_false, hnative, if_true] at hword
        exact executeNative_returned (m := ⟨⟨b.module, b.types, library, limits⟩, ⟨0, 0⟩⟩)
          (htypes f (Array.mem_of_getElem? hlookup)) hret hword
      · simp only [run, hf, ne_eq, hcount, not_false_eq_true, if_true] at hword
        cases hword
    | none =>
      obtain ⟨m, s, w, s', hcomes, hstep⟩ := run_returned hf hforeign hword
      obtain ⟨hm, g, hg⟩ := Comes.canonical hbuild htypes hconstants hf hargs hreads hspared hcomes
      have hmeets := hg.meets_step hm (hreads m s w hcomes)
      simp only [Action.Meets, hstep] at hmeets
      have htable : m.types = b.types := hcomes.machine.2
      rw [← htable]
      exact hmeets t hret

/-- Three functions: `main` passes on what the native `raw` returns to `double`, which keeps its
argument in a local. -/
def doubleSteps : List Ssa.Step :=
  [.foreign "raw" none [] (some (.named "u8")) false, .function "double" [.named "u8"]
    (some (.named "u8")), .alloca (.named "u8"), .store ⟨1⟩ ⟨0⟩, .load ⟨1⟩, .binary (.int .add) ⟨2⟩
    ⟨0⟩, .ret ⟨3⟩, .function "main" [] (some (.named "u8")), .call ⟨0⟩ [],
    .call ⟨1⟩ [⟨0⟩], .ret ⟨1⟩]

/-- A library whose functions all return the sum of their arguments and 511. -/
def wideSums : Native.Library Unit :=
  ⟨fun _ s => (some 12288, s), fun _ args _ memory s =>
    ⟨.ok (args.foldl (· + ·.bits) 511), memory, s⟩⟩

/-- The native result 511 becomes 255 in a register of eight bits, and its double 254. -/
theorem run_inForm_double :
    ∃ b f after, Ssa.Step.runAll .initial doubleSteps = .ok b ∧ b.module.get ⟨2⟩ = .ok f ∧
      f.ret = some ⟨1⟩ ∧ run ⟨b.module, b.types, wideSums, .standard⟩ 20 ⟨2⟩ [] blank =
      (.returned 254, after) ∧ InForm b.types ⟨1⟩ 254 := by
  have hcheck : builds doubleSteps 2 (fun b f => isInForm b && f.ret == some ⟨1⟩ &&
      passes ⟨b.module, b.types, wideSums, .standard⟩ .history (History.allows true) 20 ⟨2⟩ f []
      blank && (run ⟨b.module, b.types, wideSums, .standard⟩ 20 ⟨2⟩ [] blank).1 == .returned 254) =
      true := by
    decide +kernel
  obtain ⟨b, f, hbuild, hf, -, -, hchecks⟩ := exists_of_builds hcheck
  simp only [Bool.and_eq_true, beq_iff_eq] at hchecks
  obtain ⟨⟨⟨hcode, hret⟩, hpasses⟩, hending⟩ := hchecks
  have hform := (run_inForm hbuild (types_of_isInForm hcode) (constants_of_isInForm hcode) wideSums
    .standard hf (by simp) blank (fun m s w hcomes => (Comes.of_passes hpasses hcomes).1)
    fun m s w s' hcomes => (Comes.of_passes hpasses hcomes).2 rfl s').2
  exact ⟨b, f, _, hbuild, hf, hret, Prod.ext hending rfl, hform 20 254 _ ⟨1⟩
    (Prod.ext hending rfl) hret⟩

/-- Four functions: `main` gets the address of its own header from the native `sum`, and `wide`
stores a position there, so that its result of 64 bits goes to the value that awaits the result of
`narrow`. -/
def overwriteSteps : List Ssa.Step :=
  [.foreign "sum" none [.named "*u32", .named "u64"] (some (.named "*u32")) false,
    .function "wide" [.named "*u32"] (some (.named "u64")), .constant (.named "u32") 7, .store ⟨0⟩
    ⟨1⟩, .constant (.named "u64") 511, .ret ⟨2⟩,
    .function "narrow" [] (some (.named "u8")), .constant (.named "u8") 7, .ret ⟨0⟩,
    .function "main" [] (some (.named "u8")), .alloca (.named "u32"), .constant (.named "u64")
    (-519), .call ⟨0⟩ [⟨0⟩, ⟨1⟩], .call ⟨1⟩ [⟨2⟩], .call ⟨2⟩ [], .ret ⟨4⟩]

/-- The headers have to be spared: if a store changes the position in one, a result goes to a value
of another type. -/
theorem overwritten_header_breaks_form :
    ¬ ∀ (steps : List Ssa.Step) (b : Ssa.Builder) (library : Native.Library Unit)
      (limits : Limits) (id : Ssa.FuncId) (f : Ssa.Function) (args : List UInt64)
      (session : Session Unit), Ssa.Step.runAll .initial steps = .ok b →
      (∀ g ∈ b.module.functions, ∀ t, t ∈ g.values ∨ t ∈ g.ret → b.types.Registered t) →
      (∀ g ∈ b.module.functions, ∀ r word, .constant r word ∈ g.instructions →
        ∀ t, g.valueType r = .ok t → InForm b.types t word) →
      b.module.get id = .ok f →
      (∀ (j : Nat) t word, f.values[j]? = some t → args[j]? = some word → InForm b.types t word) →
      (∀ m s w, session.Comes ⟨b.module, b.types, library, limits⟩ id f args m s w →
        ∀ v ∈ m.reads s, v ∈ w.written) →
      ∀ count word after t, run ⟨b.module, b.types, library, limits⟩ count id args session =
        (.returned word, after) → f.ret = some t → InForm b.types t word := by
  intro hall
  have hcheck : builds overwriteSteps 3 (fun b f =>
      isInForm b && !decide (InForm b.types ⟨1⟩ 511) && f.ret == some ⟨1⟩ &&
      passes ⟨b.module, b.types, wideSums, .standard⟩ .history (History.allows false) 30 ⟨3⟩ f []
      blank && (run ⟨b.module, b.types, wideSums, .standard⟩ 30 ⟨3⟩ [] blank).1 == .returned 511) =
      true := by
    decide +kernel
  obtain ⟨b, f, hbuild, hf, -, -, hchecks⟩ := exists_of_builds hcheck
  simp only [Bool.and_eq_true, Bool.not_eq_true', decide_eq_false_iff_not, beq_iff_eq] at hchecks
  obtain ⟨⟨⟨⟨hcode, hout⟩, hret⟩, hpasses⟩, hending⟩ := hchecks
  apply hout
  exact hall overwriteSteps b wideSums .standard ⟨3⟩ f [] blank hbuild (types_of_isInForm hcode)
    (constants_of_isInForm hcode) hf (by simp)
    (fun m s w hcomes => (Comes.of_passes hpasses hcomes).1) 30 511 _ ⟨1⟩
    (Prod.ext hending rfl) hret

end Session

end MicroCompiler
