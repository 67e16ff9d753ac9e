import MicroCompiler.Proofs.Machine.Arithmetic
import MicroCompiler.Proofs.Machine.RegisterRun

/-! Branches and comparisons. A comparison looks at the bits of its type, a branch at the whole
register of its condition. So a branch goes where the comparison of its condition with zero says,
unless the register has bits above the type only; and no register in the form of its type has. -/

namespace MicroCompiler.Machine

variable {σ : Type}

/-- All bits of the word lie above its low `width` bits, and there are some. -/
def HighOnly (word : UInt64) (width : Nat) : Prop := word ≠ 0 ∧ lowBits word width = 0

instance (word : UInt64) (width : Nat) : Decidable (HighOnly word width) :=
  inferInstanceAs (Decidable (_ ∧ _))

theorem normalize_zero (t : TypeInfo) : normalize t 0 = 0 := by
  cases t with
  | primitive p => cases p <;> decide
  | pointer t => rfl

/-- A word in register form has bits of its type, or none. -/
theorem not_highOnly_of_inForm {types : TypeTable} {t : TypeId} {info : TypeInfo} {word : UInt64}
    (hinfo : types.infos[t.index]? = some info) (h : InForm types t word) :
    ¬ HighOnly word info.width := by
  rintro ⟨hne, hlow⟩
  obtain ⟨info', hinfo', hform⟩ := h
  obtain rfl : info = info' := Option.some.inj (hinfo.symm.trans hinfo')
  have hnone : low word info.width = 0 := by
    apply UInt64.toNat_inj.mp
    rw [toNat_low, ← toNat_lowBits, hlow]
    rfl
  exact hne (by rw [← hform, ← normalize_low, hnone, normalize_zero])

theorem lowBits_zero (width : Nat) : lowBits 0 width = 0 := by
  apply BitVec.eq_of_toNat_eq
  simp [toNat_lowBits]

/-- To compare with zero is to ask for bits of the type. -/
theorem holds_ne_zero (info : TypeInfo) (word : UInt64) :
    Ssa.IntPredicate.ne.holds info.width word 0 = true ↔ lowBits word info.width ≠ 0 := by
  rw [holds_eq_ideal _ _ _ (width_pos info) (width_le info), Ssa.IntPredicate.ideal, lowBits_zero,
    decide_eq_true_eq]

section

variable {m : Machine σ} {s : State σ} {g : Ssa.Function}

theorem typeOf_eq {v : Ssa.ValueId} {t : TypeId} {info : TypeInfo} (hv : g.valueType v = .ok t)
    (hinfo : m.types.info t = .ok info) : m.typeOf g v s = .ok info s := by
  simp only [typeOf, typeInfo, checked, bind, EStateM.bind, hv, hinfo, pure,
    EStateM.pure, Except.mapError]

theorem perform_branch {c : Ssa.ValueId} {consequent alternative : Ssa.BlockId} (hc : s.Holds c) :
    m.perform g (.branch c consequent alternative) s =
      (do jump g (if s.value c = 0 then alternative else consequent); pure none : Action σ
        (Option UInt64)) s := by
  simp only [perform, bind, EStateM.bind, hc.getValue]

theorem State.Holds.setValue {v : Ssa.ValueId} (h : s.Holds v) (word : UInt64) :
    setValue v word s = .ok () (s.assign v word) := by
  have hlt : s.frame.base.toNat + v.index < s.registers.size := h
  simp only [Machine.setValue, Machine.frame, setRegister, bind, EStateM.bind, hlt,
    if_true, State.assign]

theorem State.Holds.value_assign {v : Ssa.ValueId} (h : s.Holds v) (word : UInt64) :
    (s.assign v word).value v = word := by
  have hlt : s.frame.base.toNat + v.index < s.registers.size := h
  simp [State.value, State.assign, hlt]

theorem perform_icmp {pred : Ssa.IntPredicate} {r lhs rhs : Ssa.ValueId} {t : TypeId}
    {info : TypeInfo} (htype : g.valueType lhs = .ok t) (hinfo : m.types.info t = .ok info)
    (hlhs : s.Holds lhs) (hrhs : s.Holds rhs) (hr : s.Holds r) :
    m.perform g (.icmp pred r lhs rhs) s =
      .ok none (s.assign r (pred.holds info.width (s.value lhs) (s.value rhs)).toUInt64).next := by
  simp only [perform, bind, EStateM.bind, typeOf_eq htype hinfo, hlhs.getValue,
    hrhs.getValue, hr.setValue]
  rfl

/-- A branch goes where the comparison of its condition with zero says, unless the register of the
condition has bits above the type only. -/
theorem step_branch {c z r : Ssa.ValueId} {consequent alternative : Ssa.BlockId}
    {t : TypeId} {info : TypeInfo}
    (hbranch : s.frame.current? m.module = some (g, .branch c consequent alternative))
    (hc : g.valueType c = .ok t) (hinfo : m.types.info t = .ok info) (hcondition : s.Holds c)
    (hz : s.Holds z) (hzero : s.value z = 0) (hr : s.Holds r) :
    ∃ yields : Bool, m.perform g (.icmp .ne r c z) s = .ok none (s.assign r yields.toUInt64).next ∧
    m.step s = (do
        jump g (if yields ∨ HighOnly (s.value c) info.width then consequent else alternative)
        pure none : Action σ (Option UInt64)) s := by
  refine ⟨_, perform_icmp hc hinfo hcondition hz hr, ?_⟩
  have htest : (Ssa.IntPredicate.ne.holds info.width (s.value c) (s.value z) = true ∨
      HighOnly (s.value c) info.width) ↔ ¬ s.value c = 0 := by
    rw [hzero, holds_ne_zero]
    refine ⟨?_, fun hne => ?_⟩
    · rintro (hlow | hhigh) heq
      · exact hlow (by rw [heq]; exact lowBits_zero info.width)
      · exact hhigh.1 heq
    · by_cases hlow : lowBits (s.value c) info.width = 0
      · exact .inr ⟨hne, hlow⟩
      · exact .inl hlow
  rw [step_eq_perform hbranch, perform_branch hcondition]
  simp only [htest, ite_not]

end

end MicroCompiler.Machine

namespace MicroCompiler.Session

open Machine

variable {σ : Type}

/-- Where a run of built code comes to a branch, it goes on in the first block just if the
comparison of the condition with a zero of its type would yield 1, or the register of the condition
has bits above its type only. The second never is so if constants and arguments are in register
form, operands are written before they are read, and the saved headers of callers are not written
over. -/
theorem run_branch_compares {steps : List Ssa.Step} {b : Ssa.Builder}
    (hbuild : Ssa.Step.runAll .initial steps = .ok b)
    (library : Native.Library σ) (limits : Limits) {id : Ssa.FuncId} {f : Ssa.Function}
    (hf : b.module.get id = .ok f) {args : List UInt64} {session : Session σ} {m : Machine σ}
    {s : State σ} {w : History}
    (hcomes : session.Comes ⟨b.module, b.types, library, limits⟩ id f args m s w) {g : Ssa.Function}
    {c : Ssa.ValueId} {consequent alternative : Ssa.BlockId}
    (hbranch : s.frame.current? b.module = some (g, .branch c consequent alternative)) {t : TypeId}
    {info : TypeInfo} (hc : g.valueType c = .ok t) (hinfo : b.types.info t = .ok info) :
    (∀ z r, s.Holds c → g.valueType z = .ok t → s.Holds z → s.value z = 0 → s.Holds r →
      ∃ yields : Bool, m.perform g (.icmp .ne r c z) s =
        .ok none (s.assign r yields.toUInt64).next ∧ m.step s = (do
          jump g (if yields ∨ HighOnly (s.value c) info.width then consequent else alternative)
          pure none : Action σ (Option UInt64)) s) ∧
    ((∀ g ∈ b.module.functions, ∀ t, t ∈ g.values ∨ t ∈ g.ret → b.types.Registered t) →
      (∀ g ∈ b.module.functions, ∀ r word, .constant r word ∈ g.instructions →
        ∀ t, g.valueType r = .ok t → InForm b.types t word) →
      (∀ (j : Nat) t word, f.values[j]? = some t → args[j]? = some word → InForm b.types t word) →
      (∀ m s w, session.Comes ⟨b.module, b.types, library, limits⟩ id f args m s w →
        ∀ v ∈ m.reads s, v ∈ w.written) →
      (∀ m s w s', session.Comes ⟨b.module, b.types, library, limits⟩ id f args m s w →
        m.step s = .ok none s' → w.Spared m s s') →
      s.Holds c ∧ ¬ HighOnly (s.value c) info.width) := by
  obtain ⟨hmodule, htable⟩ : m.module = b.module ∧ m.types = b.types := hcomes.machine
  refine ⟨?_, ?_⟩
  · intro z r hholds _ hz hzero hr
    exact step_branch (by rw [hmodule]; exact hbranch) hc (by rw [htable]; exact hinfo)
      hholds hz hzero hr
  · intro htypes hconstants hargs hreads hspared
    have hread : c ∈ m.reads s := by simp [reads, hmodule, hbranch, operands]
    obtain ⟨hholds, hform⟩ := Comes.read_inForm hbuild htypes hconstants hf hargs hreads hspared
      hcomes (Frame.current?_eq_some.mp hbranch).1 hread hc
    exact ⟨hholds, not_highOnly_of_inForm (TypeTable.info_eq_ok.mp hinfo) hform⟩

/-- Builds code and runs its first function up to a branch on %`c` to the blocks 1 and 2, where %`z`
is a zero of the type of %`c`; then there is still something to check. -/
def comesToBranch (steps : List Ssa.Step) (count : Nat) (c z : Ssa.ValueId) (t : TypeId)
    (info : TypeInfo) (check : Ssa.Builder → Ssa.Function → Machine Unit → State Unit →
      Ssa.Function → Bool) : Bool :=
  builds steps 0 fun b f =>
    (blank.follow ⟨b.module, b.types, noSymbols, .standard⟩ .history (fun _ _ _ => true) count ⟨0⟩ f
      []).any fun (m, s, _) => (s.frame.current? b.module).any fun (g, ins) =>
        ins == .branch c ⟨1⟩ ⟨2⟩ && g.values[c.index]? == some t && g.values[z.index]? == some t &&
          b.types.infos[t.index]? == some info && s.frame.base.toNat + c.index < s.registers.size &&
          s.frame.base.toNat + z.index < s.registers.size && s.value z == 0 && check b f m s g

theorem exists_of_comesToBranch {steps : List Ssa.Step} {count : Nat} {c z : Ssa.ValueId}
    {t : TypeId} {info : TypeInfo}
    {check : Ssa.Builder → Ssa.Function → Machine Unit → State Unit → Ssa.Function → Bool}
    (h : comesToBranch steps count c z t info check = true) :
    ∃ b f m s w g, Ssa.Step.runAll .initial steps = .ok b ∧ b.module.get ⟨0⟩ = .ok f ∧
      blank.Comes ⟨b.module, b.types, noSymbols, .standard⟩ ⟨0⟩ f [] m s w ∧
      s.frame.current? b.module = some (g, .branch c ⟨1⟩ ⟨2⟩) ∧ g.valueType c = .ok t ∧
      g.valueType z = .ok t ∧ b.types.info t = .ok info ∧ s.Holds c ∧ s.Holds z ∧ s.value z = 0 ∧
      check b f m s g = true := by
  obtain ⟨b, f, hbuild, hf, hcount, hbody, h⟩ := exists_of_builds h
  obtain ⟨⟨m, s, w⟩, hfollow, h⟩ := (Option.any_eq_true _ _).mp h
  obtain ⟨⟨g, ins⟩, hbranch, h⟩ := (Option.any_eq_true _ _).mp h
  simp only [Bool.and_eq_true, beq_iff_eq, decide_eq_true_eq] at h
  obtain ⟨⟨⟨⟨⟨⟨⟨rfl, hc⟩, hz⟩, hinfo⟩, hheld⟩, hzheld⟩, hzero⟩, hcheck⟩ := h
  exact ⟨b, f, m, s, w, g, hbuild, hf, Arrives.of_follow (fun _ _ _ _ => trivial) hfollow, hbranch,
    Ssa.Function.valueType_eq_ok.mpr hc, Ssa.Function.valueType_eq_ok.mpr hz,
    TypeTable.info_eq_ok.mpr hinfo, hheld, hzheld, hzero, hcheck⟩

/-- A function that branches on the sum of 200 and 56, of eight bits each. -/
def wrappedSteps : List Ssa.Step :=
  [.function "main" [] (some (.named "u64")), .createBlock, .createBlock, .constant (.named "u8")
    200, .constant (.named "u8") 56, .constant (.named "u8") 0, .binary (.int .add) ⟨0⟩ ⟨1⟩, .branch
    ⟨3⟩ ⟨1⟩ ⟨2⟩, .switchTo ⟨1⟩, .constant (.named "u64") 1, .ret ⟨4⟩, .switchTo ⟨2⟩, .constant
    (.named "u64") 2, .ret ⟨5⟩]

/-- The sum wraps around to zero, and the branch goes where the comparison says. -/
theorem run_branch_compares_wrapped :
    ∃ b f m s w g, Ssa.Step.runAll .initial wrappedSteps = .ok b ∧ b.module.get ⟨0⟩ = .ok f ∧
      blank.Comes ⟨b.module, b.types, noSymbols, .standard⟩ ⟨0⟩ f [] m s w ∧
      s.frame.current? b.module = some (g, .branch ⟨3⟩ ⟨1⟩ ⟨2⟩) ∧ ¬ HighOnly (s.value ⟨3⟩) 8 ∧
      ∃ yields : Bool, m.perform g (.icmp .ne ⟨3⟩ ⟨3⟩ ⟨2⟩) s =
        .ok none (s.assign ⟨3⟩ yields.toUInt64).next ∧
        m.step s = (do
          jump g (if yields ∨ HighOnly (s.value ⟨3⟩) 8 then ⟨1⟩ else ⟨2⟩)
          pure none : Action Unit (Option UInt64)) s := by
  have hcheck : comesToBranch wrappedSteps 5 ⟨3⟩ ⟨2⟩ ⟨1⟩ (.primitive .u8) (fun b f _ _ _ =>
    isInForm b &&
      passes ⟨b.module, b.types, noSymbols, .standard⟩ .history (History.allows true) 20 ⟨0⟩ f []
        blank) = true := by decide +kernel
  obtain ⟨b, f, m, s, w, g, hbuild, hf, hcomes, hbranch, hc, hz, hinfo, hheld,
      hzheld, hzero, hrun⟩ :=
    exists_of_comesToBranch hcheck
  obtain ⟨hcode, hrun⟩ : isInForm b = true ∧
      passes ⟨b.module, b.types, noSymbols, .standard⟩ .history (History.allows true) 20 ⟨0⟩ f []
        blank = true := by simpa using hrun
  obtain ⟨hcompares, hclean⟩ := run_branch_compares hbuild noSymbols .standard hf
    hcomes hbranch hc hinfo
  obtain ⟨-, hlow⟩ := hclean (types_of_isInForm hcode) (constants_of_isInForm hcode) (by simp)
    (fun m s w hcomes => (Comes.of_passes hrun hcomes).1)
    fun m s w s' hcomes => (Comes.of_passes hrun hcomes).2 rfl s'
  exact ⟨b, f, m, s, w, g, hbuild, hf, hcomes, hbranch, hlow, hcompares ⟨2⟩ ⟨3⟩ hheld
    hz hzheld hzero hheld⟩

/-- A function that branches on a constant of eight bits whose only bit is the ninth. -/
def wideSteps : List Ssa.Step :=
  [.function "main" [] (some (.named "u64")), .createBlock, .createBlock, .constant (.named "u8")
    256, .constant (.named "u8") 0, .branch ⟨0⟩ ⟨1⟩ ⟨2⟩, .switchTo ⟨1⟩, .constant (.named "u64") 1,
    .ret ⟨2⟩, .switchTo ⟨2⟩, .constant (.named "u64") 2, .ret ⟨3⟩]

/-- A constant with bits above its type only leads a branch astray: it is taken, though the constant
equals zero. -/
theorem wide_constant_misleads :
    ¬ ∀ (steps : List Ssa.Step) (b : Ssa.Builder) (library : Native.Library Unit)
      (limits : Limits) (id : Ssa.FuncId) (f : Ssa.Function) (args : List UInt64)
      (session : Session Unit) (m : Machine Unit) (s : State Unit) (w : History) (g : Ssa.Function)
      (c z r : Ssa.ValueId) (consequent alternative : Ssa.BlockId) (t : TypeId)
      (info : TypeInfo), Ssa.Step.runAll .initial steps = .ok b → b.module.get id = .ok f →
      session.Comes ⟨b.module, b.types, library, limits⟩ id f args m s w →
      s.frame.current? b.module = some (g, .branch c consequent alternative) →
      g.valueType c = .ok t → b.types.info t = .ok info → info.isInt = true → s.Holds c →
      g.valueType z = .ok t → s.Holds z → s.value z = 0 → s.Holds r →
      ∃ yields : Bool, m.perform g (.icmp .ne r c z) s =
        .ok none (s.assign r yields.toUInt64).next ∧ m.step s = (do
          jump g (if yields then consequent else alternative)
          pure none : Action Unit (Option UInt64)) s := by
  intro hall
  have hcheck : comesToBranch wideSteps 3 ⟨0⟩ ⟨1⟩ ⟨1⟩ (.primitive .u8) (fun _ _ m s g =>
      (match m.perform g (.icmp .ne ⟨1⟩ ⟨0⟩ ⟨1⟩) s with
        | .ok _ s' => s'.value ⟨1⟩ == 0
        | .error _ _ => false) &&
      (match m.step s with
        | .ok _ s' => s'.frame.cursor == 4
        | .error _ _ => false) &&
      g.blocks[2]?.join.any (·.offset == 6)) = true := by decide +kernel
  obtain ⟨b, f, m, s, w, g, hbuild, hf, hcomes, hbranch, hc, hz, hinfo, hheld,
      hzheld, hzero, hrun⟩ :=
    exists_of_comesToBranch hcheck
  obtain ⟨yields, hicmp, hstep⟩ := hall wideSteps b noSymbols .standard ⟨0⟩ f [] blank m s w g ⟨0⟩
    ⟨1⟩ ⟨1⟩ ⟨1⟩ ⟨2⟩ ⟨1⟩ (.primitive .u8) hbuild hf hcomes hbranch hc hinfo rfl hheld
    hz hzheld hzero hzheld
  simp only [Bool.and_eq_true] at hrun
  obtain ⟨⟨hyields, hcursor⟩, htarget⟩ := hrun
  cases yields with
  | true =>
    have hone : (s.assign ⟨1⟩ true.toUInt64).next.value ⟨1⟩ = 1 := hzheld.value_assign 1
    rw [hicmp] at hyields
    simp [hone] at hyields
  | false =>
    obtain ⟨e, hblock, hoffset⟩ := (Option.any_eq_true _ _).mp htarget
    have hjump : (do jump g ⟨2⟩; pure none : Action Unit (Option UInt64)) s =
        .ok none (s.goTo e.offset.toUInt32) := by
      simp only [jump, Option.join_eq_some_iff.mp hblock]
      rfl
    rw [hstep, if_neg (by decide), hjump] at hcursor
    simp [State.goTo, beq_iff_eq.mp hoffset] at hcursor

end MicroCompiler.Session
