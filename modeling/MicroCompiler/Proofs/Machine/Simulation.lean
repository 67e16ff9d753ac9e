import MicroCompiler.Proofs.Machine.Correspondence

/-! The machine follows the reference. A step from a state that corresponds to an activation does
what the reference says of the instruction; by induction on the bound of the evaluation, the machine
comes to the same answer or the same division by zero, or runs out of registers or stack bytes, and
as long as the reference goes on, so does the machine. Whole runs therefore agree with the reference
both ways. -/

namespace MicroCompiler.Machine

open Reference

variable {σ : Type}

/-! ### One step -/

/-- The next step returns a word. -/
def Returns (m : Machine σ) (s : State σ) (word : UInt64) : Prop :=
  ∀ (post : Option UInt64 → State σ → Prop) (allowed : Fault → Prop),
    (m.leave word).Meets s post allowed → m.step.Meets s post allowed

/-- What a step does, by the effect of its instruction. Only an effect that the reference leaves
undefined says nothing. -/
def Performs (m : Machine σ) (s : State σ) (f : Ssa.Function) (store : Store) (i : Nat) :
    Effect → Prop
  | .go store' =>
    m.step.Meets s (Continues m s f store' (i + 1)) (fun fault => fault.isExhaustion = true)
  | .goTo target => ∃ e, f.blocks[target.index]? = some (some e) ∧
      m.step.Meets s (Continues m s f store e.offset) (fun fault => fault.isExhaustion = true)
  | .call id words r => ∃ callee args argc, m.module.functions[id.index]? = some callee ∧
      f.instructions[i]? = some (.call id argc r) ∧
      m.step.Meets s
        (fun answer s' => answer = none ∧ Entered m s f id callee args s' ∧
          Matches m s' callee (.ofArgs words) 0)
        (fun fault => fault.isExhaustion = true)
  | .stop (.returned word) => Returns m s word
  | .stop (.dividedByZero name) =>
    m.step.Meets s (fun _ _ => False) (fun fault => fault = .divisionByZero name)
  | .stop .undefined => True
  | .stop _ => False

section

variable {m : Machine σ} {s s' : State σ} {f : Ssa.Function} {store : Store} {i : Nat}

theorem Performs.withOperands {v a b : Ssa.ValueId} {t : TypeInfo}
    {k : TypeInfo → UInt64 → UInt64 → Effect} (ht : valueInfo m.types f v = some t)
    (h : ∀ x y, store.values a = some x → store.values b = some y →
      Performs m s f store i (k t x y)) :
    Performs m s f store i (withOperands (valueInfo m.types f v) (store.values a)
      (store.values b) k) := by
  rw [ht]
  cases hx : store.values a with
  | none => trivial
  | some x =>
    cases hy : store.values b with
    | none => trivial
    | some y => exact h x y hx hy

theorem valueInfo_eq {v : Ssa.ValueId} {t : TypeId} {info : TypeInfo}
    (hv : f.values[v.index]? = some t) (ht : m.types.infos[t.index]? = some info) :
    valueInfo m.types f v = some info := by
  simp [valueInfo, hv, ht]

/-- A step does what the reference says of the instruction. -/
theorem step_performs (hm : Plain m) (h : Matches m s f store i) {ins : Ssa.Instruction}
    (hins : f.instructions[i]? = some ins) :
    Performs m s f store i (effect m.types f store i ins) := by
  have hstep : ∀ (post : Option UInt64 → State σ → Prop) (allowed : Fault → Prop),
      (m.perform f ins).Meets s post allowed → m.step.Meets s post allowed :=
    fun _ _ => meets_step (Frame.current?_eq_some.mpr ⟨h.running.func, h.at_cursor hins⟩)
  have htyped := (h.sound hm).typed i ins hins
  have htargets := Ssa.Function.isWellFormed_targets (h.running.wellFormed hm.toLoaded) hins
  cases ins with
  | allocStack => exact hstep _ _ (h.allocStack hm hins)
  | constant r word => exact hstep _ _ (h.define hm hins rfl word)
  | binary op r a b =>
    obtain ⟨t, info, hr, -, -, hinfo, -⟩ := htyped
    have hheld := h.held hm hins (by simp)
    refine .withOperands (valueInfo_eq hr hinfo) fun x y hx hy => ?_
    cases op with
    | int op =>
      simp only [apply]
      cases hword : op.apply info x y with
      | some word =>
        refine hstep _ _ (hheld.meets_operands hr hinfo hx hy ?_)
        simp only [hword]
        exact h.define hm hins rfl word
      | none =>
        refine hstep _ _ (hheld.meets_operands hr hinfo hx hy ?_)
        simp only [hword]
        exact .bind (.throw rfl)
    | float op => exact hstep _ _ (hheld.meets_operands hr hinfo hx hy (h.define hm hins rfl _))
  | icmp pred r a b | fcmp pred r a b =>
    obtain ⟨t, info, -, ha, -, hinfo, -⟩ := htyped
    refine .withOperands (valueInfo_eq ha hinfo) fun x y hx hy => ?_
    exact hstep _ _ ((h.held hm hins (by simp)).meets_operands ha hinfo hx hy
      (h.define hm hins rfl _))
  | load r a =>
    simp only [effect]
    cases hword : store.locals a with
    | none => trivial
    | some word => exact hstep _ _ (h.load hm hins hword)
  | store a v =>
    obtain ⟨t, pointer, hv, -, hpointer⟩ := htyped
    obtain ⟨info, hinfo⟩ := (hm.types.pointee_registered hpointer).info
    have hvalue := valueInfo_eq hv hinfo
    simp only [effect, hvalue]
    cases hword : store.values v with
    | none => trivial
    | some word => exact hstep _ _ (h.write hm hins hvalue hword)
  | pushArg v =>
    refine hstep _ _ (.bind (meets_advance (.pure ⟨rfl, ?_, (Confined.refl m s).next⟩)))
    exact h.next hm hins rfl (by simp) rfl rfl (Nat.le_refl _) (h.held hm hins (by simp))
  | call id argc r =>
    obtain ⟨callee, args, hcallee, hargs, hcall⟩ := h.call hm hins
    simp only [effect, hargs]
    cases hwords : args.mapM store.values with
    | none => trivial
    | some words => exact ⟨callee, args, argc, hcallee, hins, hstep _ _ (hcall words hwords)⟩
  | jump target =>
    obtain ⟨e, he, hmatches⟩ := h.goTo hm hins (by simp) htargets
    exact ⟨e, he, hstep _ _ (.bind (meets_jump he (.pure ⟨rfl, hmatches,
      (Confined.refl m s).goTo _⟩)))⟩
  | branch c consequent alternative =>
    simp only [Ssa.Function.targetsOk, Bool.and_eq_true] at htargets
    simp only [effect]
    cases hword : store.values c with
    | none => trivial
    | some word =>
      have htarget : f.isTarget (if word = 0 then alternative else consequent) = true := by
        split
        · exact htargets.2
        · exact htargets.1
      obtain ⟨e, he, hmatches⟩ := h.goTo hm hins (by simp) htarget
      refine ⟨e, he, hstep _ _ (.bind ((h.held hm hins (by simp)).meets_getValue hword (.bind ?_)))⟩
      exact meets_jump he (.pure ⟨rfl, hmatches, (Confined.refl m s).goTo _⟩)
  | ret v =>
    simp only [effect]
    cases hword : store.values v with
    | none => trivial
    | some word =>
      intro post allowed hleave
      exact hstep _ _ (.bind ((h.held hm hins (by simp)).meets_getValue hword hleave))
  | retVoid => exact fun post allowed hleave => hstep _ _ hleave

end

/-! ### Many steps -/

/-- In `n` steps the machine comes from a state to one with `post`, or before that to an allowed
fault. -/
inductive Leads (m : Machine σ) (allowed : Fault → Prop) (post : State σ → Prop) :
    Nat → State σ → Prop
  | here {s : State σ} (h : post s) : Leads m allowed post 0 s
  | next {n : Nat} {s s' : State σ} (hstep : m.step s = .ok none s') (h : Leads m allowed post n
    s') : Leads m allowed post (n + 1) s
  | fault {n : Nat} {s s' : State σ} {e : Fault} (hstep : m.step s = .error e s') (h : allowed e) :
    Leads m allowed post n s

/-- The machine may fault so when the reference has an outcome. -/
def Allows (outcome : Outcome) (fault : Fault) : Prop :=
  fault.isExhaustion = true ∨ ∃ name, outcome = .dividedByZero name ∧ fault = .divisionByZero name

/-- The state that the activation of `s` comes to when the reference has an outcome. -/
def Reached (m : Machine σ) (s : State σ) : Outcome → State σ → Prop
  | .returned word, s' => Confined m s s' ∧ Returns m s' word
  | .undefined, _ | .unfinished, _ => True
  | .dividedByZero _, _ | .stuck, _ => False

/-- From `t` the machine comes to where the outcome of the activation of `s` leads it. If the bound
`fuel` was reached, it takes at least as many steps. -/
def Follows (m : Machine σ) (s t : State σ) (fuel : Nat) (outcome : Outcome) : Prop :=
  ∃ n, (outcome = .unfinished → fuel ≤ n) ∧ Leads m (Allows outcome) (Reached m s outcome) n t

section

variable {m : Machine σ} {s s' t : State σ} {f : Ssa.Function} {store : Store} {i fuel : Nat}
  {outcome : Outcome}

theorem Leads.mono {allowed : Fault → Prop} {post post' : State σ → Prop} {n : Nat}
    (h : Leads m allowed post n t) (hpost : ∀ u, post u → post' u) : Leads m allowed post' n t := by
  induction h with
  | here h => exact .here (hpost _ h)
  | next hstep _ ih => exact .next hstep ih
  | fault hstep h => exact .fault hstep h

namespace Follows

theorem of_step (h : m.step.Meets t (fun answer t' => answer = none ∧ Follows m s t' fuel outcome)
    (fun fault => fault.isExhaustion = true)) : Follows m s t (fuel + 1) outcome := by
  unfold Action.Meets at h
  cases hstep : m.step t with
  | ok answer t' =>
    rw [hstep] at h
    obtain ⟨rfl, n, hn, hleads⟩ := h
    exact ⟨n + 1, fun hunfinished => Nat.succ_le_succ (hn hunfinished), .next hstep hleads⟩
  | error e t' =>
    rw [hstep] at h
    exact ⟨fuel + 1, fun _ => Nat.le_refl _, .fault hstep (.inl h)⟩

theorem weaken (h : Follows m s t (fuel + 1) outcome) : Follows m s t fuel outcome := by
  obtain ⟨n, hn, hleads⟩ := h
  exact ⟨n, fun hunfinished => Nat.le_of_succ_le (hn hunfinished), hleads⟩

theorem confined (hconfined : Confined m s s') (h : Follows m s' t fuel outcome) :
    Follows m s t fuel outcome := by
  obtain ⟨n, hn, hleads⟩ := h
  refine ⟨n, hn, hleads.mono ?_⟩
  intro u hu
  cases outcome with
  | returned word => exact ⟨hconfined.trans hu.1, hu.2⟩
  | _ => exact hu

/-- An outcome of a callee that is not a return is the outcome of the caller too. -/
theorem of_callee (h : Follows m s' t fuel outcome) (hne : ∀ word, outcome ≠ .returned word) :
    Follows m s t fuel outcome := by
  obtain ⟨n, hn, hleads⟩ := h
  refine ⟨n, hn, hleads.mono ?_⟩
  intro u hu
  cases outcome with
  | returned word => exact absurd rfl (hne word)
  | _ => exact hu

/-- After a callee has returned the caller goes on. -/
theorem bind {word : UInt64} (h : Follows m s' t fuel (.returned word))
    (hrest : ∀ u, Confined m s' u → Returns m u word → Follows m s u fuel outcome) :
    Follows m s t fuel outcome := by
  obtain ⟨n, -, hleads⟩ := h
  induction hleads with
  | here h => exact hrest _ h.1 h.2
  | next hstep _ ih =>
    obtain ⟨n', hn', hleads'⟩ := ih
    exact ⟨n' + 1, fun hunfinished => Nat.le_succ_of_le (hn' hunfinished), .next hstep hleads'⟩
  | fault hstep h =>
    rcases h with h | ⟨name, hname, -⟩
    · exact ⟨fuel, fun _ => Nat.le_refl _, .fault hstep (.inl h)⟩
    · cases hname

end Follows

/-- The machine follows the reference from every state that corresponds to an activation. -/
theorem evaluate_follows (hm : Plain m) (fuel : Nat) (h : Matches m s f store i) :
    Follows m s s fuel (evaluate m.types m.module fuel f store i) := by
  induction fuel generalizing s f store i with
  | zero => exact ⟨0, fun _ => Nat.le_refl _, .here trivial⟩
  | succ fuel ih =>
    obtain ⟨ins, hins⟩ : ∃ ins, f.instructions[i]? = some ins := by
      rw [← h.cursor]
      exact ⟨_, Array.getElem?_eq_getElem h.running.cursor⟩
    have hperforms := step_performs hm h hins
    have hcontinues : ∀ {store' : Store} {j : Nat} (answer : Option UInt64) (s' : State σ),
        Continues m s f store' j answer s' →
        answer = none ∧ Follows m s s' fuel (evaluate m.types m.module fuel f store' j) := by
      rintro store' j answer s' ⟨hanswer, hmatches, hconfined⟩
      exact ⟨hanswer, (ih hmatches).confined hconfined⟩
    simp only [evaluate, hins]
    cases heffect : effect m.types f store i ins with
    | go store' =>
      rw [heffect] at hperforms
      exact .of_step (hperforms.mono hcontinues fun _ => id)
    | goTo target =>
      rw [heffect] at hperforms
      obtain ⟨e, he, hmeets⟩ := hperforms
      simp only [he]
      exact .of_step (hmeets.mono hcontinues fun _ => id)
    | call id words r =>
      rw [heffect] at hperforms
      obtain ⟨callee, args, argc, hcallee, hcall, hmeets⟩ := hperforms
      simp only [hcallee]
      refine .of_step (hmeets.mono ?_ fun _ h => h)
      rintro answer s' ⟨rfl, hentered, hmatches⟩
      refine ⟨rfl, ?_⟩
      have hfollows := ih hmatches
      cases houtcome : evaluate m.types m.module fuel callee (.ofArgs words) 0 with
      | returned word =>
        rw [houtcome] at hfollows
        refine hfollows.bind fun u hconfined hreturns => .weaken (.of_step (hreturns _ _ ?_))
        exact (h.resume hm hcall hentered hconfined word).mono hcontinues fun _ h => h
      | _ =>
        rw [houtcome] at hfollows
        exact hfollows.of_callee (by simp)
    | stop outcome =>
      rw [heffect] at hperforms
      cases outcome with
      | returned word => exact ⟨0, by simp, .here ⟨.refl m s, hperforms⟩⟩
      | dividedByZero name =>
        have hmeets : m.step.Meets s (fun _ _ => False) (fun fault =>
          fault = .divisionByZero name) := hperforms
        obtain ⟨e, s', hstep, he⟩ := hmeets.fault
        exact ⟨0, by simp, .fault hstep (.inr ⟨name, rfl, he⟩)⟩
      | undefined => exact ⟨0, by simp, .here trivial⟩
      | stuck => exact hperforms.elim
      | unfinished => exact hperforms.elim

end

/-! ### Whole runs -/

/-- A run ends with the answer of the reference, or where the reference divides by zero, or because
something does not suffice. -/
def Agrees (outcome : Outcome) (ending : Ending) : Prop :=
  (∃ word, outcome = .returned word ∧ ending = .returned word) ∨
    (∃ name, outcome = .dividedByZero name ∧ ending = .faulted (.divisionByZero name)) ∨
    ∃ fault, ending = .faulted fault ∧ fault.isShortage = true

/-- The endings of a run, by the bound on its steps, agree with the outcomes of the reference, by
its own bound: where the reference comes to an end the run does, and the other way round. -/
def Tracks (outcomes : Nat → Outcome) (endings : Nat → Ending) : Prop :=
  (∀ fuel, outcomes fuel ≠ .unfinished → ∃ enough, ∀ count ≥ enough, Agrees (outcomes fuel)
    (endings count)) ∧ ∀ count, endings count ≠ .unfinished → ∃ fuel,
    Agrees (outcomes fuel) (endings count)

theorem Tracks.of_shortage {outcomes : Nat → Outcome} {endings : Nat → Ending} {fault : Fault}
    (hfault : fault.isShortage = true) (h : ∀ count, endings count = .faulted fault) :
    Tracks outcomes endings :=
  ⟨fun _ _ => ⟨0, fun count _ => .inr (.inr ⟨fault, h count, hfault⟩)⟩,
    fun count _ => ⟨0, .inr (.inr ⟨fault, h count, hfault⟩)⟩⟩

section

variable {m : Machine σ} {s t : State σ} {f : Ssa.Function} {fuel : Nat} {outcome : Outcome}

/-- A run that has come to an end stays there. -/
theorem iterate_add {count : Nat} (h : (m.iterate count t).1 ≠ .unfinished) (more : Nat) :
    m.iterate (count + more) t = m.iterate count t := by
  induction count generalizing t with
  | zero => exact absurd rfl h
  | succ count ih =>
    rw [Nat.add_right_comm]
    simp only [iterate] at h ⊢
    cases hstep : m.step t with
    | ok answer t' =>
      cases answer with
      | some word => rfl
      | none =>
        rw [hstep] at h
        exact ih h
    | error e t' => rfl

/-- With no more steps than these the run is unfinished or faults. -/
theorem Leads.early {allowed : Fault → Prop} {post : State σ → Prop} {n : Nat}
    (h : Leads m allowed post n t) {count : Nat} (hcount : count ≤ n) :
    (m.iterate count t).1 = .unfinished ∨ ∃ e, (m.iterate count t).1 = .faulted e ∧ allowed e := by
  induction h generalizing count with
  | here =>
    obtain rfl : count = 0 := by omega
    exact .inl rfl
  | next hstep _ ih =>
    cases count with
    | zero => exact .inl rfl
    | succ count =>
      simp only [iterate, hstep]
      exact ih (by omega)
  | fault hstep h =>
    cases count with
    | zero => exact .inl rfl
    | succ count =>
      simp only [iterate, hstep]
      exact .inr ⟨_, rfl, h⟩

/-- With more steps the run goes on from where it was led, or faults. -/
theorem Leads.late {allowed : Fault → Prop} {post : State σ → Prop} {n : Nat}
    (h : Leads m allowed post n t) (count : Nat) :
    (∃ u, post u ∧ m.iterate (n + (count + 1)) t = m.iterate (count + 1) u) ∨
      ∃ e, (m.iterate (n + (count + 1)) t).1 = .faulted e ∧ allowed e := by
  induction h with
  | here h => exact .inl ⟨_, h, by rw [Nat.zero_add]⟩
  | next hstep _ ih =>
    rw [Nat.add_right_comm]
    simp only [iterate, hstep]
    exact ih
  | @fault n t t' e hstep h =>
    rw [← Nat.add_assoc]
    simp only [iterate, hstep]
    exact .inr ⟨e, rfl, h⟩

/-- A return of the first activation ends the run. -/
theorem Returns.iterate {word : UInt64} (h : Returns m t word) (hbase : t.frame.base = 1)
    (hcaller : t.frame.caller = Frame.noCaller) (hsize : 0 < t.registers.size) (count : Nat) :
    (m.iterate (count + 1) t).1 = .returned word := by
  have hone : t.frame.base.toNat = 1 := by rw [hbase]; rfl
  have hstep : m.step.Meets t (fun answer _ => answer = some word) (fun _ => False) := by
    refine h _ _ (meets_leave_last (by omega) (by omega) hcaller fun answer hanswer => ?_)
    rw [hone, Array.getElem?_setIfInBounds] at hanswer
    simpa [hsize] using hanswer.symm
  simp only [MicroCompiler.Machine.iterate]
  unfold Action.Meets at hstep
  split
  next answer t' hok =>
    rw [hok] at hstep
    obtain rfl : answer = word := by simpa using hstep
    rfl
  next t' hok =>
    rw [hok] at hstep
    cases hstep
  next e t' herror =>
    rw [herror] at hstep
    exact hstep.elim

/-- Where the reference comes to an end, so does the run. -/
theorem Follows.agrees (h : Follows m s s fuel outcome) (hbase : s.frame.base = 1)
    (hcaller : s.frame.caller = Frame.noCaller) (hsize : 0 < s.registers.size)
    (hdefined : outcome ≠ .undefined) (hfinished : outcome ≠ .unfinished) :
    ∃ enough, ∀ count ≥ enough, Agrees outcome (m.iterate count s).1 := by
  obtain ⟨n, -, hleads⟩ := h
  refine ⟨n + 1, ?_⟩
  intro count hcount
  obtain ⟨more, rfl⟩ : ∃ more, count = n + (more + 1) := ⟨count - n - 1, by omega⟩
  rcases hleads.late more with ⟨u, hu, hiterate⟩ | ⟨e, he, hexhausted | ⟨name, hname, hfault⟩⟩
  · cases outcome with
    | returned word =>
      obtain ⟨hconfined, hreturns⟩ := hu
      refine .inl ⟨word, rfl, ?_⟩
      rw [hiterate]
      exact hreturns.iterate (hconfined.base.trans hbase) (hconfined.caller.trans hcaller)
        (Nat.lt_of_lt_of_le hsize hconfined.size) more
    | undefined => exact absurd rfl hdefined
    | unfinished => exact absurd rfl hfinished
    | dividedByZero name => exact hu.elim
    | stuck => exact hu.elim
  · exact .inr (.inr ⟨e, he, Fault.isShortage_of_isExhaustion hexhausted⟩)
  · exact .inr (.inl ⟨name, hname, by rw [he, hfault]⟩)

theorem Started.corresponds (hm : Plain m) {id : Ssa.FuncId} {args : List UInt64}
    (hf : m.module.functions[id.index]? = some f) (hargs : args.length = f.argCount)
    (h : Started m s id f args t) : Matches m t f (.ofArgs args) 0 := by
  obtain ⟨hcursor, hruns⟩ := h.runs hm.toLoaded hf (hm.bodies _ f hf)
  have hone : t.frame.base.toNat = 1 := by rw [h.base]; rfl
  refine ⟨hruns, by rw [hcursor]; rfl, fun _ => ⟨?_, ?_, fun _ => rfl⟩, fun hne => absurd rfl hne⟩
  · rw [h.stackOffset, h.frameAt, Nat.zero_add]
  · intro v word hv
    have hlt := (List.getElem?_eq_some_iff.mp (show args[v.index]? = some word from hv)).1
    exact ⟨by omega, by rw [hone]; exact h.args v.index word hv⟩

/-- The steps of a run track the reference. -/
theorem iterate_tracks (hm : Plain m) {id : Ssa.FuncId} {args : List UInt64}
    (hf : m.module.functions[id.index]? = some f) (hargs : args.length = f.argCount)
    (h : Started m s id f args t) (hdefined : ∀ fuel, evaluateCall m.types m.module fuel f args ≠
      .undefined) :
    Tracks (fun fuel => evaluateCall m.types m.module fuel f args) (fun count =>
      (m.iterate count t).1) := by
  have hfollows : ∀ fuel, Follows m t t fuel (evaluateCall m.types m.module fuel f args) :=
    fun fuel => evaluate_follows hm fuel (h.corresponds hm hf hargs)
  have hsize : 0 < t.registers.size := by
    have := h.window
    omega
  refine ⟨fun fuel => (hfollows fuel).agrees h.base h.caller hsize (hdefined fuel), ?_⟩
  intro count hended
  refine ⟨count, ?_⟩
  by_cases hunfinished : evaluateCall m.types m.module count f args = .unfinished
  · -- The reference has not come to an end in `count`, so neither has the machine.
    obtain ⟨n, hn, hleads⟩ := hfollows count
    rcases hleads.early (hn hunfinished) with hnone | ⟨e, he, hexhausted | ⟨name, hname, -⟩⟩
    · exact absurd hnone hended
    · exact .inr (.inr ⟨e, he, Fault.isShortage_of_isExhaustion hexhausted⟩)
    · rw [hunfinished] at hname
      cases hname
  · obtain ⟨enough, henough⟩ := (hfollows count).agrees h.base h.caller hsize
      (hdefined count) hunfinished
    have hagrees := henough (count + enough) (Nat.le_add_left _ _)
    rw [iterate_add hended] at hagrees
    exact hagrees

theorem execute_tracks (hm : Plain m) {id : Ssa.FuncId} {args : List UInt64}
    (hf : m.module.functions[id.index]? = some f) (hargs : args.length = f.argCount)
    (hdefined : ∀ fuel, evaluateCall m.types m.module fuel f args ≠ .undefined) :
    Tracks (fun fuel => evaluateCall m.types m.module fuel f args) (fun count =>
      (m.execute count id f args s).1) := by
  have hstart := hm.meets_start (s := s) hf (hm.bodies _ f hf) hargs
  unfold Action.Meets at hstart
  cases hfirst : m.start id f args s with
  | ok _ t =>
    rw [hfirst] at hstart
    simpa only [execute, hfirst] using iterate_tracks hm hf hargs hstart hdefined
  | error fault t =>
    rw [hfirst] at hstart
    exact .of_shortage (Fault.isShortage_of_isExhaustion hstart)
      fun count => by simp only [execute, hfirst]

end

end MicroCompiler.Machine

/-! ### Sessions -/

namespace MicroCompiler.Session

open Machine Reference

variable {σ : Type}

/-- A run of code without native functions agrees with the reference, if that reads nothing before
it is written: when the reference comes to an end the run does, with the same answer or the same
division by zero, unless registers, stack bytes or the arena do not suffice; and every run that
comes to an end agrees with the reference. The positions in a function must fit in a header. -/
theorem run_agrees_evaluate {steps : List Ssa.Step} {b : Ssa.Builder}
    (hbuild : Ssa.Step.runAll .initial steps = .ok b)
    (hbodies : ∀ f ∈ b.module.functions, f.foreign = none)
    (hwellFormed : ∀ f ∈ b.module.functions, f.isWellFormed = true)
    (hlocals : ∀ f ∈ b.module.functions, usesLocals f = true)
    (hpositions : ∀ f ∈ b.module.functions, f.instructions.size ≤ UInt32.size)
    (library : Native.Library σ) (limits : Limits) {id : Ssa.FuncId} {f : Ssa.Function}
    (hf : b.module.get id = .ok f) {args : List UInt64}
    (hargs : args.length = f.argCount)
    (hdefined : ∀ fuel, evaluateCall b.types b.module fuel f args ≠ .undefined)
    (session : Session σ) : (∀ fuel, evaluateCall b.types b.module fuel f args ≠ .unfinished →
      ∃ enough, ∀ count ≥ enough, Agrees (evaluateCall b.types b.module fuel f args)
        (run ⟨b.module, b.types, library, limits⟩ count id args session).1) ∧
    ∀ count, (run ⟨b.module, b.types, library, limits⟩ count id args session).1 ≠ .unfinished →
      ∃ fuel, Agrees (evaluateCall b.types b.module fuel f args)
        (run ⟨b.module, b.types, library, limits⟩ count id args session).1 := by
  have hlookup : b.module.functions[id.index]? = some f := fetch_eq_ok.mp (mapError_eq_ok.mp hf)
  have hending := run_ending (e := ⟨b.module, b.types, library, limits⟩) hf
    (hbodies f (Array.mem_of_getElem? hlookup)) hargs session
  show Tracks (fun fuel => evaluateCall b.types b.module fuel f args)
    (fun count => (run ⟨b.module, b.types, library, limits⟩ count id args session).1)
  simp only [hending]
  cases halloc : Arena.alloc limits.stackSize 16 1 session.arena with
  | error error arena =>
    obtain ⟨_, _, _, _, rfl⟩ := Arena.alloc_error halloc
    exact .of_shortage rfl fun _ => rfl
  | ok base taken =>
    by_cases hstack : Frame.noCaller.toNat ≤ limits.stackSize.toNat
    · simp only [hstack, if_true]
      exact .of_shortage rfl fun _ => rfl
    · simp only [hstack, if_false]
      have hm : Plain (Environment.machine ⟨b.module, b.types, library, limits⟩ base) :=
        { toLoaded := loaded hbuild hwellFormed rfl rfl (Nat.lt_of_not_le hstack)
          bodies := fun k g hg => hbodies g (Array.mem_of_getElem? hg)
          locals := fun k g hg => hlocals g (Array.mem_of_getElem? hg)
          positions := fun k g hg => hpositions g (Array.mem_of_getElem? hg) }
      exact execute_tracks hm hlookup hargs hdefined

/-- The factorial, with the argument kept in a local across the recursive call. -/
def factorialSteps : List Ssa.Step :=
  [.function "factorial" [.id .i64] (some (.id .i64)), .alloca (.id .i64), .store ⟨1⟩ ⟨0⟩,
    .constant (.id .i64) 0, .icmp .eq ⟨0⟩ ⟨2⟩, .createBlock, .createBlock, .branch ⟨3⟩ ⟨1⟩ ⟨2⟩,
    .switchTo ⟨1⟩, .constant (.id .i64) 1, .ret ⟨4⟩,
    .switchTo ⟨2⟩, .constant (.id .i64) 1, .binary (.int .sub) ⟨0⟩ ⟨5⟩, .call ⟨0⟩ [⟨6⟩], .load ⟨1⟩,
    .binary (.int .mul) ⟨8⟩ ⟨7⟩, .ret ⟨9⟩]

/-- The factorial of 4 is 24 for the reference and for every run that is long enough. -/
theorem run_agrees_evaluate_factorial :
    ∃ b f, Ssa.Step.runAll .initial factorialSteps = .ok b ∧ b.module.get ⟨0⟩ = .ok f ∧
      evaluateCall b.types b.module 60 f [4] = .returned 24 ∧
      (∃ enough, ∀ count ≥ enough, Agrees (.returned 24)
        (run ⟨b.module, b.types, noSymbols, .standard⟩ count ⟨0⟩ [4] blank).1) ∧
      (run ⟨b.module, b.types, noSymbols, .standard⟩ 60 ⟨0⟩ [4] blank).1 =
        .returned 24 ∧
      ∃ fuel, Agrees (evaluateCall b.types b.module fuel f [4]) (.returned 24) := by
  have hcheck : (match Ssa.Step.runAll .initial factorialSteps with
      | .error _ => false
      | .ok b =>
        b.module.functions.all (fun f => f.foreign.isNone && f.isWellFormed && usesLocals f &&
            decide (f.instructions.size ≤ UInt32.size)) &&
          (b.module.functions[0]?.any fun f => f.argCount == 1 &&
            evaluateCall b.types b.module 60 f [4] == .returned 24)) = true := by decide +kernel
  have hending : (match Ssa.Step.runAll .initial factorialSteps with
      | .error _ => Ending.unfinished
      | .ok b => (run ⟨b.module, b.types, noSymbols, .standard⟩ 60 ⟨0⟩ [4]
          blank).1) = .returned 24 := by decide +kernel
  cases hbuild : Ssa.Step.runAll .initial factorialSteps with
  | error e => simp [hbuild] at hcheck
  | ok b =>
    simp only [hbuild, Bool.and_eq_true, Array.all_eq_true_iff_forall_mem] at hcheck hending
    obtain ⟨hfunctions, hmain⟩ := hcheck
    cases hf : b.module.functions[0]? with
    | none => simp [hf] at hmain
    | some f =>
      obtain ⟨hargs, hvalue⟩ : f.argCount = 1 ∧ evaluateCall b.types b.module 60 f [4] =
          .returned 24 := by
        simpa [hf] using hmain
      have hget : b.module.get ⟨0⟩ = .ok f := mapError_eq_ok.mpr (fetch_eq_ok.mpr hf)
      have hfinished : evaluateCall b.types b.module 60 f [4] ≠ .unfinished := by simp [hvalue]
      have hdefined : ∀ fuel, evaluateCall b.types b.module fuel f [4] ≠ .undefined := by
        intro fuel hundefined
        rcases evaluateCall_unique hfinished fuel with h | h
        · rw [hundefined] at h
          cases h
        · rw [hundefined, hvalue] at h
          cases h
      obtain ⟨hforward, hbackward⟩ := run_agrees_evaluate hbuild
        (fun g hg => by simpa using (hfunctions g hg).1.1.1)
        (fun g hg => (hfunctions g hg).1.1.2) (fun g hg => (hfunctions g hg).1.2)
        (fun g hg => of_decide_eq_true (hfunctions g hg).2) noSymbols .standard hget
        (by rw [hargs]; rfl) hdefined blank
      refine ⟨b, f, rfl, hget, hvalue, ?_, hending, ?_⟩
      · simpa only [hvalue] using hforward 60 hfinished
      · simpa only [hending] using hbackward 60 (by simp [hending])

end MicroCompiler.Session
