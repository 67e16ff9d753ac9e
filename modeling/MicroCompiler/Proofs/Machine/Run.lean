import MicroCompiler.Proofs.Arena
import MicroCompiler.Proofs.Machine.Action

/-! Runs, step by step. Beside the states of a run may go a ghost: a value that no step looks at and
that every step brings up to date. A run arrives at its states by steps of some kind, so what one
step of that kind keeps, all states have. The states of a run of code at hand can be computed. -/

namespace MicroCompiler

variable {σ γ : Type}

/-- The machine of a run whose stack begins at an address. -/
def Environment.machine (e : Environment σ) (base : UInt64) : Machine σ :=
  ⟨e, ⟨base, e.limits.stackSize.toNat⟩⟩

namespace Machine

/-- The function of an activation, and the instruction at its position. -/
def Frame.current? (m : Ssa.Module) (frame : Frame) : Option (Ssa.Function × Ssa.Instruction) := do
  let f ← m.functions[frame.func.toNat]?
  let ins ← f.instructions[frame.cursor.toNat]?
  pure (f, ins)

/-- What goes beside the states of a run. -/
structure Ghost (σ γ : Type) where
  /-- Beside the first state of a run of a function. -/
  first : Ssa.Function → γ
  /-- After the step from a state. -/
  next : Machine σ → State σ → γ → γ

/-- Nothing. -/
def Ghost.empty : Ghost σ Unit := ⟨fun _ => (), fun _ _ _ => ()⟩

/-- The step from a state ends the run. -/
def EndsIn (m : Machine σ) (s : State σ) : Ending → Prop
  | .returned word => ∃ s', m.step s = .ok (some word) s'
  | .faulted fault => ∃ s', m.step s = .error fault s'
  | .unfinished => True

/-- The state after a step that does not end the run. -/
def next? (m : Machine σ) (s : State σ) : Option (State σ) :=
  match m.step s with
  | .ok none s' => some s'
  | _ => none

/-- The state after a number of steps that pass a check, with its ghost. -/
def follow (m : Machine σ) (ghost : Ghost σ γ) (check : State σ → State σ → Bool) :
    Nat → State σ → γ → Option (State σ × γ)
  | 0, s, g => some (s, g)
  | count + 1, s, g =>
    ((m.next? s).filter (check s)).bind fun s' => m.follow ghost check count s' (ghost.next m s g)

/-- Whether a run ends within a number of steps, and all its states pass a check. -/
def passes (m : Machine σ) (ghost : Ghost σ γ) (check : State σ → γ → Bool) :
    Nat → State σ → γ → Bool
  | 0, _, _ => false
  | count + 1, s, g =>
    check s g && (m.next? s).all fun s' => m.passes ghost check count s' (ghost.next m s g)

section

variable {m : Machine σ} {s s' : State σ}

theorem Frame.current?_eq_some {module : Ssa.Module} {frame : Frame} {f : Ssa.Function}
    {ins : Ssa.Instruction} : frame.current? module = some (f, ins) ↔
      module.functions[frame.func.toNat]? = some f ∧
        f.instructions[frame.cursor.toNat]? = some ins := by
  simp only [current?, Option.bind_eq_bind, Option.pure_def, Option.bind_eq_some_iff,
    Option.some.injEq, Prod.mk.injEq]
  constructor
  · rintro ⟨f', hf, ins', hins, rfl, rfl⟩
    exact ⟨hf, hins⟩
  · rintro ⟨hf, hins⟩
    exact ⟨f, hf, ins, hins, rfl, rfl⟩

/-- A step carries out the instruction at the position of the running activation. -/
theorem step_eq_perform {f : Ssa.Function} {ins : Ssa.Instruction}
    (h : s.frame.current? m.module = some (f, ins)) : m.step s = m.perform f ins s := by
  obtain ⟨hf, hins⟩ := Frame.current?_eq_some.mp h
  have hget : m.module.get ⟨s.frame.func.toNat⟩ = .ok f := mapError_eq_ok.mpr (fetch_eq_ok.mpr hf)
  simp only [step, frame, checked, bind, EStateM.bind, hget, pure, EStateM.pure, hins]

theorem meets_step {f : Ssa.Function} {ins : Ssa.Instruction}
    (hcurrent : s.frame.current? m.module = some (f, ins)) {post : Option UInt64 → State σ → Prop}
    {allowed : Fault → Prop} (h : (m.perform f ins).Meets s post allowed) :
    m.step.Meets s post allowed := by
  rwa [Action.Meets, step_eq_perform hcurrent]

theorem next?_eq_some : m.next? s = some s' ↔ m.step s = .ok none s' := by
  unfold next?
  split
  next hstep => simp [hstep]
  next hother => exact ⟨(by cases ·), fun h => absurd h (hother _)⟩

end

end Machine

/-! ### The stack of a run -/

theorem Arena.alloc_error {a a' : Arena} {size : UInt64} {error : Arena.Error}
    (h : alloc size 16 1 a = .error error a') :
    ∃ bytes align used capacity, error = .exhausted bytes align used capacity := by
  have hpower : isPowerOfTwo 16 = true := by decide
  have hsize : size.toNat * (1 : UInt64).toNat < UInt64.size := by
    have hlt := size.toNat_lt
    have hone : (1 : UInt64).toNat = 1 := rfl
    simp only [hone, UInt64.size]
    omega
  rw [alloc_eq, if_pos hpower, if_pos hsize] at h
  simp only at h
  split at h
  next => cases h
  next =>
    cases h
    exact ⟨_, _, _, _, rfl⟩

/-- Stacks begin at multiples of 16, wherever the arena is. -/
theorem Arena.alloc_aligned {a a' : Arena} {size address : UInt64}
    (h : alloc size 16 1 a = .ok address a') : 16 ∣ address.toNat := by
  obtain ⟨-, -, start, hstart, -, -, rfl, -⟩ := alloc_eq_ok h
  have hlow : (~~~ ((16 : UInt64) - 1)).toNat = 2 ^ 64 - 1 - (2 ^ 4 - 1) := by decide
  have haddress : a.base + start = alignUp (a.base + a.used) 16 := by
    rw [hstart, UInt64.add_comm, UInt64.sub_add_cancel]
  rw [haddress, alignUp, UInt64.toNat_and, hlow, and_highBits (UInt64.toNat_lt _) (by decide)]
  exact Nat.dvd_mul_left _ _

namespace Session

open Machine

/-- The machine and the first state of a run of a function with a body. -/
def entry? (e : Environment σ) (id : Ssa.FuncId) (f : Ssa.Function) (args : List UInt64)
    (session : Session σ) : Option (Machine σ × State σ) :=
  if args.length ≠ f.argCount ∨ f.isExternal = true ∨
      Frame.noCaller.toNat ≤ e.limits.stackSize.toNat then none
  else
    match Arena.alloc e.limits.stackSize 16 1 session.arena with
    | .error _ _ => none
    | .ok base _ =>
      match (e.machine base).start id f args session.state with
      | .error _ _ => none
      | .ok () first => some (e.machine base, first)

/-- The run of a function with a body arrives by steps of a kind at a state of its machine, with
its ghost. -/
inductive Arrives (ghost : Ghost σ γ) (kind : Machine σ → State σ → State σ → Prop)
    (e : Environment σ) (id : Ssa.FuncId) (f : Ssa.Function) (args : List UInt64)
    (session : Session σ) : Machine σ → State σ → γ → Prop
  | start {m : Machine σ} {first : State σ} (h : session.entry? e id f args = some (m, first)) :
    Arrives ghost kind e id f args session m first (ghost.first f)
  | step {m : Machine σ} {s s' : State σ} {g : γ}
    (h : Arrives ghost kind e id f args session m s g) (hstep : m.step s = .ok none s')
    (hkind : kind m s s') : Arrives ghost kind e id f args session m s' (ghost.next m s g)

/-- The state after a number of steps of a run that pass a check, with its machine and its ghost. -/
def follow (e : Environment σ) (ghost : Ghost σ γ) (check : Machine σ → State σ → State σ → Bool)
    (count : Nat) (id : Ssa.FuncId) (f : Ssa.Function) (args : List UInt64) (session : Session σ) :
    Option (Machine σ × State σ × γ) :=
  (session.entry? e id f args).bind fun entry =>
    (entry.1.follow ghost (check entry.1) count entry.2 (ghost.first f)).map (entry.1, ·)

/-- Whether a run ends within a number of steps, and all its states pass a check. -/
def passes (e : Environment σ) (ghost : Ghost σ γ) (check : Machine σ → State σ → γ → Bool)
    (count : Nat) (id : Ssa.FuncId) (f : Ssa.Function) (args : List UInt64) (session : Session σ) :
    Bool :=
  (session.entry? e id f args).all fun entry =>
    entry.1.passes ghost (check entry.1) count entry.2 (ghost.first f)

section

variable {e : Environment σ} {id : Ssa.FuncId} {f : Ssa.Function} {args : List UInt64}
  {session : Session σ} {m : Machine σ} {s s' : State σ} {g g' : γ} {ghost : Ghost σ γ}
  {kind : Machine σ → State σ → State σ → Prop}

theorem entry?_eq_some : session.entry? e id f args = some (m, s) ↔
    args.length = f.argCount ∧ f.isExternal = false ∧
      e.limits.stackSize.toNat < Frame.noCaller.toNat ∧
      ∃ base taken, Arena.alloc e.limits.stackSize 16 1 session.arena = .ok base taken ∧
        m = e.machine base ∧ m.start id f args session.state = .ok () s := by
  unfold entry?
  split
  next hbad =>
    refine ⟨(by cases ·), ?_⟩
    rintro ⟨hcount, hbody, hfits, -⟩
    simp only [hcount, hbody, ne_eq, not_true_eq_false, Bool.false_eq_true, false_or] at hbad
    omega
  next hgood =>
    simp only [not_or, ne_eq, Decidable.not_not, Bool.not_eq_true, Nat.not_le] at hgood
    obtain ⟨hcount, hbody, hfits⟩ := hgood
    simp only [hcount, hbody, hfits, true_and]
    cases halloc : Arena.alloc e.limits.stackSize 16 1 session.arena with
    | error error arena => simp
    | ok base taken =>
      simp only [EStateM.Result.ok.injEq]
      constructor
      · intro h
        split at h
        next => cases h
        next first hstart =>
          obtain ⟨rfl, rfl⟩ : e.machine base = m ∧ first = s := by simpa using h
          exact ⟨base, taken, ⟨rfl, rfl⟩, rfl, hstart⟩
      · rintro ⟨_, _, ⟨rfl, rfl⟩, rfl, hstart⟩
        simp only [hstart]

namespace Arrives

theorem entry (h : session.Arrives ghost kind e id f args m s g) :
    ∃ first, session.entry? e id f args = some (m, first) := by
  induction h with
  | start hentry => exact ⟨_, hentry⟩
  | step _ _ _ ih => exact ih

/-- The machine of a run has the code of its environment. -/
theorem machine (h : session.Arrives ghost kind e id f args m s g) :
    m.module = e.module ∧ m.types = e.types := by
  obtain ⟨first, hentry⟩ := h.entry
  obtain ⟨-, -, -, base, taken, -, rfl, -⟩ := entry?_eq_some.mp hentry
  exact ⟨rfl, rfl⟩

/-- A run all of whose steps are of a kind arrives by them. -/
theorem strengthen (h : session.Arrives ghost (fun _ _ _ => True) e id f args m s g)
    (hkind : ∀ m t u t', session.Arrives ghost kind e id f args m t u → m.step t = .ok none t' →
      kind m t t') : session.Arrives ghost kind e id f args m s g := by
  induction h with
  | start hentry => exact .start hentry
  | step _ hstep _ ih => exact .step ih hstep (hkind _ _ _ _ ih hstep)

/-- A run that goes on from a state comes to a step that ends it. -/
theorem endsIn (h : session.Arrives ghost (fun _ _ _ => True) e id f args m s g) (count : Nat) :
    ∃ t u, session.Arrives ghost (fun _ _ _ => True) e id f args m t u ∧
      m.EndsIn t (m.iterate count s).1 := by
  induction count generalizing s g with
  | zero => exact ⟨s, g, h, trivial⟩
  | succ count ih =>
    simp only [iterate]
    split
    next hstep => exact ⟨s, g, h, _, hstep⟩
    next hstep => exact ih (.step h hstep trivial)
    next hstep => exact ⟨s, g, h, _, hstep⟩

theorem of_follow {check : Machine σ → State σ → State σ → Bool}
    (hkind : ∀ m s s', check m s s' = true → kind m s s') {count : Nat}
    (hfollow : session.follow e ghost check count id f args = some (m, s, g)) :
    session.Arrives ghost kind e id f args m s g := by
  obtain ⟨⟨m', first⟩, hentry, hrest⟩ := Option.bind_eq_some_iff.mp hfollow
  obtain ⟨⟨t, u⟩, hsteps, heq⟩ := Option.map_eq_some_iff.mp hrest
  obtain ⟨rfl, rfl, rfl⟩ : m' = m ∧ t = s ∧ u = g := by simpa using heq
  have hfirst : session.Arrives ghost kind e id f args m' first (ghost.first f) := .start hentry
  generalize ghost.first f = g' at hsteps hfirst
  clear hentry hfollow hrest heq
  induction count generalizing first g' with
  | zero =>
    obtain ⟨rfl, rfl⟩ : first = t ∧ g' = u := by simpa [Machine.follow] using hsteps
    exact hfirst
  | succ count ih =>
    obtain ⟨s', hnext, hsteps⟩ := Option.bind_eq_some_iff.mp hsteps
    obtain ⟨hnext, hcheck⟩ := Option.filter_eq_some_iff.mp hnext
    exact ih s' _ hsteps (.step hfirst (next?_eq_some.mp hnext) (hkind _ _ _ hcheck))

theorem of_passes {check : Machine σ → State σ → γ → Bool} {count : Nat}
    (hpasses : session.passes e ghost check count id f args = true)
    (h : session.Arrives ghost kind e id f args m s g) : check m s g = true := by
  have hrest : ∃ rest, m.passes ghost (check m) rest s g = true := by
    induction h with
    | start hentry =>
      simp only [Session.passes, hentry, Option.all_some] at hpasses
      exact ⟨count, hpasses⟩
    | step _ hstep _ ih =>
      obtain ⟨rest, hrest⟩ := ih
      cases rest with
      | zero => cases hrest
      | succ rest =>
        simp only [Machine.passes, next?_eq_some.mpr hstep, Option.all_some,
          Bool.and_eq_true] at hrest
        exact ⟨rest, hrest.2⟩
  obtain ⟨rest, hrest⟩ := hrest
  cases rest with
  | zero => cases hrest
  | succ rest =>
    simp only [Machine.passes, Bool.and_eq_true] at hrest
    exact hrest.1

end Arrives

/-- How a run of a function with a body ends. -/
theorem run_ending (hf : e.module.get id = .ok f) (hbody : f.foreign = none)
    (hargs : args.length = f.argCount) (session : Session σ) (count : Nat) :
    (run e count id args session).1 =
      match Arena.alloc e.limits.stackSize 16 1 session.arena with
      | .error error _ => .faulted (.arena error)
      | .ok base _ =>
        if Frame.noCaller.toNat ≤ e.limits.stackSize.toNat then
          .faulted (.stackTooLarge e.limits.stackSize.toNat)
        else ((e.machine base).execute count id f args session.state).1 := by
  have hnative : f.isExternal = false := by simp [Ssa.Function.isExternal, hbody]
  simp only [run, hf, hargs, ne_eq, not_true_eq_false, if_false, hnative, Bool.false_eq_true]
  cases Arena.alloc e.limits.stackSize 16 1 session.arena with
  | error error arena => rfl
  | ok base taken =>
    simp only
    split
    next => rfl
    next =>
      simp only [Environment.machine]
      split
      next hexecute => rw [hexecute]
      next hexecute => rw [hexecute]

/-- A run of a function with a body starts and comes to a step that ends it, or ends in a fault
before its first step. -/
theorem run_ends (ghost : Ghost σ γ) (hf : e.module.get id = .ok f) (hbody : f.foreign = none)
    (hargs : args.length = f.argCount) (session : Session σ) (count : Nat) :
    (∃ m s g, session.Arrives ghost (fun _ _ _ => True) e id f args m s g ∧
      m.EndsIn s (run e count id args session).1) ∨
    ∃ fault, (run e count id args session).1 = .faulted fault ∧
      ((∃ error arena, Arena.alloc e.limits.stackSize 16 1 session.arena = .error error arena ∧
          fault = .arena error) ∨
        fault = .stackTooLarge e.limits.stackSize.toNat ∨
        e.limits.stackSize.toNat < Frame.noCaller.toNat ∧
          ∃ base after, (e.machine base).start id f args session.state = .error fault after) := by
  have hlocal : f.isExternal = false := by simp [Ssa.Function.isExternal, hbody]
  rw [run_ending hf hbody hargs]
  cases halloc : Arena.alloc e.limits.stackSize 16 1 session.arena with
  | error error arena => exact .inr ⟨_, rfl, .inl ⟨error, arena, rfl, rfl⟩⟩
  | ok base taken =>
    simp only
    split
    next => exact .inr ⟨_, rfl, .inr (.inl rfl)⟩
    next hfits =>
      unfold execute
      split
      next first hstart =>
        have hentry : session.entry? e id f args = some (e.machine base, first) :=
          entry?_eq_some.mpr ⟨hargs, hlocal, Nat.lt_of_not_le hfits, base,
            taken, halloc, rfl, hstart⟩
        have hfirst : session.Arrives ghost (fun _ _ _ => True) e id f args (e.machine base) first
            (ghost.first f) := .start hentry
        obtain ⟨t, u, harrives, hends⟩ := hfirst.endsIn count
        exact .inl ⟨_, t, u, harrives, hends⟩
      next fault after hstart =>
        exact .inr ⟨fault, rfl, .inr (.inr ⟨Nat.lt_of_not_le hfits, base, after, hstart⟩)⟩

end

/-! ### Code at hand -/

/-- A session with an arena of 64 KiB in which nothing was run yet. -/
def blank : Session Unit := ⟨.empty 4096 65536, .fresh 4096, [], ()⟩

/-- A library without symbols. -/
def noSymbols : Native.Library Unit :=
  ⟨fun _ s => (none, s), fun _ _ _ memory s => ⟨.ok 0, memory, s⟩⟩

/-- Builds code and takes one of its functions, which has a body and no arguments; then there is
still something to check. -/
def builds (steps : List Ssa.Step) (index : Nat) (check : Ssa.Builder → Ssa.Function → Bool) :
    Bool :=
  (Ssa.Step.runAll .initial steps).toOption.any fun b =>
    b.module.functions[index]?.any fun f => f.argCount == 0 && !f.isExternal && check b f

theorem exists_of_builds {steps : List Ssa.Step} {index : Nat}
    {check : Ssa.Builder → Ssa.Function → Bool} (h : builds steps index check = true) :
    ∃ b f, Ssa.Step.runAll .initial steps = .ok b ∧ b.module.get ⟨index⟩ = .ok f ∧ f.argCount = 0 ∧
      f.isExternal = false ∧ check b f = true := by
  unfold builds at h
  cases hbuild : Ssa.Step.runAll .initial steps with
  | error e => simp [hbuild, Except.toOption] at h
  | ok b =>
    simp only [hbuild, Except.toOption, Option.any_some, Option.any_eq_true, Bool.and_eq_true,
      beq_iff_eq, Bool.not_eq_true'] at h
    obtain ⟨f, hf, ⟨hcount, hbody⟩, hcheck⟩ := h
    exact ⟨b, f, rfl, mapError_eq_ok.mpr (fetch_eq_ok.mpr hf), hcount, hbody, hcheck⟩

end Session

end MicroCompiler
