import MicroCompiler.Proofs.Ssa.Sound

/-! Code that can be run. In a well-formed function no instruction but a terminator is the last one
and jumps lead to instructions; the arguments of a call are found right before it. A script that
names good ids only makes functions whose values all have registered types. -/

namespace MicroCompiler.Ssa

/-! ### Well-formed functions -/

namespace Function

variable {f : Function}

theorem slice_eq_ok {table : Array α} {start length : Nat} {xs : List α}
    (h : BoundsError.slice table start length = .ok xs) :
    start + length ≤ table.size ∧ xs = (table.extract start (start + length)).toList := by
  unfold BoundsError.slice at h
  split at h
  next => cases h
  next =>
    split at h
    next => cases h
    next hle =>
      cases h
      exact ⟨by omega, rfl⟩

/-- A closed block has instructions, and the last of them is a terminator. -/
theorem isClosed_some {e : Extent} (h : f.isClosed (some e) = true) :
    0 < e.length ∧ e.offset + e.length ≤ f.instructions.size ∧
      ∃ ins, f.instructions[e.offset + e.length - 1]? = some ins ∧ ins.isTerminator = true := by
  unfold isClosed at h
  cases hslice : f.extentInstructions (some e) with
  | error fault => simp [hslice] at h
  | ok is =>
    simp only [extentInstructions, mapError_eq_ok] at hslice
    obtain ⟨hle, rfl⟩ := slice_eq_ok hslice
    have hlen : (f.instructions.extract e.offset (e.offset + e.length)).toList.length =
        e.length := by
      simp
      omega
    simp only [extentInstructions, hslice, Except.mapError] at h
    split at h
    next hnil => simp at h
    next last before hrev =>
      simp only [Bool.and_eq_true] at h
      have hpos : 0 < e.length := by
        have := congrArg List.length hrev
        simp only [List.length_reverse, hlen, List.length_cons] at this
        omega
      refine ⟨hpos, hle, last, ?_, h.1⟩
      have hlast : (f.instructions.extract e.offset (e.offset + e.length)).toList.getLast? =
          some last := by
        rw [List.getLast?_eq_head?_reverse, hrev]
        rfl
      have hindex : e.offset + e.length - 1 = e.offset + (e.length - 1) := by omega
      rw [List.getLast?_eq_getElem?, hlen, Array.getElem?_toList, Array.getElem?_extract,
        if_pos (by omega)] at hlast
      rw [hindex, hlast]

theorem isWellFormed_closed (h : f.isWellFormed = true) {k : Nat} {e : Extent}
    (hk : f.blocks[k]? = some (some e)) : f.isClosed (some e) = true := by
  simp only [isWellFormed, Bool.and_eq_true, Array.all_eq_true_iff_forall_mem] at h
  exact h.2 _ (Array.mem_of_getElem? hk)

theorem isTarget_block (h : f.isWellFormed = true) {k : BlockId} (hk : f.isTarget k = true) :
    ∃ e, f.blocks[k.index]? = some (some e) ∧ e.offset < f.instructions.size := by
  simp only [isTarget, Bool.and_eq_true] at hk
  cases hblock : f.blocks[k.index]? with
  | none => simp [hblock] at hk
  | some extent =>
    cases extent with
    | none => simp [hblock] at hk
    | some e =>
      obtain ⟨hpos, hle, -⟩ := isClosed_some (isWellFormed_closed h hblock)
      exact ⟨e, rfl, by omega⟩

theorem isWellFormed_targets (h : f.isWellFormed = true) {i : Nat} {ins : Instruction}
    (hi : f.instructions[i]? = some ins) : f.targetsOk ins = true := by
  simp only [isWellFormed, Bool.and_eq_true, Array.all_eq_true_iff_forall_mem] at h
  exact h.1 _ (Array.mem_of_getElem? hi)

/-- Behind an instruction that does not end its block there is another one. -/
theorem next_lt (h : f.isWellFormed = true) (hlaid : f.Laid) {i : Nat} {ins : Instruction}
    (hi : f.instructions[i]? = some ins) (hterm : ins.isTerminator = false) :
    i + 1 < f.instructions.size := by
  obtain ⟨k, e, hk, hlast⟩ := hlaid.last
  obtain ⟨hpos, -, last, hins, hclosed⟩ := isClosed_some (isWellFormed_closed h hk)
  have hlt := (Array.getElem?_eq_some_iff.mp hi).1
  by_contra hge
  have heq : e.offset + e.length - 1 = i := by omega
  rw [heq, hi] at hins
  obtain rfl : ins = last := by simpa using hins
  rw [hterm] at hclosed
  cases hclosed

theorem mapM_pushed (i : Nat) (args : List ValueId) :
    (args.map Instruction.pushArg).mapM (pushed i) = .ok args := by
  induction args with
  | nil => rfl
  | cons v rest ih => simp [List.mapM_cons, pushed, ih, bind, Except.bind, pure, Except.pure]

/-- The arguments of a call are the values pushed before it. -/
theorem callArgs_eq {i argc : Nat} {callee : FuncId} {r : Option ValueId} {args : List ValueId}
    (hi : f.instructions[i]? = some (.call callee argc r)) (hlength : args.length = argc)
    (hpushed : f.PushedBefore i args) : f.callArgs i = .ok args := by
  obtain ⟨hle, hargs⟩ := hpushed
  have hlt := (Array.getElem?_eq_some_iff.mp hi).1
  have hslice : BoundsError.slice f.instructions (i - argc) argc = .ok (args.map .pushArg) := by
    have hextract : (f.instructions.extract (i - argc) (i - argc + argc)).toList =
        args.map .pushArg := by
      apply List.ext_getElem?
      intro j
      rw [Array.getElem?_toList, Array.getElem?_extract]
      by_cases hj : j < argc
      · obtain ⟨v, hv⟩ : ∃ v, args[j]? = some v := ⟨_, List.getElem?_eq_getElem (by omega)⟩
        rw [if_pos (by omega), List.getElem?_map, hv, ← hlength, hargs j v hv]
        rfl
      · rw [if_neg (by omega), List.getElem?_map, List.getElem?_eq_none (by omega)]
        rfl
    simp only [BoundsError.slice, hextract]
    rw [if_neg (by omega), if_neg (by omega)]
  have hnot : ¬ i < argc := by omega
  simp only [callArgs, fetch_eq_ok.mpr hi, Except.mapError, bind, Except.bind,
    hslice, hnot, if_false]
  exact mapM_pushed i args

end Function

/-! ### Good ids -/

/-- All types that the function names are registered, and all values that it passes on are its
own. -/
structure Function.Known (types : TypeTable) (f : Function) : Prop where
  values : ∀ t ∈ f.values, types.Registered t
  ret : ∀ t ∈ f.ret, types.Registered t
  pushed : ∀ (i : Nat) v, f.instructions[i]? = some (.pushArg v) → v.index < f.values.size

/-- All functions of a module do. -/
def Module.Known (types : TypeTable) (m : Module) : Prop :=
  ∀ (k : Nat) f, m.functions[k]? = some f → f.Known types

theorem Function.Known.mono {types types' : TypeTable} (hgrown : Grown types.infos types'.infos)
    {f : Function} (h : f.Known types) : f.Known types' :=
  ⟨fun t ht => hgrown.lt_size (h.values t ht), fun t ht => hgrown.lt_size (h.ret t ht), h.pushed⟩

namespace Builder

variable {p : Prop} {b b' : Builder} {c : Cursor} {f : Function} {ts : List TypeId}
  {is : List Instruction}

theorem Phrase.known (h : Phrase p b f ts is) (hp : p) (hb : b.Sound)
    (hknown : b.module.Known b.types) :
    (∀ t ∈ ts, b.types.Registered t) ∧ ∀ v, Instruction.pushArg v ∈ is →
    v.index < f.values.size := by
  have hsingle : ∀ {t : TypeId} {info : TypeInfo}, b.types.infos[t.index]? = some info →
      ∀ u ∈ [t], b.types.Registered u := by
    intro t info ht u hu
    rw [List.mem_singleton.mp hu]
    exact TypeTable.registered_of_info ht
  cases h with
  | constant t word ht => exact ⟨by simpa using ht hp, by simp⟩
  | binary op lhs rhs t info hlhs hrhs hinfo hclass => exact ⟨hsingle hinfo, by simp⟩
  | icmp pred lhs rhs t info hlhs hrhs hinfo hclass
  | fcmp pred lhs rhs t info hlhs hrhs hinfo hclass => exact ⟨hsingle hb.types.bool_info, by simp⟩
  | load address pointer t haddress hpointer =>
    exact ⟨by simpa using hb.types.pointee_registered hpointer, by simp⟩
  | call callee target args htarget hcount htypes hargs =>
    refine ⟨fun t ht => (hknown _ _ htarget).ret t (by simpa using ht), fun v hv => hargs hp v ?_⟩
    simpa using hv
  | _ => exact ⟨by simp, by simp⟩

theorem At.known (hat : b.At c f) (hknown : b.module.Known b.types) {g : Function}
    (hg : g.Known b.types) : (b.place c g).module.Known b.types := by
  intro k f' hf'
  by_cases hk : c.func.index = k
  · subst hk
    obtain rfl : g = f' := Option.some.inj ((hat.place g).2.symm.trans hf')
    exact hg
  · exact hknown k f' (by simpa [Builder.place, hk] using hf')

theorem Edit.known (h : Edit p b b') (hp : p) (hb : b.Sound) (hknown : b.module.Known b.types) :
    b'.module.Known b'.types := by
  have hpush : ∀ g : Function, g.Known b.types →
      Module.Known b.types ⟨b.module.functions.push g⟩ := by
    intro g hg k f' hf'
    simp only [Array.getElem?_push] at hf'
    split at hf'
    next =>
      obtain rfl : g = f' := by simpa using hf'
      exact hg
    next => exact hknown k f' hf'
  cases h with
  | pointer hpointer =>
    obtain ⟨-, hgrown, -⟩ := hb.types.pointerTo hpointer
    exact fun k f hf => (hknown k f hf).mono hgrown
  | renew => exact hknown
  | begin name args ret hsize hargs hret =>
    refine hpush _ ⟨fun t ht => hargs hp t (by simpa [Function.begun, Function.declare] using ht),
      hret hp, ?_⟩
    intro i v hi
    simp [Function.begun, List.getElem?_singleton] at hi
  | declare name library args ret variadic hsize hargs hret =>
    refine hpush _ ⟨fun t ht => hargs hp t (by simpa [Function.declare] using ht), hret hp, ?_⟩
    intro i v hi
    simp [Function.declare] at hi
  | @block c f hat | @start c f block hat hclosed hblock =>
    have hf := hknown _ _ hat.2
    exact hat.known hknown ⟨hf.values, hf.ret, hf.pushed⟩
  | @slot c f t pointer hat hpointer =>
    have hf := hknown _ _ hat.2
    refine hat.known hknown ⟨fun u hu => ?_, hf.ret, fun i v hi => ?_⟩
    · rcases Array.mem_push.mp hu with hu | rfl
      · exact hf.values u hu
      · exact TypeTable.registered_of_info (hb.types.pointers t _ hpointer)
    · exact (Grown.push f.values pointer).lt_size (hf.pushed i v hi)
  | @extend c f ts is hat hopen hphrase =>
    have hf := hknown _ _ hat.2
    obtain ⟨hts, his⟩ := hphrase.known hp hb hknown
    refine hat.known hknown ⟨fun u hu => ?_, hf.ret, fun i v hi => ?_⟩
    · simp only [Function.extend, Array.mem_append, List.mem_toArray] at hu
      exact hu.elim (hf.values u) (hts u)
    · refine (Grown.append f.values ts.toArray).lt_size ?_
      rcases f.extend_instructions c.block ts is hi with hold | ⟨j, -, hj⟩
      · exact hf.pushed i v hold
      · exact his v (List.mem_of_getElem? hj)

theorem Edits.known (h : Edits p b b') (hp : p) (hb : b.Sound) (hknown : b.module.Known b.types) :
    b'.module.Known b'.types := by
  induction h with
  | refl => exact hknown
  | tail hrest hedit ih => exact hedit.known hp (Edits.sound hrest hb) ih

end Builder

/-! ### Scripts -/

namespace Step

variable {steps : List Step} {b : Builder}

/-- Every script that runs through makes a sound builder. -/
theorem runAll_sound (h : runAll .initial steps = .ok b) : b.Sound :=
  (runAll_edits h TypeTable.initial_sound).sound Builder.initial_sound

/-- A proper script makes functions with good ids only. -/
theorem runAll_known (h : runAll .initial steps = .ok b)
    (hproper : allProper .initial steps = true) :
    b.module.Known b.types := by
  refine (runAll_edits h TypeTable.initial_sound).known hproper Builder.initial_sound ?_
  intro k f hf
  simp [Builder.initial, Module.empty] at hf

end Step

end MicroCompiler.Ssa
