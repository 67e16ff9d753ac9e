import MicroCompiler.Machine.Step

/-! A reference for the meaning of code without native functions. Every activation has values and
locals of its own that no other activation can reach, and a call is a recursive evaluation. Nothing
here knows of registers, headers or addresses; a value or a local that is read before it is written
has no meaning. -/

namespace MicroCompiler.Reference

/-- How an evaluation ends. -/
inductive Outcome where
  | returned (word : UInt64)
  | dividedByZero (function : String)
  /-- A value or a local was read before it was written. -/
  | undefined
  /-- The code is not of the form that a builder gives it. -/
  | stuck
  /-- The bound on the evaluation was reached. -/
  | unfinished
  deriving DecidableEq, Repr

/-- What one activation has written so far. -/
structure Store where
  values : Ssa.ValueId → Option UInt64
  /-- The locals, by the values that point to them. -/
  locals : Ssa.ValueId → Option UInt64

namespace Store

/-- The arguments are the first values. -/
def ofArgs (args : List UInt64) : Store := ⟨fun v => args[v.index]?, fun _ => none⟩

def define (s : Store) (v : Ssa.ValueId) (word : UInt64) : Store :=
  { s with values := fun u => if u = v then some word else s.values u }

/-- Defines the result of a call, if it has one. -/
def defineResult (s : Store) (r : Option Ssa.ValueId) (word : UInt64) : Store :=
  match r with
  | some v => s.define v word
  | none => s

def write (s : Store) (v : Ssa.ValueId) (word : UInt64) : Store :=
  { s with locals := fun u => if u = v then some word else s.locals u }

/-- Values that are all written have words, one by one. -/
theorem mapM_values {store : Store} {args : List Ssa.ValueId} {words : List UInt64}
    (h : args.mapM store.values = some words) :
    words.length = args.length ∧
      ∀ (j : Nat) word, words[j]? = some word → ∃ v, args[j]? = some v ∧
      store.values v = some word := by
  induction args generalizing words with
  | nil =>
    obtain rfl : [] = words := by simpa using h
    simp
  | cons v rest ih =>
    simp only [List.mapM_cons, Option.bind_eq_bind, Option.bind_eq_some_iff, Option.pure_def,
      Option.some.injEq] at h
    obtain ⟨word, hword, words', hrest, rfl⟩ := h
    obtain ⟨hlength, hwords⟩ := ih hrest
    refine ⟨by simp [hlength], ?_⟩
    intro j w hw
    cases j with
    | zero =>
      obtain rfl : word = w := by simpa using hw
      exact ⟨v, rfl, hword⟩
    | succ j => exact hwords j w hw

end Store

/-- What an instruction does in an activation. -/
inductive Effect where
  /-- It goes on to the next instruction. -/
  | go (store : Store)
  | goTo (target : Ssa.BlockId)
  | call (callee : Ssa.FuncId) (args : List UInt64) (result : Option Ssa.ValueId)
  | stop (outcome : Outcome)

/-- The type of a value of a function. -/
def valueInfo (types : TypeTable) (f : Ssa.Function) (v : Ssa.ValueId) : Option TypeInfo :=
  f.values[v.index]?.bind fun t => types.infos[t.index]?

/-- An operation on two words of a type. There is no result for a division by zero. -/
def apply (op : Ssa.BinOp) (t : TypeInfo) (x y : UInt64) : Option UInt64 :=
  match op with
  | .int op => op.apply t x y
  | .float op => some (op.apply t.size x y)

/-- Goes on with the words of two values and the type of a third. -/
def withOperands (type : Option TypeInfo) (x y : Option UInt64)
    (k : TypeInfo → UInt64 → UInt64 → Effect) : Effect :=
  match type, x, y with
  | none, _, _ => .stop .stuck
  | some t, some x, some y => k t x y
  | some _, _, _ => .stop .undefined

/-- What the instruction at position `i` of `f` does. -/
def effect (types : TypeTable) (f : Ssa.Function) (s : Store) (i : Nat) : Ssa.Instruction → Effect
  | .allocStack | .pushArg _ => .go s
  | .constant r word => .go (s.define r word)
  | .binary op r a b =>
    withOperands (valueInfo types f r) (s.values a) (s.values b) fun t x y =>
      match apply op t x y with
      | some word => .go (s.define r word)
      | none => .stop (.dividedByZero f.name)
  | .icmp pred r a b =>
    withOperands (valueInfo types f a) (s.values a) (s.values b) fun t x y =>
      .go (s.define r (pred.holds t.width x y).toUInt64)
  | .fcmp pred r a b =>
    withOperands (valueInfo types f a) (s.values a) (s.values b) fun t x y =>
      .go (s.define r (pred.holds t.size x y).toUInt64)
  | .load r a =>
    match s.locals a with
    | some word => .go (s.define r word)
    | none => .stop .undefined
  | .store a v =>
    match valueInfo types f v, s.values v with
    | none, _ => .stop .stuck
    | some t, some word => .go (s.write a (Machine.normalize t word))
    | some _, none => .stop .undefined
  | .call callee _ r =>
    match f.callArgs i with
    | .error _ => .stop .stuck
    | .ok args =>
      match args.mapM s.values with
      | some words => .call callee words r
      | none => .stop .undefined
  | .jump target => .goTo target
  | .branch c consequent alternative =>
    match s.values c with
    | some word => .goTo (if word = 0 then alternative else consequent)
    | none => .stop .undefined
  | .ret v =>
    match s.values v with
    | some word => .stop (.returned word)
    | none => .stop .undefined
  | .retVoid => .stop (.returned 0)

/-- Evaluates an activation of `f` from position `i` on. At most `fuel` instructions follow each
other, those of callees not counted, and calls are nested at most as deep. -/
def evaluate (types : TypeTable) (m : Ssa.Module) : Nat → Ssa.Function → Store → Nat → Outcome
  | 0, _, _, _ => .unfinished
  | fuel + 1, f, s, i =>
    match f.instructions[i]? with
    | none => .stuck
    | some instruction =>
      match effect types f s i instruction with
      | .go s' => evaluate types m fuel f s' (i + 1)
      | .goTo target =>
        match f.blocks[target.index]? with
        | some (some e) => evaluate types m fuel f s e.offset
        | _ => .stuck
      | .call id args r =>
        match m.functions[id.index]? with
        | none => .stuck
        | some callee =>
          match evaluate types m fuel callee (.ofArgs args) 0 with
          | .returned word => evaluate types m fuel f (s.defineResult r word) (i + 1)
          | outcome => outcome
      | .stop outcome => outcome

/-- A finished evaluation does not depend on the bound. -/
theorem evaluate_add {types : TypeTable} {m : Ssa.Module} {fuel : Nat} {f : Ssa.Function}
    {s : Store} {i : Nat} (h : evaluate types m fuel f s i ≠ .unfinished) (more : Nat) :
    evaluate types m (fuel + more) f s i = evaluate types m fuel f s i := by
  induction fuel generalizing f s i with
  | zero => exact absurd rfl h
  | succ fuel ih =>
    rw [Nat.add_right_comm]
    simp only [evaluate] at h ⊢
    cases hins : f.instructions[i]? with
    | none => rfl
    | some instruction =>
      simp only [hins] at h
      cases heffect : effect types f s i instruction with
      | go s' =>
        simp only [heffect] at h ⊢
        exact ih h
      | goTo target =>
        simp only [heffect] at h ⊢
        split
        next e he =>
          simp only [he] at h
          exact ih h
        next => rfl
      | call id args r =>
        simp only [heffect] at h ⊢
        cases hcallee : m.functions[id.index]? with
        | none => rfl
        | some callee =>
          simp only [hcallee] at h
          have hcall : evaluate types m fuel callee (.ofArgs args) 0 ≠ .unfinished := by
            intro hunfinished
            simp [hunfinished] at h
          simp only [ih hcall]
          split
          next word hword =>
            simp only [hword] at h
            exact ih h
          next => rfl
      | stop outcome => simp only [heffect]

/-- Evaluates a function on arguments. -/
def evaluateCall (types : TypeTable) (m : Ssa.Module) (fuel : Nat) (f : Ssa.Function)
    (args : List UInt64) : Outcome :=
  evaluate types m fuel f (.ofArgs args) 0

/-- A call that has an outcome has no other. -/
theorem evaluateCall_unique {types : TypeTable} {m : Ssa.Module} {fuel : Nat} {f : Ssa.Function}
    {args : List UInt64} (h : evaluateCall types m fuel f args ≠ .unfinished) (fuel' : Nat) :
    evaluateCall types m fuel' f args = .unfinished ∨
      evaluateCall types m fuel' f args = evaluateCall types m fuel f args := by
  by_cases hunfinished : evaluateCall types m fuel' f args = .unfinished
  · exact .inl hunfinished
  · have hmore := evaluate_add h fuel'
    have hmore' := evaluate_add hunfinished fuel
    rw [Nat.add_comm] at hmore'
    exact .inr (hmore'.symm.trans hmore)

/-- The value that a load or a store takes for its address. -/
def address? : Ssa.Instruction → Option Ssa.ValueId
  | .load _ a | .store a _ => some a
  | _ => none

/-- Whether every load and store is at a local of the function. -/
def usesLocals (f : Ssa.Function) : Bool :=
  f.instructions.all fun instruction => (address? instruction).all fun a =>
    f.locals.any (·.value == a)

theorem usesLocals_address {f : Ssa.Function} (h : usesLocals f = true) {i : Nat}
    {ins : Ssa.Instruction} (hins : f.instructions[i]? = some ins) {a : Ssa.ValueId}
    (ha : address? ins = some a) : ∃ l ∈ f.locals, l.value = a := by
  simp only [usesLocals, Array.all_eq_true_iff_forall_mem] at h
  have hany := h ins (Array.mem_of_getElem? hins)
  simp only [ha, Option.all_some, Array.any_eq_true', beq_iff_eq] at hany
  exact hany

end MicroCompiler.Reference
