import MicroCompiler.Proofs.Machine.Run
import MicroCompiler.Proofs.Machine.Word

/-! Register form, and what was written. A word is in the register form of a type if it is what
normalization makes of it. Beside the state of the machine goes a history of the values that each
live activation has written. -/

namespace MicroCompiler.Machine

variable {σ : Type}

/-! ### Words of a type -/

/-- The word is in the register form of a registered type. -/
def InForm (types : TypeTable) (t : TypeId) (word : UInt64) : Prop :=
  ∃ info, types.infos[t.index]? = some info ∧ normalize info word = word

instance (types : TypeTable) (t : TypeId) (word : UInt64) : Decidable (InForm types t word) :=
  decidable_of_iff (types.infos[t.index]?.any fun info => normalize info word == word) (by
    simp only [InForm, Option.any_eq_true, beq_iff_eq])

section

variable {types : TypeTable} {t : TypeId} {info : TypeInfo}

theorem inForm_normalize (hinfo : types.infos[t.index]? = some info) (raw : UInt64) :
    InForm types t (normalize info raw) := ⟨info, hinfo, normalize_normalize info raw⟩

/-- Every word is an address. -/
theorem inForm_pointer {pointee : TypeId} (hinfo : types.infos[t.index]? = some (.pointer pointee))
    (word : UInt64) : InForm types t word := ⟨.pointer pointee, hinfo, rfl⟩

theorem inForm_bool (htypes : types.Sound) (b : Bool) : InForm types .bool b.toUInt64 :=
  ⟨.primitive .bool, htypes.bool_info, by cases b <;> decide⟩

/-- Arithmetic on singles stays in the low half of the register. -/
theorem inForm_float (hinfo : types.infos[t.index]? = some info) (hfloat : info.isFloat = true)
    (op : Ssa.FloatOp) (x y : UInt64) : InForm types t (op.apply info.size x y) := by
  refine ⟨info, hinfo, ?_⟩
  cases info with
  | pointer => cases hfloat
  | primitive p =>
    cases p with
    | f32 =>
      have hlow : (op.apply (TypeInfo.primitive .f32).size x y).toNat < UInt32.size :=
        UInt32.toNat_lt _
      simp only [normalize, TypeInfo.isFloat, Primitive.isFloat, Bool.true_or, if_true]
      rw [zeroExtend_eq_low]
      apply UInt64.toNat_inj.mp
      rw [toNat_low]
      exact Nat.mod_eq_of_lt hlow
    | f64 => rfl
    | _ => cases hfloat

theorem inForm_int (hinfo : types.infos[t.index]? = some info) {op : Ssa.IntOp} {x y word : UInt64}
    (h : op.apply info x y = some word) : InForm types t word := by
  unfold Ssa.IntOp.apply at h
  split at h
  next => cases h
  next =>
    cases h
    exact inForm_normalize hinfo _

end

/-! ### What was written -/

/-- The values that the instruction at a position of `f` reads. -/
def operands (f : Ssa.Function) (position : Nat) : Ssa.Instruction → List Ssa.ValueId
  | .binary _ _ lhs rhs | .icmp _ _ lhs rhs | .fcmp _ _ lhs rhs => [lhs, rhs]
  | .load _ address => [address]
  | .store address v => [address, v]
  | .call _ _ _ => (f.callArgs position).toOption.getD []
  | .branch condition _ _ => [condition]
  | .ret v => [v]
  | .allocStack | .constant _ _ | .pushArg _ | .jump _ | .retVoid => []

/-- The values that the next step reads. -/
def reads (m : Machine σ) (s : State σ) : List Ssa.ValueId :=
  match s.frame.current? m.module with
  | some (f, ins) => operands f s.frame.cursor.toNat ins
  | none => []

/-- The value that a callee of the activation gives its result to. -/
def Frame.awaited (m : Ssa.Module) (frame : Frame) : List Ssa.ValueId :=
  match frame.current? m with
  | some (_, .call _ _ r) => r.toList
  | _ => []

/-- A caller: the stack offset of its header, and the values it has written. -/
structure Caller where
  offset : Nat
  written : List Ssa.ValueId

/-- The values that the running activation has written, and its callers, the last one first. -/
structure History where
  written : List Ssa.ValueId
  callers : List Caller

namespace History

/-- An activation begins with its arguments. -/
def entry (f : Ssa.Function) (callers : List Caller) : History :=
  ⟨(List.range f.argCount).map .mk, callers⟩

def define (w : History) (values : List Ssa.ValueId) : History :=
  { w with written := values ++ w.written }

/-- The history after an instruction of `f`. -/
def perform (m : Machine σ) (s : State σ) (w : History) (f : Ssa.Function) :
    Ssa.Instruction → History
  | .allocStack => w.define (f.locals.toList.map (·.value))
  | .call id _ r =>
    match m.module.functions[id.index]? with
    | some callee =>
      if callee.isExternal then w.define r.toList else entry callee (⟨s.frameAt, w.written⟩ ::
        w.callers)
    | none => w
  | .ret _ | .retVoid =>
    match w.callers with
    | [] => w
    | c :: rest =>
      ⟨(m.stack.readFrame s.memory s.frame.caller.toNat).awaited m.module ++ c.written, rest⟩
  | ins => w.define ins.result?.toList

/-- The history after the next step. -/
def next (m : Machine σ) (s : State σ) (w : History) : History :=
  match s.frame.current? m.module with
  | some (f, ins) => w.perform m s f ins
  | none => w

/-- The headers of the callers are the same in both states. -/
def Spared (m : Machine σ) (w : History) (s s' : State σ) : Prop :=
  ∀ c ∈ w.callers, m.stack.readFrame s'.memory c.offset = m.stack.readFrame s.memory c.offset

instance (m : Machine σ) (w : History) (s s' : State σ) : Decidable (w.Spared m s s') :=
  inferInstanceAs (Decidable (∀ c ∈ w.callers, _))

end History

/-- The history beside the states of a run. -/
def Ghost.history : Ghost σ History := ⟨fun f => .entry f [], fun m s w => w.next m s⟩

end MicroCompiler.Machine
