import Mathlib.Logic.Relation
import MicroCompiler.Proofs.Results
import MicroCompiler.Proofs.Types
import MicroCompiler.Ssa.Builder

/-! What the calls of a builder do. A call that succeeds is a chain of edits: it registers types,
adds a function, makes or starts a block, adds a local, or extends the current block by a phrase of
instructions together with the values that they define. Each edit keeps the checks that the builder
made. -/

namespace MicroCompiler

namespace Ssa

theorem Fault.fresh_eq_ok {kind : String} {index i : Nat} :
    Fault.fresh kind index = .ok i ↔ index < UInt32.size ∧ i = index := by
  unfold Fault.fresh
  by_cases h : index < UInt32.size
  · simp [h, eq_comm]
  · simp [h]

/-! ### Edits of a function -/

namespace Function

/-- Adds values, and instructions at the end of a block. -/
def extend (f : Function) (block : BlockId) (types : List TypeId)
    (instructions : List Instruction) : Function :=
  { f with
    values := f.values ++ types.toArray
    instructions := f.instructions ++ instructions.toArray
    blocks := f.blocks.modify block.index fun e => e.map fun e =>
    { e with length := e.length + instructions.length } }

theorem extend_values (f : Function) (block : BlockId) (types : List TypeId) :
    f.extend block types [] = { f with values := f.values ++ types.toArray } := by
  have hid : (fun e : Option Extent => e.map fun e =>
    { e with length := e.length + ([] : List Instruction).length }) =
      id := by
    funext e
    cases e <;> rfl
  have hblocks : f.blocks.modify block.index id = f.blocks := by
    apply Array.ext_getElem?
    intro i
    simp [Array.getElem?_modify]
  simp only [extend, hid, hblocks]
  simp

theorem extend_nil (f : Function) (block : BlockId) : f.extend block [] [] = f := by
  simp [extend_values]

theorem extend_extend (f : Function) (block : BlockId) (ts ts' : List TypeId)
    (is is' : List Instruction) :
    (f.extend block ts is).extend block ts' is' = f.extend block (ts ++ ts') (is ++ is') := by
  have hblocks : ∀ (g h : Option Extent → Option Extent) (xs : Array (Option Extent)),
      (xs.modify block.index g).modify block.index h = xs.modify block.index (h ∘ g) := by
    intro g h xs
    apply Array.ext_getElem?
    intro i
    by_cases hi : block.index = i <;> simp [Array.getElem?_modify, hi, Function.comp_def]
  simp only [extend, hblocks, List.length_append]
  congr 1
  · simp
  · congr 1
    funext e
    cases e <;> simp [Nat.add_assoc]
  · simp

/-- A new stack slot and the value that points to it. -/
def addLocal (f : Function) (type pointer : TypeId) : Function :=
  { f with values := f.values.push pointer, locals := f.locals.push ⟨type, ⟨f.values.size⟩⟩ }

/-- A new block. -/
def addBlock (f : Function) : Function := { f with blocks := f.blocks.push none }

/-- Starts a block behind the instructions. -/
def start (f : Function) (block : BlockId) : Function :=
  { f with blocks := f.blocks.modify block.index fun _ => some ⟨f.instructions.size, 0⟩ }

/-- A function with a body, as it is begun. -/
def begun (name : String) (args : List TypeId) (ret : Option TypeId) : Function :=
  { declare name args ret none with blocks := #[some ⟨0, 1⟩], instructions := #[.allocStack] }

theorem valueType_eq_ok {f : Function} {v : ValueId} {t : TypeId} :
    f.valueType v = .ok t ↔ f.values[v.index]? = some t := by
  rw [valueType, mapError_eq_ok, fetch_eq_ok]

end Function

namespace Builder

/-- The function and the block being filled. -/
def At (b : Builder) (c : Cursor) (f : Function) : Prop :=
  b.cursor = some c ∧ b.module.functions[c.func.index]? = some f

/-- The builder with `f` in the place of the current function. -/
def place (b : Builder) (c : Cursor) (f : Function) : Builder :=
  { b with module := ⟨b.module.functions.setIfInBounds c.func.index f⟩ }

section

variable {b b' : Builder} {c : Cursor} {f g : Function} {t : TypeId} {v : ValueId}

theorem At.place (h : b.At c f) (g : Function) : (b.place c g).At c g := by
  have hlt := (Array.getElem?_eq_some_iff.mp h.2).1
  exact ⟨h.1, by simp [Builder.place, hlt]⟩

theorem forall_place {P : Function → Prop} (hb : ∀ f ∈ b.module.functions, P f) (hg : P g) :
    ∀ f ∈ (b.place c g).module.functions, P f := by
  intro f hf
  rcases Array.mem_or_eq_of_mem_setIfInBounds hf with hf | rfl
  · exact hb f hf
  · exact hg

theorem At.place_place (b : Builder) (c : Cursor) (f g : Function) :
    (b.place c f).place c g = b.place c g := by
  simp [Builder.place]

theorem At.place_self (h : b.At c f) : b.place c f = b := by
  have hset : b.module.functions.setIfInBounds c.func.index f = b.module.functions := by
    apply Array.ext_getElem?
    intro i
    rw [Array.getElem?_setIfInBounds]
    by_cases hi : c.func.index = i
    · subst hi
      obtain ⟨hlt, -⟩ := Array.getElem?_eq_some_iff.mp h.2
      rw [if_pos rfl, if_pos hlt, h.2]
    · simp [hi]
  simp [Builder.place, hset]

theorem current_eq_ok : b.current = .ok c ↔ b.cursor = some c := by
  unfold current
  cases b.cursor <;> simp

theorem function_eq_ok : b.function = .ok f ↔ ∃ c, b.At c f := by
  simp only [function, bind_eq_ok, current_eq_ok, Module.get, mapError_eq_ok, fetch_eq_ok, At]

theorem At.function (h : b.At c f) : b.function = .ok f := function_eq_ok.mpr ⟨c, h⟩

theorem At.unique {c' : Cursor} (h : b.At c f) (h' : b.At c' g) : c = c' ∧ f = g := by
  obtain ⟨hc, hf⟩ := h
  obtain ⟨hc', hg⟩ := h'
  obtain rfl : c = c' := Option.some.inj (hc.symm.trans hc')
  exact ⟨rfl, Option.some.inj (hf.symm.trans hg)⟩

theorem valueType_eq_ok : b.valueType v = .ok t ↔ ∃ c f, b.At c f ∧
    f.values[v.index]? = some t := by
  simp only [valueType, bind_eq_ok, function_eq_ok, Function.valueType_eq_ok]
  constructor
  · rintro ⟨f, ⟨c, h⟩, hv⟩
    exact ⟨c, f, h, hv⟩
  · rintro ⟨c, f, h, hv⟩
    exact ⟨f, ⟨c, h⟩, hv⟩

theorem At.valueType (h : b.At c f) (ht : b.valueType v = .ok t) : f.values[v.index]? = some t := by
  obtain ⟨c', g, h', hv⟩ := valueType_eq_ok.mp ht
  rw [(h.unique h').2]
  exact hv

theorem typeInfo_eq_ok {info : TypeInfo} :
    b.typeInfo t = .ok info ↔ b.types.infos[t.index]? = some info := by
  rw [typeInfo, mapError_eq_ok, TypeTable.info_eq_ok]

theorem modifyFunction_eq_ok (h : b.At c f) {change : Function → Function} :
    b.modifyFunction change = .ok (b.place c (change f)) := by
  have hmodify : b.module.functions.modify c.func.index change =
      b.module.functions.setIfInBounds c.func.index (change f) := by
    obtain ⟨hlt, -⟩ := Array.getElem?_eq_some_iff.mp h.2
    apply Array.ext_getElem?
    intro i
    by_cases hi : c.func.index = i
    · subst hi
      rw [Array.getElem?_modify, Array.getElem?_setIfInBounds, if_pos rfl,
        if_pos rfl, if_pos hlt, h.2]
      rfl
    · simp [Array.getElem?_modify, hi]
  simp [modifyFunction, current_eq_ok.mpr h.1, bind, Except.bind, hmodify, Builder.place,
    pure, Except.pure]

theorem isTerminated_eq_ok {t : Bool} :
    b.isTerminated = .ok t ↔ ∃ c f is, b.At c f ∧ f.blockInstructions c.block = .ok is ∧
      is.getLast?.any (·.isTerminator) = t := by
  simp only [isTerminated, bind_eq_ok, current_eq_ok, function_eq_ok, pure,
    Except.pure, Except.ok.injEq]
  constructor
  · rintro ⟨c, hc, f, ⟨c', hf⟩, is, his, ht⟩
    obtain rfl : c = c' := Option.some.inj (hc.symm.trans hf.1)
    exact ⟨c, f, is, hf, his, ht⟩
  · rintro ⟨c, f, is, hf, his, ht⟩
    exact ⟨c, hf.1, f, ⟨c, hf⟩, is, his, ht⟩

/-- The current block ends as it did if the function keeps its blocks and instructions. -/
theorem At.isTerminated_place (h : b.At c f) (hblocks : g.blocks = f.blocks)
    (hinstructions : g.instructions = f.instructions) :
    (b.place c g).isTerminated = b.isTerminated := by
  simp only [isTerminated, current_eq_ok.mpr h.1, h.function, current_eq_ok.mpr (h.place g).1,
    (h.place g).function, Function.blockInstructions, Function.extentInstructions, hblocks,
    hinstructions, bind, Except.bind]

/-! ### Phrases and edits -/

/-- What a call of the builder appends to the function `f`: instructions, and the types of the
values that they define. If `p` holds, the ids that the builder does not check are good too. -/
inductive Phrase (p : Prop) (b : Builder) (f : Function) : List TypeId → List Instruction → Prop
  | constant (t : TypeId) (word : UInt64) (ht : p → b.types.Registered t) :
    Phrase p b f [t] [.constant ⟨f.values.size⟩ word]
  | binary (op : BinOp) (lhs rhs : ValueId) (t : TypeId) (info : TypeInfo)
    (hlhs : f.values[lhs.index]? = some t) (hrhs : f.values[rhs.index]? = some t)
    (hinfo : b.types.infos[t.index]? = some info)
    (hclass : (if op.isFloat then info.isFloat else info.isInt) = true) :
    Phrase p b f [t] [.binary op ⟨f.values.size⟩ lhs rhs]
  | icmp (pred : IntPredicate) (lhs rhs : ValueId) (t : TypeId) (info : TypeInfo)
    (hlhs : f.values[lhs.index]? = some t) (hrhs : f.values[rhs.index]? = some t)
    (hinfo : b.types.infos[t.index]? = some info) (hclass : (info.isInt || info.isPointer) = true) :
    Phrase p b f [.bool] [.icmp pred ⟨f.values.size⟩ lhs rhs]
  | fcmp (pred : FloatPredicate) (lhs rhs : ValueId) (t : TypeId) (info : TypeInfo)
    (hlhs : f.values[lhs.index]? = some t) (hrhs : f.values[rhs.index]? = some t)
    (hinfo : b.types.infos[t.index]? = some info) (hclass : info.isFloat = true) :
    Phrase p b f [.bool] [.fcmp pred ⟨f.values.size⟩ lhs rhs]
  | load (address : ValueId) (pointer t : TypeId)
    (haddress : f.values[address.index]? = some pointer)
    (hpointer : b.types.infos[pointer.index]? = some (.pointer t)) :
    Phrase p b f [t] [.load ⟨f.values.size⟩ address]
  | store (address value : ValueId) (pointer t : TypeId)
    (haddress : f.values[address.index]? = some pointer)
    (hpointer : b.types.infos[pointer.index]? = some (.pointer t))
    (hvalue : f.values[value.index]? = some t) : Phrase p b f [] [.store address value]
  | call (callee : FuncId) (target : Function) (args : List ValueId)
    (htarget : b.module.functions[callee.index]? = some target)
    (hcount : if target.isVariadic then target.argCount ≤ args.length
      else args.length = target.argCount)
    (htypes : ∀ i v t, args[i]? = some v → i < target.argCount → target.values[i]? = some t →
      f.values[v.index]? = some t)
    (hargs : p → ∀ v ∈ args, v.index < f.values.size) :
    Phrase p b f target.ret.toList
      (args.map .pushArg ++ [.call callee args.length (target.ret.map fun _ => ⟨f.values.size⟩)])
  | jump (target : BlockId) (htarget : 0 < target.index ∧ target.index < f.blocks.size) :
    Phrase p b f [] [.jump target]
  | branch (condition : ValueId) (consequent alternative : BlockId) (t : TypeId) (info : TypeInfo)
    (hconsequent : 0 < consequent.index ∧ consequent.index < f.blocks.size)
    (halternative : 0 < alternative.index ∧ alternative.index < f.blocks.size)
    (hcondition : f.values[condition.index]? = some t) (hinfo : b.types.infos[t.index]? = some info)
    (hclass : info.isInt = true) :
    Phrase p b f [] [.branch condition consequent alternative]
  | ret (value : ValueId) (t : TypeId) (hvalue : f.values[value.index]? = some t) (hret : f.ret =
    some t) : Phrase p b f [] [.ret value]
  | retVoid (hret : f.ret = none) : Phrase p b f [] [.retVoid]

/-- One change of a builder. If `p` holds, the ids that the builder does not check are good too. -/
inductive Edit (p : Prop) : Builder → Builder → Prop
  | pointer {b : Builder} {t id : TypeId} {types : TypeTable} (h : b.types.pointerTo t = .ok (id,
    types)) : Edit p b { b with types }
  | renew (b : Builder) : Edit p b b.renewed
  | begin {b : Builder} (name : String) (args : List TypeId) (ret : Option TypeId)
    (hsize : b.module.functions.size < UInt32.size) (hargs : p → ∀ t ∈ args, b.types.Registered t)
    (hret : p → ∀ t ∈ ret, b.types.Registered t) :
    Edit p b { b with
      module := ⟨b.module.functions.push (.begun name args ret)⟩
      cursor := some ⟨⟨b.module.functions.size⟩, ⟨0⟩⟩ }
  | declare {b : Builder} (name : String) (library : Option String) (args : List TypeId)
    (ret : Option TypeId) (variadic : Bool) (hsize : b.module.functions.size < UInt32.size)
    (hargs : p → ∀ t ∈ args, b.types.Registered t) (hret : p → ∀ t ∈ ret, b.types.Registered t) :
    Edit p b { b with
      module := ⟨b.module.functions.push (.declare name args ret (some ⟨library,
      name, variadic⟩))⟩ }
  | block {b : Builder} {c : Cursor} {f : Function} (hat : b.At c f) : Edit p b
    (b.place c f.addBlock)
  | start {b : Builder} {c : Cursor} {f : Function} {block : BlockId} (hat : b.At c f)
    (hclosed : b.isTerminated = .ok true) (hblock : f.blocks[block.index]? = some none) :
    Edit p b { b.place c (f.start block) with cursor := some ⟨c.func, block⟩ }
  | slot {b : Builder} {c : Cursor} {f : Function} {t pointer : TypeId} (hat : b.At c f)
    (hpointer : b.types.pointers.lookup t = some pointer) :
    Edit p b (b.place c (f.addLocal t pointer))
  | extend {b : Builder} {c : Cursor} {f : Function} {ts : List TypeId} {is : List Instruction}
    (hat : b.At c f) (hopen : b.isTerminated = .ok false) (hphrase : Phrase p b f ts is) :
    Edit p b (b.place c (f.extend c.block ts is))

/-- Any number of edits. -/
abbrev Edits (p : Prop) : Builder → Builder → Prop := Relation.ReflTransGen (Edit p)

/-- The builder appended the instructions to the current block, which was open. -/
def Wrote (p : Prop) (b b' : Builder) (is : List Instruction) : Prop :=
  ∃ c f ts, b.At c f ∧ b.isTerminated = .ok false ∧ Phrase p b f ts is ∧
    b' = b.place c (f.extend c.block ts is)

theorem Wrote.edit {p : Prop} {is : List Instruction} (h : Wrote p b b' is) : Edit p b b' := by
  obtain ⟨c, f, ts, hat, hopen, hphrase, rfl⟩ := h
  exact .extend hat hopen hphrase

/-! ### Calls that change the current function -/

theorem newValue_eq_ok (h : b.newValue t = .ok (v, b')) :
    ∃ c f, b.At c f ∧ v = ⟨f.values.size⟩ ∧ b' = b.place c (f.extend c.block [t] []) := by
  simp only [newValue, bind_eq_ok, function_eq_ok, Fault.fresh_eq_ok] at h
  obtain ⟨f, ⟨c, hat⟩, i, ⟨-, rfl⟩, b₁, hb₁, hr⟩ := h
  rw [modifyFunction_eq_ok hat] at hb₁
  cases hb₁
  cases hr
  refine ⟨c, f, hat, rfl, ?_⟩
  rw [Function.extend_values, Array.push_eq_append]

theorem push_eq_ok {i : Instruction} (h : b.push i = .ok b') :
    ∃ c f, b.At c f ∧ b.isTerminated = .ok false ∧ b' = b.place c (f.extend c.block [] [i]) := by
  simp only [push, bind_eq_ok, current_eq_ok] at h
  obtain ⟨c, hc, closed, hclosed, hr⟩ := h
  obtain ⟨c', f, -, hat, -, -⟩ := isTerminated_eq_ok.mp hclosed
  obtain rfl : c = c' := Option.some.inj (hc.symm.trans hat.1)
  cases closed with
  | true => simp at hr
  | false =>
    rw [if_neg (by simp), modifyFunction_eq_ok hat] at hr
    cases hr
    refine ⟨c, f, hat, hclosed, ?_⟩
    simp [Function.extend]

theorem define_eq_ok {i : ValueId → Instruction} (h : b.define t i = .ok (v, b')) :
    ∃ c f, b.At c f ∧ b.isTerminated = .ok false ∧ v = ⟨f.values.size⟩ ∧
      b' = b.place c (f.extend c.block [t] [i ⟨f.values.size⟩]) := by
  simp only [define, bind_eq_ok] at h
  obtain ⟨⟨w, b₁⟩, hnew, b₂, hpush, hr⟩ := h
  cases hr
  obtain ⟨c, f, hat, rfl, rfl⟩ := newValue_eq_ok hnew
  have hat₁ := hat.place (f.extend c.block [t] [])
  obtain ⟨c', f', hat', hopen, rfl⟩ := push_eq_ok hpush
  obtain ⟨rfl, rfl⟩ := hat₁.unique hat'
  refine ⟨c, f, hat, ?_, rfl, ?_⟩
  · rw [← hopen]
    exact (hat.isTerminated_place (by rw [Function.extend_values])
      (by rw [Function.extend_values])).symm
  · rw [At.place_place, Function.extend_extend]
    rfl

theorem sameType_eq_ok {what : String} {lhs rhs : ValueId} (h : b.sameType what lhs rhs = .ok t) :
    b.valueType lhs = .ok t ∧ b.valueType rhs = .ok t := by
  simp only [sameType, bind_eq_ok] at h
  obtain ⟨left, hleft, right, hright, hr⟩ := h
  split at hr
  next heq =>
    cases hr
    exact ⟨hleft, heq ▸ hright⟩
  next => exact absurd hr (bind_ne_ok fun _ => bind_ne_ok fun _ => nofun)

theorem pointee_eq_ok {address : ValueId} (h : b.pointee address = .ok t) :
    ∃ pointer, b.valueType address = .ok pointer ∧ b.types.infos[pointer.index]? =
    some (.pointer t) := by
  simp only [pointee, bind_eq_ok, typeInfo_eq_ok] at h
  obtain ⟨pointer, hpointer, info, hinfo, hr⟩ := h
  cases info with
  | primitive p => exact absurd hr (bind_ne_ok fun _ => nofun)
  | pointer u =>
    cases hr
    exact ⟨pointer, hpointer, hinfo⟩

section

variable {p : Prop}

theorem push_wrote {i : Instruction} (h : b.push i = .ok b')
    (hphrase : ∀ c f, b.At c f → Phrase p b f [] [i]) :
    Wrote p b b' [i] := by
  obtain ⟨c, f, hat, hopen, rfl⟩ := push_eq_ok h
  exact ⟨c, f, _, hat, hopen, hphrase c f hat, rfl⟩

theorem define_wrote (i : ValueId → Instruction) (h : b.define t i = .ok (v, b'))
    (hphrase : ∀ c f, b.At c f → Phrase p b f [t] [i ⟨f.values.size⟩]) : Wrote p b b' [i v] := by
  obtain ⟨c, f, hat, hopen, rfl, rfl⟩ := define_eq_ok h
  exact ⟨c, f, _, hat, hopen, hphrase c f hat, rfl⟩

/-- An instruction on two values asks for one type, and for a class that the type is of. -/
theorem operands_wrote (result : TypeId → TypeId) (i : ValueId → Instruction) {what : String}
    {lhs rhs v : ValueId} {good : TypeInfo → Bool} {fault : String → Fault}
    (h : (b.sameType what lhs rhs >>= fun t => b.typeInfo t >>= fun info =>
      if good info then b.define (result t) i else b.typeName t >>= fun name =>
        .error (fault name)) = .ok (v, b'))
    (hphrase : ∀ f t info, f.values[lhs.index]? = some t → f.values[rhs.index]? = some t →
      b.types.infos[t.index]? = some info → good info = true → Phrase p b f [result t]
      [i ⟨f.values.size⟩]) :
    Wrote p b b' [i v] := by
  simp only [bind_eq_ok, typeInfo_eq_ok] at h
  obtain ⟨t, hsame, info, hinfo, hr⟩ := h
  obtain ⟨hlhs, hrhs⟩ := sameType_eq_ok hsame
  split at hr
  next hclass =>
    exact define_wrote i hr fun c f hat => hphrase f t info (hat.valueType hlhs)
      (hat.valueType hrhs) hinfo hclass
  next => exact absurd hr (bind_ne_ok fun _ => nofun)

theorem constant_wrote {word : UInt64} (h : b.constant t word = .ok (v, b'))
    (ht : p → b.types.Registered t) : Wrote p b b' [.constant v word] :=
  define_wrote (.constant · word) h fun _ _ _ => .constant t word ht

theorem binary_wrote {op : BinOp} {lhs rhs v : ValueId} (h : b.binary op lhs rhs = .ok (v, b')) :
    Wrote p b b' [.binary op v lhs rhs] :=
  operands_wrote (fun t => t) (.binary op · lhs rhs) h fun _ => .binary op lhs rhs

theorem icmp_wrote {pred : IntPredicate} {lhs rhs v : ValueId}
    (h : b.icmp pred lhs rhs = .ok (v, b')) : Wrote p b b' [.icmp pred v lhs rhs] :=
  operands_wrote (fun _ => .bool) (.icmp pred · lhs rhs) h fun _ => .icmp pred lhs rhs

theorem fcmp_wrote {pred : FloatPredicate} {lhs rhs v : ValueId}
    (h : b.fcmp pred lhs rhs = .ok (v, b')) : Wrote p b b' [.fcmp pred v lhs rhs] :=
  operands_wrote (fun _ => .bool) (.fcmp pred · lhs rhs) h fun _ => .fcmp pred lhs rhs

theorem load_wrote {address v : ValueId} (h : b.load address = .ok (v, b')) :
    Wrote p b b' [.load v address] := by
  simp only [load, bind_eq_ok] at h
  obtain ⟨t, hpointee, hr⟩ := h
  obtain ⟨pointer, haddress, hpointer⟩ := pointee_eq_ok hpointee
  exact define_wrote (.load · address) hr fun c f hat => .load address pointer t
    (hat.valueType haddress) hpointer

theorem store_wrote {address value : ValueId} (h : b.store address value = .ok b') :
    Wrote p b b' [.store address value] := by
  simp only [store, bind_eq_ok] at h
  obtain ⟨t, hpointee, u, hvalue, hr⟩ := h
  obtain ⟨pointer, haddress, hpointer⟩ := pointee_eq_ok hpointee
  split at hr
  next heq =>
    subst heq
    exact push_wrote hr fun c f hat =>
      .store address value pointer t (hat.valueType haddress) hpointer (hat.valueType hvalue)
  next => exact absurd hr (bind_ne_ok fun _ => bind_ne_ok fun _ => nofun)

theorem checkTarget_eq_ok {block : BlockId} (h : b.checkTarget block = .ok ()) (hat : b.At c f) :
    0 < block.index ∧ block.index < f.blocks.size := by
  simp only [checkTarget, bind_eq_ok, hat.function, Except.ok.injEq] at h
  obtain ⟨f', rfl, h⟩ := h
  split at h
  next => cases h
  next hlt =>
    split at h
    next => cases h
    next hne => omega

theorem jump_wrote {target : BlockId} (h : b.jump target = .ok b') :
    Wrote p b b' [.jump target] := by
  simp only [jump, bind_eq_ok] at h
  obtain ⟨_, htarget, hr⟩ := h
  exact push_wrote hr fun c f hat => .jump target (checkTarget_eq_ok htarget hat)

theorem branch_wrote {condition : ValueId} {consequent alternative : BlockId}
    (h : b.branch condition consequent alternative = .ok b') :
    Wrote p b b' [.branch condition consequent alternative] := by
  simp only [branch, bind_eq_ok, typeInfo_eq_ok] at h
  obtain ⟨_, hconsequent, _, halternative, t, hcondition, info, hinfo, hr⟩ := h
  split at hr
  next hclass =>
    exact push_wrote hr fun c f hat => .branch condition consequent alternative t info
      (checkTarget_eq_ok hconsequent hat) (checkTarget_eq_ok halternative hat)
      (hat.valueType hcondition) hinfo hclass
  next => exact absurd hr (bind_ne_ok fun _ => nofun)

theorem ret_wrote {value : ValueId} (h : b.ret value = .ok b') : Wrote p b b' [.ret value] := by
  simp only [ret, bind_eq_ok, function_eq_ok, Function.valueType_eq_ok] at h
  obtain ⟨f, ⟨c, hat⟩, t, hvalue, hr⟩ := h
  split at hr
  next hret =>
    refine push_wrote hr fun c' f' hat' => ?_
    obtain ⟨rfl, rfl⟩ := hat.unique hat'
    exact .ret value t hvalue hret
  next => exact absurd hr (bind_ne_ok fun _ => nofun)

theorem retVoid_wrote (h : b.retVoid = .ok b') : Wrote p b b' [.retVoid] := by
  simp only [retVoid, bind_eq_ok, function_eq_ok] at h
  obtain ⟨f, ⟨c, hat⟩, hr⟩ := h
  split at hr
  next hret =>
    refine push_wrote hr fun c' f' hat' => ?_
    obtain ⟨rfl, rfl⟩ := hat.unique hat'
    exact .retVoid (Option.isNone_iff_eq_none.mp hret)
  next => cases hr

end

/-! ### Calls of functions -/

theorem checkArguments_eq_ok {index : Nat} {args : List ValueId} {wanted : List TypeId}
    (h : b.checkArguments index args wanted = .ok ()) {i : Nat} {v : ValueId} {t : TypeId}
    (hv : args[i]? = some v) (ht : wanted[i]? = some t) : b.valueType v = .ok t := by
  induction args generalizing index wanted i with
  | nil => simp at hv
  | cons arg args ih =>
    cases wanted with
    | nil => simp at ht
    | cons first rest =>
      simp only [checkArguments, bind_eq_ok] at h
      obtain ⟨given, hgiven, hr⟩ := h
      split at hr
      next heq =>
        subst heq
        cases i with
        | zero =>
          obtain rfl : arg = v := by simpa using hv
          obtain rfl : given = t := by simpa using ht
          exact hgiven
        | succ i => exact ih hr (by simpa using hv) (by simpa using ht)
      next => exact absurd hr (bind_ne_ok fun _ => bind_ne_ok fun _ => nofun)

theorem pushArgs_eq_ok {args : List ValueId}
    (h : args.foldlM (fun b v => b.push (.pushArg v)) b = .ok b')
    (hat : b'.At c g) (hopen : b'.isTerminated = .ok false) :
    ∃ f, b.At c f ∧ b.isTerminated = .ok false ∧
    b' = b.place c (f.extend c.block [] (args.map .pushArg)) := by
  induction args generalizing b with
  | nil =>
    cases h
    refine ⟨g, hat, hopen, ?_⟩
    rw [List.map_nil, Function.extend_nil, hat.place_self]
  | cons v args ih =>
    simp only [List.foldlM_cons, bind_eq_ok] at h
    obtain ⟨b₁, hpush, hrest⟩ := h
    obtain ⟨c', f, hat₁, hopen₁, rfl⟩ := push_eq_ok hpush
    obtain ⟨f', hat', -, rfl⟩ := ih hrest
    obtain ⟨rfl, rfl⟩ := (hat₁.place _).unique hat'
    refine ⟨f, hat₁, hopen₁, ?_⟩
    rw [At.place_place, Function.extend_extend]
    rfl

theorem call_wrote {p : Prop} {callee : FuncId} {args : List ValueId} {result : Option ValueId}
    (h : b.call callee args = .ok (result, b'))
    (hargs : p → ∀ v ∈ args, ∃ t, b.valueType v = .ok t) :
    Wrote p b b' (args.map .pushArg ++ [.call callee args.length result]) := by
  simp only [call, bind_eq_ok, Module.get, mapError_eq_ok, fetch_eq_ok] at h
  obtain ⟨target, htarget, hr⟩ := h
  split at hr
  next => cases hr
  next hleast =>
    split at hr
    next => cases hr
    next hexact =>
      simp only [bind_eq_ok] at hr
      obtain ⟨_, hcheck, b₁, hpush, hr⟩ := hr
      have hcount : if target.isVariadic then target.argCount ≤ args.length
          else args.length = target.argCount := by
        cases hv : target.isVariadic <;> simp_all
      have hphrase : ∀ c f, b.At c f → Phrase p b f target.ret.toList
          (args.map .pushArg ++ [.call callee args.length (target.ret.map fun _ =>
          ⟨f.values.size⟩)]) := by
        intro c f hat
        refine .call callee target args htarget hcount ?_ ?_
        · intro i v t hv hi ht
          apply hat.valueType
          apply checkArguments_eq_ok hcheck hv
          rw [List.getElem?_take_of_lt hi, Array.getElem?_toList]
          exact ht
        · intro hp v hv
          obtain ⟨t, ht⟩ := hargs hp v hv
          exact (Array.getElem?_eq_some_iff.mp (hat.valueType ht)).1
      cases hret : target.ret with
      | none =>
        simp only [hret, bind_eq_ok] at hr hphrase
        obtain ⟨b₂, hcall, hr⟩ := hr
        cases hr
        obtain ⟨c, g, hatg, hopeng, rfl⟩ := push_eq_ok hcall
        obtain ⟨f, hat, hopen, rfl⟩ := pushArgs_eq_ok hpush hatg hopeng
        obtain ⟨-, rfl⟩ := (hat.place _).unique hatg
        rw [At.place_place, Function.extend_extend]
        exact ⟨c, f, _, hat, hopen, hphrase c f hat, rfl⟩
      | some t =>
        simp only [hret, bind_eq_ok] at hr hphrase
        obtain ⟨⟨v, b₂⟩, hcall, hr⟩ := hr
        cases hr
        obtain ⟨c, g, hatg, hopeng, rfl, rfl⟩ := define_eq_ok hcall
        obtain ⟨f, hat, hopen, rfl⟩ := pushArgs_eq_ok hpush hatg hopeng
        obtain ⟨-, rfl⟩ := (hat.place _).unique hatg
        have hsize : (f.extend c.block [] (args.map .pushArg)).values.size = f.values.size := by
          simp [Function.extend]
        rw [At.place_place, Function.extend_extend, hsize]
        exact ⟨c, f, _, hat, hopen, hphrase c f hat, rfl⟩

/-! ### Functions, blocks, locals -/

theorem beginFunction_eq_ok {name : String} {args : List TypeId} {ret : Option TypeId} {id : FuncId}
    (h : b.beginFunction name args ret = .ok (id, b')) :
    b.module.functions.size < UInt32.size ∧ b' = { b with
      module := ⟨b.module.functions.push (.begun name args ret)⟩
      cursor := some ⟨⟨b.module.functions.size⟩, ⟨0⟩⟩ } := by
  simp only [beginFunction, Module.push, bind_eq_ok, Fault.fresh_eq_ok] at h
  obtain ⟨⟨id, m⟩, ⟨i, ⟨hsize, rfl⟩, hm⟩, hr⟩ := h
  cases hm
  cases hr
  exact ⟨hsize, rfl⟩

theorem declareForeign_eq_ok {name : String} {library : Option String} {args : List TypeId}
    {ret : Option TypeId} {variadic : Bool} {id : FuncId}
    (h : b.declareForeign name library args ret variadic = .ok (id, b')) :
    b.module.functions.size < UInt32.size ∧ b' = { b with
      module := ⟨b.module.functions.push (.declare name args ret (some ⟨library, name,
      variadic⟩))⟩ } := by
  simp only [declareForeign, Module.push, bind_eq_ok, Fault.fresh_eq_ok] at h
  obtain ⟨⟨id, m⟩, ⟨i, ⟨hsize, rfl⟩, hm⟩, hr⟩ := h
  cases hm
  cases hr
  exact ⟨hsize, rfl⟩

theorem createBlock_eq_ok {block : BlockId} (h : b.createBlock = .ok (block, b')) :
    ∃ c f, b.At c f ∧ b' = b.place c f.addBlock := by
  simp only [createBlock, bind_eq_ok, function_eq_ok, Fault.fresh_eq_ok] at h
  obtain ⟨f, ⟨c, hat⟩, i, ⟨-, rfl⟩, b₁, hb₁, hr⟩ := h
  rw [modifyFunction_eq_ok hat] at hb₁
  cases hb₁
  cases hr
  exact ⟨c, f, hat, rfl⟩

theorem switchTo_eq_ok {block : BlockId} (h : b.switchTo block = .ok b') :
    ∃ c f, b.At c f ∧ b.isTerminated = .ok true ∧ f.blocks[block.index]? = some none ∧
      b' = { b.place c (f.start block) with cursor := some ⟨c.func, block⟩ } := by
  simp only [switchTo, bind_eq_ok, current_eq_ok] at h
  obtain ⟨c, hc, closed, hclosed, hr⟩ := h
  cases closed with
  | false => simp at hr
  | true =>
    simp only [Bool.not_true, Bool.false_eq_true, if_false, bind_eq_ok, function_eq_ok,
      mapError_eq_ok, fetch_eq_ok] at hr
    obtain ⟨f, ⟨c', hat⟩, extent, hextent, hr⟩ := hr
    obtain rfl : c = c' := Option.some.inj (hc.symm.trans hat.1)
    cases extent with
    | some e => cases hr
    | none =>
      simp only [bind_eq_ok, modifyFunction_eq_ok hat] at hr
      obtain ⟨b₁, hb₁, hr⟩ := hr
      cases hb₁
      cases hr
      exact ⟨c, f, hat, hclosed, hextent, rfl⟩

theorem alloca_eq_ok (h : b.alloca t = .ok (v, b')) :
    ∃ pointer types c f, b.types.pointerTo t = .ok (pointer, types) ∧ b.At c f ∧
      b' = { b with types }.place c (f.addLocal t pointer) := by
  simp only [alloca, bind_eq_ok, mapError_eq_ok] at h
  obtain ⟨⟨pointer, types⟩, hpointer, ⟨w, b₁⟩, hnew, b₂, hlocal, hr⟩ := h
  cases hr
  obtain ⟨c, f, hat, rfl, rfl⟩ := newValue_eq_ok hnew
  rw [modifyFunction_eq_ok (hat.place _), At.place_place, Function.extend_values] at hlocal
  cases hlocal
  refine ⟨pointer, types, c, f, hpointer, hat, ?_⟩
  simp [Function.addLocal]

end

/-! ### Chains of edits -/

theorem Phrase.mono {p q : Prop} (hqp : q → p) {b : Builder} {f : Function} {ts : List TypeId}
    {is : List Instruction} (h : Phrase p b f ts is) : Phrase q b f ts is := by
  cases h with
  | constant t word ht => exact .constant t word (ht ∘ hqp)
  | call callee target args htarget hcount htypes hargs =>
    exact .call callee target args htarget hcount htypes (hargs ∘ hqp)
  | _ => constructor <;> assumption

theorem Edit.mono {p q : Prop} (hqp : q → p) {b b' : Builder} (h : Edit p b b') : Edit q b b' := by
  cases h with
  | pointer h => exact .pointer h
  | renew => exact .renew _
  | begin name args ret hsize hargs hret =>
    exact .begin name args ret hsize (hargs ∘ hqp) (hret ∘ hqp)
  | declare name library args ret variadic hsize hargs hret =>
    exact .declare name library args ret variadic hsize (hargs ∘ hqp) (hret ∘ hqp)
  | block hat => exact .block hat
  | start hat hclosed hblock => exact .start hat hclosed hblock
  | slot hat hpointer => exact .slot hat hpointer
  | extend hat hopen hphrase => exact .extend hat hopen (hphrase.mono hqp)

theorem Edits.mono {p q : Prop} (hqp : q → p) {b b' : Builder} (h : Edits p b b') : Edits q b b' :=
  Relation.ReflTransGen.mono (fun _ _ => Edit.mono hqp) _ _ h

theorem Edit.types {p : Prop} {b b' : Builder} (h : Edit p b b') (htypes : b.types.Sound) :
    b'.types.Sound ∧ Grown b.types.infos b'.types.infos := by
  cases h with
  | pointer h => exact ⟨(htypes.pointerTo h).1, (htypes.pointerTo h).2.1⟩
  | _ => exact ⟨htypes, Grown.refl _⟩

theorem Edits.types {p : Prop} {b b' : Builder} (h : Edits p b b') (htypes : b.types.Sound) :
    b'.types.Sound ∧ Grown b.types.infos b'.types.infos := by
  induction h with
  | refl => exact ⟨htypes, Grown.refl _⟩
  | tail _ hedit ih =>
    obtain ⟨hsound, hgrown⟩ := hedit.types ih.1
    exact ⟨hsound, ih.2.trans hgrown⟩

end Builder

end Ssa

end MicroCompiler
