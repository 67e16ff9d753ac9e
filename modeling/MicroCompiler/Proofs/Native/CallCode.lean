import Mathlib.Data.List.Nodup
import MicroCompiler.Native.CallCode
import MicroCompiler.Proofs.Memory
import MicroCompiler.Proofs.Native.Processor

/-! The code of a native call, run by the processor. The bytes decode to the instructions they were
made from, one after the other, so that a run through the code is a fold over those instructions.
Loading the arguments is followed with the words that have arrived so far in both classes of
registers: each instruction adds one and, since floats travel through a register that carries no
argument, none is lost. -/

namespace MicroCompiler.Native.CallCode

open Processor (Instruction Reaches State decode fetch step)

/-! ### Decoding -/

def Register.number : Register → Processor.Register
  | .rax => .rax
  | .rcx => .rcx
  | .rdx => .rdx
  | .rsi => .rsi
  | .rdi => .rdi
  | .r8 => .r8
  | .r9 => .r9
  | .r11 => .r11

/-- What an instruction is to the processor. -/
def Instr.meaning : Instr → Instruction
  | .pushRax => .push .rax
  | .popRcx => .pop .rcx
  | .movWord r w => .load r.number w
  | .movEax w => .loadLow .rax w
  | .movqFromRax xmm => .toVector (Processor.xmm xmm) .rax
  | .movqToRax => .fromVector .rax (Processor.xmm 0)
  | .callR11 => .call .r11
  | .ret => .ret

/-- Without further bits there are eight vector registers. -/
def Instr.Encodable : Instr → Prop
  | .movqFromRax xmm => xmm < maxFloats
  | _ => True

theorem immediate_append {width : Nat} {bs : List UInt8} (h : bs.length = width)
    (rest : List UInt8) :
    Processor.immediate width (bs ++ rest) = some (Bytes.ofLittleEndian bs) := by
  subst h
  simp [Processor.immediate]

theorem immediate_word64 (w : UInt64) (rest : List UInt8) :
    Processor.immediate 8 (word64 w ++ rest) = some w.toNat := by
  have hw : w.toNat < 256 ^ 8 := w.toNat_lt
  rw [word64, immediate_append (Bytes.length_littleEndian 8 _), Bytes.ofLittleEndian_littleEndian,
    Nat.mod_eq_of_lt hw]

theorem immediate_word32 (w : UInt32) (rest : List UInt8) :
    Processor.immediate 4 (Bytes.littleEndian 4 w.toNat ++ rest) = some w.toNat := by
  have hw : w.toNat < 256 ^ 4 := w.toNat_lt
  rw [immediate_append (Bytes.length_littleEndian 4 _), Bytes.ofLittleEndian_littleEndian,
    Nat.mod_eq_of_lt hw]

/-- The processor reads every instruction as what it was written for, whatever follows. -/
theorem decode_encode {i : Instr} (hi : i.Encodable) (rest : List UInt8) :
    decode (i.encode ++ rest) = some (i.meaning, i.encode.length) := by
  cases i with
  | pushRax => rfl
  | popRcx => rfl
  | movqToRax => rfl
  | callR11 => rfl
  | ret => rfl
  | movEax w =>
    have hdecode : decode (Instr.encode (.movEax w) ++ rest) =
        (Processor.immediate 4 (Bytes.littleEndian 4 w.toNat ++ rest)).map fun n =>
        (.loadLow .rax n.toUInt32, 5) := rfl
    rw [hdecode, immediate_word32]
    simp [Instr.encode, Instr.meaning, Bytes.length_littleEndian]
  | movWord r w =>
    have hdecode : decode (Instr.encode (.movWord r w) ++ rest) =
        ((Processor.immediate 8 (word64 w ++ rest)).map fun n => (.load r.number n.toUInt64, 9)).map
          fun p => (p.1, p.2 + 1) := by
      cases r <;> rfl
    have hlength : (Instr.encode (.movWord r w)).length = 10 := by
      cases r <;> simp [Instr.encode, Register.opcode, word64, Bytes.length_littleEndian]
    rw [hdecode, immediate_word64, hlength]
    simp [Instr.meaning]
  | movqFromRax xmm =>
    have hdecode : ∀ x < maxFloats,
        decode (Instr.encode (.movqFromRax x)) = some (.toVector (Processor.xmm x) .rax, 5) := by
      decide
    exact hdecode xmm hi

/-! ### Running straight through -/

variable {code : List UInt8} {base : UInt64}

/-- The instruction does not leave the line of code. -/
def Instr.Straight (i : Instr) : Prop := i.Encodable ∧ i ≠ .callR11 ∧ i ≠ .ret

/-- What an instruction does from where it begins. -/
def Instr.perform (s : State) (i : Instr) : State :=
  { s with pointer := s.pointer + i.encode.length.toUInt64 }.execute i.meaning

def performAll (s : State) (is : List Instr) : State := is.foldl Instr.perform s

@[simp] theorem performAll_nil (s : State) : performAll s [] = s := rfl

@[simp] theorem performAll_cons (s : State) (i : Instr) (is : List Instr) :
    performAll s (i :: is) = performAll (i.perform s) is := rfl

@[simp] theorem performAll_append (s : State) (is js : List Instr) :
    performAll s (is ++ js) = performAll (performAll s is) js := List.foldl_append

/-- The bytes of instructions. -/
def encodeAll (is : List Instr) : List UInt8 := is.flatMap Instr.encode

/-- The state stands at an offset of the code. -/
def Stands (base : UInt64) (s : State) (offset : Nat) : Prop := s.pointer = base + offset.toUInt64

theorem Stands.fetch {s : State} {before after : List Instr} {i : Instr}
    (h : Stands base s (encodeAll before).length)
    (hi : i.Encodable) (hsize : (encodeAll before).length < UInt64.size) :
    fetch (encodeAll (before ++ i :: after)) base s = some (i.meaning, i.encode.length) := by
  have hoffset : (s.pointer - base).toNat = (encodeAll before).length := by
    have hsub : s.pointer - base = (encodeAll before).length.toUInt64 := by
      rw [h, UInt64.add_comm, UInt64.add_sub_cancel]
    rw [hsub]
    exact Nat.mod_eq_of_lt hsize
  rw [Processor.fetch, hoffset]
  simp only [encodeAll, List.flatMap_append, List.flatMap_cons, List.drop_left]
  exact decode_encode hi _

theorem Instr.perform_pointer {i : Instr} (hi : i.Straight) (s : State) :
    (i.perform s).pointer = s.pointer + i.encode.length.toUInt64 := by
  cases i with
  | callR11 => exact absurd rfl hi.2.1
  | ret => exact absurd rfl hi.2.2
  | _ => rfl

theorem Stands.add {s s' : State} {m n : Nat} (h : Stands base s m)
    (hs' : s'.pointer = s.pointer + n.toUInt64) :
    Stands base s' (m + n) := by
  rw [Stands, hs', h, UInt64.add_assoc, ← UInt64.ofNat_add]

/-- A line of instructions takes the processor to its end, as long as none of them leaves it. -/
theorem Stands.performAll {is : List Instr} (his : ∀ i ∈ is, i.Straight) {before after : List Instr}
    {s : State} (h : Stands base s (encodeAll before).length)
    (hsize : (encodeAll (before ++ is)).length < UInt64.size) :
    Reaches (encodeAll (before ++ is ++ after)) base s (performAll s is) ∧
      Stands base (CallCode.performAll s is) (encodeAll (before ++ is)).length := by
  induction is generalizing before s with
  | nil =>
    rw [List.append_nil]
    exact ⟨.refl, h⟩
  | cons i is ih =>
    have hi := his i (by simp)
    have hbefore : (encodeAll before).length < UInt64.size := by
      simp only [encodeAll, List.flatMap_append, List.length_append] at hsize ⊢
      omega
    have hnext : Stands base (i.perform s) (encodeAll (before ++ [i])).length := by
      have hlength : (encodeAll (before ++ [i])).length = (encodeAll before).length +
          i.encode.length := by
        simp [encodeAll]
      rw [hlength]
      exact h.add (Instr.perform_pointer hi s)
    have hrest := ih (fun j hj => his j (by simp [hj])) hnext (by simpa using hsize)
    simp only [List.append_assoc, List.cons_append, List.nil_append] at hrest ⊢
    have hstep : step (encodeAll (before ++ i :: (is ++ after))) base s = some (i.perform s) := by
      rw [step, h.fetch hi.1 hbefore]
      rfl
    exact ⟨.head hstep hrest.1, hrest.2⟩

/-! ### Loading arguments -/

def intWords (args : List Argument) : List UInt64 := (args.filter fun a => !a.isFloat).map (·.bits)

def floatWords (args : List Argument) : List UInt64 := (args.filter (·.isFloat)).map (·.bits)

/-- The registers of the calling convention for integers, in order. -/
def argumentRegisters : List Processor.Register := [.rdi, .rsi, .rdx, .rcx, .r8, .r9]

theorem argumentRegisters_nodup : argumentRegisters.Nodup := by decide

/-- The words have arrived in the registers of their class, in order. -/
structure Holds (s : State) (ints floats : List UInt64) : Prop where
  general : ∀ (i : Nat) (w : UInt64), ints[i]? = some w → ∃ r, argumentRegisters[i]? = some r ∧
    s.registers r = w
  vector : ∀ (j : Nat) (w : UInt64), floats[j]? = some w → ∃ x : Fin 16, x.val = j ∧
    s.vectors x = ⟨w, 0⟩

/-- The registers that carry arguments, and those through which words pass on their way. A caller
must expect all of them to change. -/
def scratchRegisters : List Processor.Register := .rax :: .r11 :: argumentRegisters

/-- The second state has the memory of the first, and its registers outside the given ones. -/
structure Keeps (touched : List Processor.Register) (s s' : State) : Prop where
  registers : ∀ r, r ∉ touched → s'.registers r = s.registers r
  memory : s'.memory = s.memory

variable {s s₁ s₂ : State} {touched : List Processor.Register} {ints floats : List UInt64}
  {w : UInt64}

theorem Keeps.refl (touched : List Processor.Register) (s : State) : Keeps touched s s :=
  ⟨fun _ _ => rfl, rfl⟩

theorem Keeps.trans (h : Keeps touched s s₁) (h' : Keeps touched s₁ s₂) : Keeps touched s s₂ where
  registers r hr := (h'.registers r hr).trans (h.registers r hr)
  memory := h'.memory.trans h.memory

theorem keeps_set {r : Processor.Register} (hr : r ∈ touched) (pointer w : UInt64) (s : State) :
    Keeps touched s ({ s with pointer }.set r w) where
  registers r' hr' := by
    have hne : r' ≠ r := fun h => hr' (h ▸ hr)
    simp [hne]
  memory := rfl

/-- A word for a register without argument. -/
theorem Holds.set {r : Processor.Register} (h : Holds s ints floats) (hr : r ∉ argumentRegisters)
    (pointer w : UInt64) : Holds ({ s with pointer }.set r w) ints floats where
  general i w' hi := by
    obtain ⟨r', hr', hw'⟩ := h.general i w' hi
    have hne : r' ≠ r := fun heq => hr (heq ▸ List.mem_of_getElem? hr')
    exact ⟨r', hr', by simpa [hne] using hw'⟩
  vector := h.vector

theorem Holds.addInt {r : Register} (h : Holds s ints floats)
    (hr : argumentRegisters[ints.length]? = some r.number) :
    Holds (Instr.perform s (.movWord r w)) (ints ++ [w]) floats where
  general i w' hi := by
    rw [List.getElem?_append] at hi
    split at hi
    next hlt =>
      obtain ⟨r', hr', hw'⟩ := h.general i w' hi
      have hne : r' ≠ r.number := by
        rintro rfl
        obtain ⟨hi', hget⟩ := List.getElem?_eq_some_iff.mp hr'
        obtain ⟨hn, hget'⟩ := List.getElem?_eq_some_iff.mp hr
        have hsame := (argumentRegisters_nodup.getElem_inj_iff).mp (hget.trans hget'.symm)
        omega
      exact ⟨r', hr', by simpa [Instr.perform, Instr.meaning, State.execute, hne] using hw'⟩
    next hge =>
      obtain ⟨hi', rfl⟩ := List.getElem?_eq_some_iff.mp hi
      have hi'' : i = ints.length := by
        simp only [List.length_singleton] at hi'
        omega
      subst hi''
      exact ⟨r.number, hr, by simp [Instr.perform, Instr.meaning, State.execute]⟩
  vector := h.vector

/-- A float takes two instructions, the first of which brings it into `rax`. -/
theorem Holds.addFloat (h : Holds s ints floats) (hlt : floats.length < maxFloats) :
    Holds (performAll s [.movWord .rax w, .movqFromRax floats.length]) ints (floats ++ [w]) where
  general := (h.set (r := .rax) (by decide) _ w).general
  vector j w' hj := by
    have hlt' : floats.length < 8 := hlt
    rw [List.getElem?_append] at hj
    simp only [performAll_cons, performAll_nil, Instr.perform, Instr.meaning, State.execute]
    split at hj
    next hj' =>
      obtain ⟨x, hx, hw'⟩ := h.vector j w' hj
      have hne : x ≠ Processor.xmm floats.length := by
        rintro rfl
        simp only [Processor.xmm, Fin.val_ofNat] at hx
        omega
      exact ⟨x, hx, by rw [Function.update_of_ne hne, State.set_vectors, hw']⟩
    next hj' =>
      obtain ⟨hone, rfl⟩ := List.getElem?_eq_some_iff.mp hj
      have hlast : j = floats.length := by
        simp only [List.length_singleton] at hone
        omega
      subst hlast
      refine ⟨Processor.xmm floats.length, ?_, ?_⟩
      · simp only [Processor.xmm, Fin.val_ofNat]
        omega
      · simp [Register.number]

/-! ### Argument lists -/

variable {a : Argument} {args rest : List Argument} {m n : Nat} {is : List Instr}

theorem load_float (ha : a.isFloat) (h : load m n (a :: rest) = .ok is) :
    n < maxFloats ∧ ∃ more, load m (n + 1) rest = .ok more ∧
    is = .movWord .rax a.bits :: .movqFromRax n :: more := by
  rw [load, if_pos ha] at h
  split_ifs at h with hn
  cases hmore : load m (n + 1) rest with
  | error e => simp [hmore, bind, Except.bind] at h
  | ok more =>
    simp only [hmore, bind, Except.bind, pure, Except.pure, Except.ok.injEq] at h
    exact ⟨hn, more, rfl, h.symm⟩

theorem load_int (ha : a.isFloat = false) (h : load m n (a :: rest) = .ok is) :
    ∃ r more, intRegisters[m]? = some r ∧ load (m + 1) n rest = .ok more ∧
    is = .movWord r a.bits :: more := by
  rw [load, if_neg (by simp [ha])] at h
  split at h
  next r hr =>
    cases hmore : load (m + 1) n rest with
    | error e => simp [hmore, bind, Except.bind] at h
    | ok more =>
      simp only [hmore, bind, Except.bind, pure, Except.pure, Except.ok.injEq] at h
      exact ⟨r, more, hr, rfl, h.symm⟩
  next => cases h

theorem number_of_intRegisters {r : Register} (h : intRegisters[m]? = some r) :
    argumentRegisters[m]? = some r.number := by
  have hmap : argumentRegisters = intRegisters.map Register.number := rfl
  rw [hmap, List.getElem?_map, h]
  rfl

/-- Loading adds the words of the arguments to those that have arrived before. -/
theorem load_holds (hload : load ints.length floats.length args = .ok is)
    (h : Holds s ints floats) :
      (∀ i ∈ is, i.Straight) ∧ Holds (performAll s is) (ints ++ intWords args)
      (floats ++ floatWords args) ∧ Keeps scratchRegisters s (performAll s is) := by
  induction args generalizing ints floats is s with
  | nil =>
    cases hload
    simpa [intWords, floatWords] using ⟨h, Keeps.refl _ s⟩
  | cons a rest ih =>
    cases ha : a.isFloat with
    | true =>
      obtain ⟨hlt, more, hmore, rfl⟩ := load_float ha hload
      have hfloat : Holds (performAll s [.movWord .rax a.bits, .movqFromRax floats.length]) ints
          (floats ++ [a.bits]) :=
        h.addFloat hlt
      have hkeeps : Keeps scratchRegisters s (performAll s [.movWord .rax a.bits,
          .movqFromRax floats.length]) :=
        (keeps_set (r := .rax) (by decide) _ a.bits s).trans ⟨fun _ _ => rfl, rfl⟩
      obtain ⟨hstraight, hholds, hrest⟩ := ih (by simpa using hmore) hfloat
      refine ⟨?_, ?_, hkeeps.trans hrest⟩
      · simp only [List.forall_mem_cons]
        exact ⟨⟨trivial, by simp, by simp⟩, ⟨hlt, by simp, by simp⟩, hstraight⟩
      · simpa [intWords, floatWords, ha] using hholds
    | false =>
      obtain ⟨r, more, hr, hmore, rfl⟩ := load_int ha hload
      have hnumber := number_of_intRegisters hr
      have hmem : r.number ∈ scratchRegisters := by
        simp [scratchRegisters, List.mem_of_getElem? hnumber]
      obtain ⟨hstraight, hholds, hrest⟩ := ih (by simpa using hmore)
        (h.addInt (w := a.bits) hnumber)
      refine ⟨?_, ?_, (keeps_set hmem _ a.bits s).trans hrest⟩
      · simp only [List.forall_mem_cons]
        exact ⟨⟨trivial, by simp, by simp⟩, hstraight⟩
      · simpa [intWords, floatWords, ha] using hholds

/-- Loading succeeds as long as there are registers of the right class. -/
theorem load_ok_iff (hm : m ≤ maxInts) (hn : n ≤ maxFloats) :
    (∃ is, load m n args = .ok is) ↔
      m + (intWords args).length ≤ maxInts ∧ n + (floatWords args).length ≤ maxFloats := by
  induction args generalizing m n with
  | nil => simp [load, intWords, floatWords, hm, hn]
  | cons a rest ih =>
    cases ha : a.isFloat with
    | true =>
      have hints : intWords (a :: rest) = intWords rest := by simp [intWords, ha]
      have hfloats : floatWords (a :: rest) = a.bits :: floatWords rest := by simp [floatWords, ha]
      rw [hints, hfloats, List.length_cons]
      constructor
      · rintro ⟨is, his⟩
        obtain ⟨hlt, more, hmore, -⟩ := load_float ha his
        have := (ih hm hlt).mp ⟨more, hmore⟩
        omega
      · intro hroom
        have hlt : n < maxFloats := by omega
        obtain ⟨more, hmore⟩ := (ih hm hlt).mpr (by omega)
        exact ⟨_, by rw [load, if_pos ha, if_pos hlt, hmore]; rfl⟩
    | false =>
      have hints : intWords (a :: rest) = a.bits :: intWords rest := by simp [intWords, ha]
      have hfloats : floatWords (a :: rest) = floatWords rest := by simp [floatWords, ha]
      rw [hints, hfloats, List.length_cons]
      constructor
      · rintro ⟨is, his⟩
        obtain ⟨r, more, hr, hmore, -⟩ := load_int ha his
        have hlt : m < maxInts := (List.getElem?_eq_some_iff.mp hr).1
        have := (ih hlt hn).mp ⟨more, hmore⟩
        omega
      · intro hroom
        have hlt : m < intRegisters.length := by
          have : m < maxInts := by omega
          exact this
        obtain ⟨more, hmore⟩ := (ih (m := m + 1) hlt hn).mpr (by omega)
        exact ⟨_, by rw [load, if_neg (by simp [ha]), List.getElem?_eq_getElem hlt]; simp only [hmore]; rfl⟩

theorem load_length (h : load m n args = .ok is) : is.length ≤ 2 * args.length := by
  induction args generalizing m n is with
  | nil =>
    cases h
    simp
  | cons a rest ih =>
    cases ha : a.isFloat with
    | true =>
      obtain ⟨-, more, hmore, rfl⟩ := load_float ha h
      have := ih hmore
      simp only [List.length_cons]
      omega
    | false =>
      obtain ⟨r, more, -, hmore, rfl⟩ := load_int ha h
      have := ih hmore
      simp only [List.length_cons]
      omega

theorem length_words (args : List Argument) :
    (intWords args).length + (floatWords args).length = args.length := by
  induction args with
  | nil => rfl
  | cons a rest ih =>
    cases ha : a.isFloat <;> simp only [intWords, floatWords, List.length_map, List.filter_cons,
      ha] at ih ⊢ <;>
      simp only [Bool.not_true, Bool.not_false, Bool.false_eq_true, ↓reduceIte,
        List.length_cons] <;> omega

/-! ### The whole call -/

variable {address : UInt64} {signature : Signature}

/-- The instructions that count the vector registers in use. -/
def counting (args : List Argument) (signature : Signature) : List Instr :=
  if signature.variadic then [.movEax (args.filter (·.isFloat)).length.toUInt32] else []

/-- The instructions up to the call, around those that load the arguments. -/
def prologue (address : UInt64) (args : List Argument) (signature : Signature)
    (loads : List Instr) : List Instr :=
  .pushRax :: (loads ++ (counting args signature ++ [.movWord .r11 address]))

/-- The instructions between the call and the return. -/
def epilogue (signature : Signature) : List Instr :=
  .popRcx :: if signature.returnsFloat then [.movqToRax] else []

theorem assemble_eq_ok {code : List UInt8} :
    assemble address args signature = .ok code ↔
      ∃ loads, load 0 0 args = .ok loads ∧
        code = encodeAll (prologue address args signature loads ++ .callR11 ::
          (epilogue signature ++ [.ret])) := by
  cases hload : load 0 0 args with
  | error e => simp [assemble, instructions, hload, bind, Except.bind, Except.map]
  | ok loads =>
    simp only [assemble, instructions, hload, bind, Except.bind, pure, Except.pure, Except.map,
      Except.ok.injEq, exists_eq_left']
    simp only [prologue, counting, epilogue, encodeAll, List.cons_append, List.nil_append,
      List.append_assoc]
    exact eq_comm

theorem assemble_ok_iff :
    (∃ code, assemble address args signature = .ok code) ↔
      (intWords args).length ≤ maxInts ∧ (floatWords args).length ≤ maxFloats := by
  have hload := @load_ok_iff args 0 0 (Nat.zero_le maxInts) (Nat.zero_le maxFloats)
  simp only [Nat.zero_add] at hload
  simp only [← hload, assemble_eq_ok]
  constructor
  · rintro ⟨_, loads, h, -⟩
    exact ⟨loads, h⟩
  · rintro ⟨loads, h⟩
    exact ⟨_, loads, h, rfl⟩

theorem Instr.length_encode_le (i : Instr) : i.encode.length ≤ 10 := by
  cases i with
  | movWord r w => cases r <;> simp [encode, Register.opcode, word64, Bytes.length_littleEndian]
  | movEax w => simp [encode, Bytes.length_littleEndian]
  | _ => simp [encode]

theorem length_encodeAll_le (is : List Instr) : (encodeAll is).length ≤ 10 * is.length := by
  induction is with
  | nil => simp [encodeAll]
  | cons i is ih =>
    have := i.length_encode_le
    simp only [encodeAll, List.flatMap_cons, List.length_append, List.length_cons] at ih ⊢
    omega

/-- What the callee finds when it is called from a state that `s` has led to. -/
structure Ready (address : UInt64) (args : List Argument) (signature : Signature)
    (s before : State) : Prop where
  stack : before.registers .rsp = s.registers .rsp - 8
  arguments : Holds before (intWords args) (floatWords args)
  target : before.registers .r11 = address
  count : signature.variadic → (before.registers .rax).toUInt32.toNat = (floatWords args).length
  saved : ∀ r, r ∉ .rsp :: scratchRegisters → before.registers r = s.registers r

@[simp] theorem movWord_registers (s : State) (r : Register) (w : UInt64)
    (r' : Processor.Register) : (Instr.perform s (.movWord r w)).registers r' = if r' =
    r.number then w else s.registers r' :=
  State.set_registers ..

theorem pushRax_registers (s : State) (r : Processor.Register) :
    (Instr.perform s .pushRax).registers r = if r =
    .rsp then s.registers .rsp - 8 else s.registers r :=
  State.set_registers ..

/-- Counting the vector registers moves no argument. -/
theorem counting_holds (h : Holds s ints floats) (hfloats : (floatWords args).length ≤ maxFloats) :
    (∀ i ∈ counting args signature, i.Straight) ∧ Holds (performAll s (counting args signature))
      ints floats ∧ Keeps scratchRegisters s (performAll s (counting args signature)) ∧
      (signature.variadic →
        ((performAll s (counting args signature)).registers .rax).toUInt32.toNat =
        (floatWords args).length) := by
  cases hvariadic : signature.variadic with
  | false => simpa [counting, hvariadic] using ⟨h, Keeps.refl _ s⟩
  | true =>
    have hcount : (args.filter (·.isFloat)).length = (floatWords args).length := by
      simp [floatWords]
    have hmax : maxFloats = 8 := rfl
    simp only [counting, hvariadic, if_true, performAll_cons, performAll_nil, hcount]
    refine ⟨?_, h.set (r := .rax) (by decide) _ _, keeps_set (by decide) _ _ s, fun _ => ?_⟩
    · simp [Instr.Straight, Instr.Encodable]
    · simp [Instr.perform, Instr.meaning, State.execute]
      omega

theorem prologue_ready {loads : List Instr} (hload : load 0 0 args = .ok loads)
    (hfloats : (floatWords args).length ≤ maxFloats) (s : State) :
    (∀ i ∈ prologue address args signature loads, i.Straight) ∧
      Ready address args signature s (performAll s (prologue address args signature loads)) := by
  have hnone : Holds (Instr.perform s .pushRax) [] [] := ⟨by simp, by simp⟩
  have hload' : load ([] : List UInt64).length ([] : List UInt64).length args = .ok loads := hload
  obtain ⟨hloads, harguments, hkeeps⟩ := load_holds hload' hnone
  simp only [List.nil_append] at harguments
  obtain ⟨hcounting, harguments, hkeeps', hcount⟩ := @counting_holds _ _ _ args
    signature harguments hfloats
  have hsaved := hkeeps.trans hkeeps'
  simp only [prologue, performAll_cons, performAll_append, performAll_nil]
  refine ⟨?_, ?_, harguments.set (by decide) _ address, ?_, ?_, ?_⟩
  · simp only [List.forall_mem_cons, List.forall_mem_append]
    refine ⟨⟨trivial, by simp, by simp⟩, hloads, hcounting, ⟨trivial, by simp, by simp⟩, by simp⟩
  · rw [movWord_registers, if_neg (by decide), hsaved.registers _ (by decide),
      pushRax_registers, if_pos rfl]
  · exact (movWord_registers ..).trans (if_pos rfl)
  · intro hvariadic
    rw [movWord_registers, if_neg (by decide), hcount hvariadic]
  · intro r hr
    simp only [List.mem_cons, not_or, scratchRegisters] at hr
    have hr11 : r ≠ Register.number .r11 := hr.2.2.1
    rw [movWord_registers, if_neg hr11, hsaved.registers _ (by simpa [scratchRegisters] using hr.2),
      pushRax_registers, if_neg hr.1]

/-- How the code ends after a callee that left the state `after`. -/
structure Finished (signature : Signature) (s after last : State) : Prop where
  stack : last.registers .rsp = s.registers .rsp
  result : last.registers .rax = if signature.returnsFloat then (after.vectors 0).low else
    after.registers .rax
  saved : ∀ r, r ∉ [.rax, .rcx, .rsp] → last.registers r = after.registers r
  memory : last.memory = after.memory

theorem epilogue_finished {after : State} (hstack : after.registers .rsp = s.registers .rsp - 8) :
    (∀ i ∈ epilogue signature, i.Straight) ∧
      Finished signature s after (performAll after (epilogue signature)) := by
  have hrsp : after.registers .rsp + 8 = s.registers .rsp := by rw [hstack, UInt64.sub_add_cancel]
  have hpop : ∀ r, (Instr.perform after .popRcx).registers r =
      if r = .rcx then after.pop.1 else if r = .rsp then after.registers .rsp + 8 else
        after.registers r := by
    intro r
    simp [Instr.perform, Instr.meaning, State.execute, State.pop]
  cases hfloat : signature.returnsFloat with
  | false =>
    simp only [epilogue, hfloat, Bool.false_eq_true, if_false, performAll_cons, performAll_nil]
    refine ⟨by simp [Instr.Straight, Instr.Encodable], ?_, ?_, ?_, rfl⟩
    · rw [hpop, if_neg (by decide), if_pos rfl, hrsp]
    · rw [hpop, if_neg (by decide), if_neg (by decide), hfloat]
      rfl
    · intro r hr
      simp only [List.mem_cons, not_or] at hr
      rw [hpop, if_neg hr.2.1, if_neg hr.2.2.1]
  | true =>
    have hmove : ∀ r, (Instr.perform (Instr.perform after .popRcx) .movqToRax).registers r =
        if r = .rax then (after.vectors 0).low else (Instr.perform after .popRcx).registers r :=
      fun r => State.set_registers ..
    simp only [epilogue, hfloat, if_true, performAll_cons, performAll_nil]
    refine ⟨by simp [Instr.Straight, Instr.Encodable], ?_, ?_, ?_, rfl⟩
    · rw [hmove, if_neg (by decide), hpop, if_neg (by decide), if_pos rfl, hrsp]
    · rw [hmove, if_pos rfl, hfloat]
      rfl
    · intro r hr
      simp only [List.mem_cons, not_or] at hr
      rw [hmove, if_neg hr.1, hpop, if_neg hr.2.1, if_neg hr.2.2.1]

theorem assemble_error_iff :
    (∃ e, assemble address args signature = .error e) ↔
      maxInts < (intWords args).length ∨ maxFloats < (floatWords args).length := by
  have hok := @assemble_ok_iff args address signature
  cases hcode : assemble address args signature with
  | error e =>
    simp only [hcode, reduceCtorEq, exists_const, false_iff] at hok
    simp only [Except.error.injEq, exists_eq', true_iff]
    omega
  | ok code =>
    simp only [hcode, Except.ok.injEq, exists_eq', true_iff] at hok
    have hnone : ¬ ∃ e : Error, (Except.ok code : Except Error (List UInt8)) = .error e := by simp
    simp only [hnone, false_iff]
    omega

/-- No offset into the code wraps around. -/
theorem length_code_lt {loads : List Instr} (hload : load 0 0 args = .ok loads)
    (hfit : (intWords args).length ≤ maxInts ∧ (floatWords args).length ≤ maxFloats) :
    (encodeAll (prologue address args signature loads ++ .callR11 :: epilogue signature)).length <
    UInt64.size := by
  have hbytes := length_encodeAll_le (prologue address args signature loads ++ .callR11 ::
    epilogue signature)
  have hlimits : maxInts = 6 ∧ maxFloats = 8 := ⟨rfl, rfl⟩
  have hloads := load_length hload
  have hwords := length_words args
  have hcounting : (counting args signature).length ≤ 1 := by
    unfold counting
    split <;> simp
  have hepilogue : (epilogue signature).length ≤ 2 := by
    unfold epilogue
    split <;> simp
  have hinstructions : (prologue address args signature loads ++ .callR11 ::
    epilogue signature).length =
      loads.length + (counting args signature).length + (epilogue signature).length + 3 := by
    simp only [prologue, List.cons_append, List.length_cons, List.length_append, List.length_nil]
    omega
  have hmax : UInt64.size = 18446744073709551616 := rfl
  omega

/-- The code is assembled for every list of arguments that fits into the registers, and for no
other. From its first byte the processor comes to the call with everything in place; and from any
state in which the callee returns, with the stack it was given, to the return in the last byte. -/
theorem assemble_calls (address : UInt64) (args : List Argument) (signature : Signature) :
    ((∃ e, assemble address args signature = .error e) ↔
      6 < (intWords args).length ∨ 8 < (floatWords args).length) ∧
    ∀ code, assemble address args signature = .ok code → ∀ (base : UInt64) (s : State),
      s.pointer = base → ∃ before, Reaches code base s before ∧
        Ready address args signature s before ∧ fetch code base before = some (.call .r11, 3) ∧
        ∀ after : State, after.pointer = before.pointer + 3 →
          after.registers .rsp = before.registers .rsp →
          ∃ last, Reaches code base after last ∧ Finished signature s after last ∧
            fetch code base last = some (.ret, 1) ∧
            last.pointer = base + (code.length - 1).toUInt64 := by
  have hlimits : maxInts = 6 ∧ maxFloats = 8 := ⟨rfl, rfl⟩
  constructor
  · rw [assemble_error_iff, hlimits.1, hlimits.2]
  intro code hcode base s hs
  have hfit := assemble_ok_iff.mp ⟨code, hcode⟩
  obtain ⟨loads, hload, rfl⟩ := assemble_eq_ok.mp hcode
  have hsize := @length_code_lt args address signature loads hload hfit
  obtain ⟨hstraight, hready⟩ := @prologue_ready args address signature loads hload hfit.2 s
  generalize prologue address args signature loads = front at hsize hstraight hready ⊢
  have hfront : (encodeAll front).length < UInt64.size := by
    simp only [encodeAll, List.flatMap_append, List.length_append] at hsize ⊢
    omega
  have hstart : Stands base s (encodeAll []).length := by
    rw [Stands, hs]
    exact (UInt64.add_zero base).symm
  obtain ⟨hreaches, hcall⟩ := @Stands.performAll base front hstraight []
    (Instr.callR11 :: (epilogue signature ++ [Instr.ret])) s hstart hfront
  refine ⟨performAll s front, hreaches, hready, hcall.fetch trivial hfront, ?_⟩
  intro after hafter hstack
  obtain ⟨hstraight', hfinished⟩ := @epilogue_finished s signature after (hstack.trans hready.stack)
  have hreturn : Stands base after (encodeAll (front ++ [.callR11])).length := by
    have hlength : (encodeAll (front ++ [.callR11])).length = (encodeAll front).length + 3 := by
      simp [encodeAll, Instr.encode]
    rw [hlength]
    exact hcall.add hafter
  have hassoc : ∀ tail, front ++ .callR11 :: (epilogue signature ++ tail) =
      front ++ [.callR11] ++ epilogue signature ++ tail := by simp
  have hsize' : (encodeAll (front ++ [.callR11] ++ epilogue signature)).length < UInt64.size := by
    simpa using hsize
  obtain ⟨hreaches', hlast⟩ := @Stands.performAll base (epilogue signature) hstraight' (front ++
    [Instr.callR11]) [Instr.ret] after hreturn hsize'
  have hret := @Stands.fetch base _ _ [] Instr.ret hlast trivial hsize'
  have hlength : (encodeAll (front ++ [.callR11] ++ epilogue signature ++ [.ret])).length - 1 =
      (encodeAll (front ++ [.callR11] ++ epilogue signature)).length := by
    simp [encodeAll, Instr.encode]
  rw [hassoc, hlength]
  exact ⟨performAll after (epilogue signature), hreaches', hfinished, hret, hlast⟩

/-- A float between two integers, for a variadic function. -/
theorem assemble_calls_mixed :
    ∃ code, assemble 4096 [⟨7, false⟩, ⟨4609434218613702656, true⟩, ⟨9, false⟩] ⟨false, true⟩ =
      .ok code ∧ ∀ s : State, s.pointer = 65536 → ∃ before, Reaches code 65536 s before ∧
        before.registers .rdi = 7 ∧ before.registers .rsi = 9 ∧
        before.vectors 0 = ⟨4609434218613702656, 0⟩ ∧
        before.registers .r11 = 4096 ∧ (before.registers .rax).toUInt32.toNat = 1 := by
  obtain ⟨code, hcode⟩ := (@assemble_ok_iff [⟨7, false⟩, ⟨4609434218613702656, true⟩, ⟨9, false⟩]
    4096 ⟨false, true⟩).mpr (by decide)
  refine ⟨code, hcode, ?_⟩
  intro s hs
  obtain ⟨before, hreaches, hready, -⟩ := (assemble_calls _ _ _).2 code hcode 65536 s hs
  obtain ⟨rdi, hrdi, hseven⟩ := hready.arguments.general 0 7 rfl
  obtain ⟨rsi, hrsi, hnine⟩ := hready.arguments.general 1 9 rfl
  obtain ⟨x, hx, hfloat⟩ := hready.arguments.vector 0 4609434218613702656 rfl
  obtain rfl : x = 0 := Fin.ext hx
  cases hrdi
  cases hrsi
  exact ⟨before, hreaches, hseven, hnine, hfloat, hready.target, hready.count rfl⟩

end MicroCompiler.Native.CallCode
