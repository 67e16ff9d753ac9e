import MicroCompiler.Proofs.Machine.Word

/-! Arithmetic and comparison of integers. A register of 64 bits stands for a number of as many bits
as its type has. The machine works on extended copies and cuts the result; it agrees with two's
complement arithmetic on the narrow numbers, whatever the upper bits of the operands are. -/

namespace MicroCompiler

namespace Machine

/-- The number of `width` bits that a word stands for. -/
def lowBits (word : UInt64) (width : Nat) : BitVec width := word.toBitVec.setWidth width

end Machine

/-- The register form of a number: extended by zeros if the type is unsigned, else by the sign. -/
def TypeInfo.register (t : TypeInfo) (x : BitVec t.width) : UInt64 :=
  ⟨if t.isUnsigned then x.zeroExtend 64 else x.signExtend 64⟩

namespace Ssa

/-- The operation in two's complement: the result on integers, cut to the width. Signed division
goes toward zero, and shift amounts are taken modulo the width. -/
def IntOp.ideal (op : IntOp) {width : Nat} (x y : BitVec width) : BitVec width :=
  match op with
  | .add => .ofInt width (x.toInt + y.toInt)
  | .sub => .ofInt width (x.toInt - y.toInt)
  | .mul => .ofInt width (x.toInt * y.toInt)
  | .sdiv => .ofInt width (x.toInt.tdiv y.toInt)
  | .udiv => .ofNat width (x.toNat / y.toNat)
  | .srem => .ofInt width (x.toInt.tmod y.toInt)
  | .urem => .ofNat width (x.toNat % y.toNat)
  | .and => x &&& y
  | .or => x ||| y
  | .xor => x ^^^ y
  | .shl => x <<< (y.toNat % width)
  | .lshr => x >>> (y.toNat % width)
  | .ashr => x.sshiftRight (y.toNat % width)

/-- The comparison of the signed or unsigned numbers. -/
def IntPredicate.ideal (pred : IntPredicate) {width : Nat} (x y : BitVec width) : Bool :=
  match pred with
  | .eq => x = y
  | .ne => x ≠ y
  | .slt => x.toInt < y.toInt
  | .sle => x.toInt ≤ y.toInt
  | .sgt => y.toInt < x.toInt
  | .sge => y.toInt ≤ x.toInt
  | .ult => x.toNat < y.toNat
  | .ule => x.toNat ≤ y.toNat
  | .ugt => y.toNat < x.toNat
  | .uge => y.toNat ≤ x.toNat

end Ssa

namespace Machine

/-! ### Words as numbers -/

section

variable {width : Nat}

theorem width_le (t : TypeInfo) : t.width ≤ 64 := by
  cases t with
  | primitive p => cases p <;> decide
  | pointer t => exact Nat.le_refl 64

theorem toNat_lowBits (word : UInt64) (width : Nat) :
    (lowBits word width).toNat = word.toNat % 2 ^ width :=
  BitVec.toNat_setWidth width word.toBitVec

theorem toNat_zeroExtend (word : UInt64) (width : Nat) :
    (zeroExtend word width).toNat = (lowBits word width).toNat := by
  rw [zeroExtend_eq_low, toNat_low, toNat_lowBits]

theorem toBitVec_zeroExtend (word : UInt64) (hwidth : width ≤ 64) :
    (zeroExtend word width).toBitVec = (lowBits word width).setWidth 64 := by
  apply BitVec.eq_of_toNat_eq
  have hlt := Nat.lt_of_lt_of_le (lowBits word width).isLt (Nat.pow_le_pow_right (by omega) hwidth)
  rw [UInt64.toNat_toBitVec, toNat_zeroExtend, BitVec.toNat_setWidth, Nat.mod_eq_of_lt hlt]

/-- A number extended by zeros and cut again. -/
theorem setWidth_toBitVec_zeroExtend (word : UInt64) (hwidth : width ≤ 64) :
    (zeroExtend word width).toBitVec.setWidth width = lowBits word width := by
  rw [toBitVec_zeroExtend word hwidth, BitVec.setWidth_setWidth_of_le _ hwidth, BitVec.setWidth_eq]

/-- Shifting to the left end of the register and back extends by the sign. -/
theorem sshiftRight_shiftLeft (word : BitVec 64) (hpos : 0 < width) (hwidth : width ≤ 64) :
    (word <<< (64 - width)).sshiftRight (64 - width) = (word.setWidth width).signExtend 64 := by
  ext i hi
  rw [BitVec.getElem_sshiftRight, BitVec.getElem_signExtend]
  by_cases hlow : i < width
  · have hshift : 64 - width + i < 64 := by omega
    have hback : 64 - width + i - (64 - width) = i := by omega
    simp [hlow, hshift, hback, hi]
  · have hshift : ¬ 64 - width + i < 64 := by omega
    have htop : 63 - (64 - width) = width - 1 := by omega
    have hunused : ¬ 63 < 64 - width := by omega
    have hlast : width - 1 < width := by omega
    simp [hlow, hshift, BitVec.msb_eq_getLsbD_last, htop, hunused, hlast,
      BitVec.getLsbD_eq_getElem (show width - 1 < 64 by omega)]

/-- A shift amount below the size of the register is taken as it is. -/
theorem toNat_smod_of_lt {amount : BitVec 64} (h : amount.toNat < 64) :
    (amount.smod 64).toNat = amount.toNat := by
  have hall : ∀ k < 64, ((BitVec.ofNat 64 k).smod 64).toNat = k := by decide
  simpa using hall amount.toNat h

theorem toBitVec_shiftRight {i amount : Int64} (h : amount.toBitVec.toNat < 64) :
    (i >>> amount).toBitVec = i.toBitVec.sshiftRight amount.toBitVec.toNat := by
  rw [Int64.toBitVec_shiftRight, BitVec.sshiftRight', toNat_smod_of_lt h]

theorem toBitVec_signExtend (word : UInt64) (hpos : 0 < width) (hwidth : width ≤ 64) :
    (signExtend word width).toBitVec = (lowBits word width).signExtend 64 := by
  unfold signExtend
  split
  next hwide =>
    obtain rfl : width = 64 := by omega
    simp [lowBits]
  next hnarrow =>
    have hunused : (64 - width).toUInt64.toNat = 64 - width := by
      simp only [Nat.toUInt64_eq, UInt64.toNat_ofNat']
      omega
    have hamount : (64 - width).toUInt64.toInt64.toBitVec.toNat = 64 - width := by
      rw [UInt64.toBitVec_toInt64, UInt64.toNat_toBitVec, hunused]
    have hmod : (64 - width) % 64 = 64 - width := Nat.mod_eq_of_lt (by omega)
    rw [lowBits, ← sshiftRight_shiftLeft _ hpos hwidth, toBitVec_shiftRight (by omega), hamount]
    simp [hunused, hmod]

theorem toInt_signExtend (word : UInt64) (hpos : 0 < width) (hwidth : width ≤ 64) :
    (signExtend word width).toInt = (lowBits word width).toInt := by
  rw [← Int64.toInt_toBitVec, toBitVec_signExtend word hpos hwidth,
    BitVec.toInt_signExtend_of_le hwidth]

/-- The number that a signed result stands for. -/
theorem lowBits_toUInt64 (i : Int64) (hwidth : width ≤ 64) :
    lowBits i.toUInt64 width = BitVec.ofInt width i.toInt := by
  rw [lowBits,
    Int64.toBitVec_toUInt64, ← Int64.toInt_toBitVec, ← BitVec.signExtend_eq_setWidth_of_le _ hwidth]
  apply BitVec.eq_of_toInt_eq
  rw [BitVec.toInt_signExtend, BitVec.toInt_ofInt, Nat.min_eq_left hwidth]

/-- Register form is the form of the number. -/
theorem normalize_eq_register {t : TypeInfo} (ht : t.isInt = true) (word : UInt64) :
    normalize t word = t.register (lowBits word t.width) := by
  have hfloat : t.isFloat = false := by
    cases t with
    | primitive p => simpa [TypeInfo.isInt, Primitive.isInt, TypeInfo.isFloat] using ht
    | pointer t => cases ht
  have hpointer : t.isPointer = false := by
    cases t with
    | primitive p => rfl
    | pointer t => cases ht
  simp only [normalize, TypeInfo.register, hfloat, hpointer, Bool.false_or, Bool.or_false]
  apply UInt64.toBitVec_inj.mp
  split
  next => exact toBitVec_zeroExtend word (width_le t)
  next => exact toBitVec_signExtend word (width_pos t) (width_le t)

end

/-! ### Operations -/

section

variable {width : Nat}

/-- What is not significant in a result on integers may be cut off before. -/
theorem ofInt_bmod (n : Int) (hwidth : width ≤ 64) :
    BitVec.ofInt width (n.bmod (2 ^ 64)) = BitVec.ofInt width n := by
  apply BitVec.eq_of_toInt_eq
  rw [BitVec.toInt_ofInt, BitVec.toInt_ofInt, Int.bmod_bmod_of_dvd (Nat.pow_dvd_pow 2 hwidth)]

/-- The number of an unsigned result that fits. -/
theorem lowBits_of_toNat {word : UInt64} {n : Nat} (h : word.toNat = n) :
    lowBits word width = BitVec.ofNat width n := by
  apply BitVec.eq_of_toNat_eq
  rw [toNat_lowBits, BitVec.toNat_ofNat, h]

/-- Shift amounts are taken modulo the width. -/
theorem toNat_amount (word : UInt64) (hpos : 0 < width) (hwidth : width ≤ 64) :
    (zeroExtend word width % width.toUInt64).toNat = (lowBits word width).toNat % width ∧
      (lowBits word width).toNat % width < 64 := by
  have hmodulus : width.toUInt64.toNat = width := by
    simp only [Nat.toUInt64_eq, UInt64.toNat_ofNat']
    omega
  refine ⟨by rw [UInt64.toNat_mod, toNat_zeroExtend, hmodulus], ?_⟩
  exact Nat.lt_of_lt_of_le (Nat.mod_lt _ hpos) hwidth

/-- The low bits of what the machine computes are the result in two's complement. -/
theorem lowBits_compute (op : Ssa.IntOp) (a b : UInt64) (hpos : 0 < width) (hwidth : width ≤ 64) :
    lowBits (op.compute width a b) width = op.ideal (lowBits a width) (lowBits b width) := by
  have hcut (word : UInt64) := @setWidth_toBitVec_zeroExtend width word hwidth
  have hsigned (word : UInt64) := @toInt_signExtend width word hpos hwidth
  obtain ⟨hamount, hlt⟩ := toNat_amount b hpos hwidth
  cases op with
  | add =>
    simp only [Ssa.IntOp.compute, Ssa.IntOp.ideal, BitVec.ofInt_add, BitVec.ofInt_toInt]
    rw [lowBits, UInt64.toBitVec_add, BitVec.setWidth_add _ _ hwidth, hcut, hcut]
  | sub =>
    simp only [Ssa.IntOp.compute, Ssa.IntOp.ideal, Int.sub_eq_add_neg, BitVec.ofInt_add,
      BitVec.ofInt_neg, BitVec.ofInt_toInt]
    rw [lowBits, UInt64.toBitVec_sub, BitVec.sub_eq_add_neg, BitVec.setWidth_add _ _ hwidth,
      BitVec.setWidth_neg_of_le hwidth, hcut, hcut]
  | mul =>
    simp only [Ssa.IntOp.compute, Ssa.IntOp.ideal, BitVec.ofInt_mul, BitVec.ofInt_toInt]
    rw [lowBits, UInt64.toBitVec_mul, BitVec.setWidth_mul _ _ hwidth, hcut, hcut]
  | sdiv =>
    simp only [Ssa.IntOp.compute, Ssa.IntOp.ideal]
    rw [lowBits_toUInt64 _ hwidth, Int64.toInt_div, ofInt_bmod _ hwidth, hsigned, hsigned]
  | udiv =>
    refine lowBits_of_toNat ?_
    simp only [Ssa.IntOp.compute]
    rw [UInt64.toNat_div, toNat_zeroExtend, toNat_zeroExtend]
  | srem =>
    simp only [Ssa.IntOp.compute, Ssa.IntOp.ideal]
    rw [lowBits_toUInt64 _ hwidth, Int64.toInt_mod, hsigned, hsigned]
  | urem =>
    refine lowBits_of_toNat ?_
    simp only [Ssa.IntOp.compute]
    rw [UInt64.toNat_mod, toNat_zeroExtend, toNat_zeroExtend]
  | and =>
    simp only [Ssa.IntOp.compute, Ssa.IntOp.ideal]
    rw [lowBits, UInt64.toBitVec_and, BitVec.setWidth_and, hcut, hcut]
  | or =>
    simp only [Ssa.IntOp.compute, Ssa.IntOp.ideal]
    rw [lowBits, UInt64.toBitVec_or, BitVec.setWidth_or, hcut, hcut]
  | xor =>
    simp only [Ssa.IntOp.compute, Ssa.IntOp.ideal]
    rw [lowBits, UInt64.toBitVec_xor, BitVec.setWidth_xor, hcut, hcut]
  | shl =>
    apply BitVec.eq_of_toNat_eq
    simp only [Ssa.IntOp.compute, Ssa.IntOp.ideal]
    rw [toNat_lowBits, UInt64.toNat_shiftLeft, hamount, Nat.mod_eq_of_lt hlt, toNat_zeroExtend,
      BitVec.toNat_shiftLeft, Nat.mod_mod_of_dvd _ (Nat.pow_dvd_pow 2 hwidth)]
  | lshr =>
    apply BitVec.eq_of_toNat_eq
    simp only [Ssa.IntOp.compute, Ssa.IntOp.ideal]
    rw [toNat_lowBits, UInt64.toNat_shiftRight, hamount, Nat.mod_eq_of_lt hlt, toNat_zeroExtend,
      ← BitVec.toNat_ushiftRight, Nat.mod_eq_of_lt (BitVec.isLt _)]
  | ashr =>
    have hword : (zeroExtend b width % width.toUInt64).toInt64.toBitVec.toNat =
        (lowBits b width).toNat % width := by
      rw [UInt64.toBitVec_toInt64, UInt64.toNat_toBitVec, hamount]
    simp only [Ssa.IntOp.compute, Ssa.IntOp.ideal]
    rw [lowBits_toUInt64 _ hwidth, ← Int64.toInt_toBitVec, toBitVec_shiftRight (by omega), hword,
      BitVec.toInt_sshiftRight, Int64.toInt_toBitVec, hsigned, ← BitVec.toInt_sshiftRight,
      BitVec.ofInt_toInt]

theorem zeroExtend_eq_zero (word : UInt64) :
    zeroExtend word width = 0 ↔ lowBits word width = 0 := by
  rw [← UInt64.toNat_inj, toNat_zeroExtend, ← BitVec.toNat_inj]
  rfl

theorem zeroExtend_inj (a b : UInt64) : zeroExtend a width = zeroExtend b width ↔
    lowBits a width = lowBits b width := by
  rw [← UInt64.toNat_inj, toNat_zeroExtend, toNat_zeroExtend, BitVec.toNat_inj]

/-- The machine compares the numbers that its operands stand for. -/
theorem holds_eq_ideal (pred : Ssa.IntPredicate) (a b : UInt64) (hpos : 0 < width)
    (hwidth : width ≤ 64) :
    pred.holds width a b = pred.ideal (lowBits a width) (lowBits b width) := by
  have hsigned (word : UInt64) := @toInt_signExtend width word hpos hwidth
  have hunsigned (word : UInt64) := toNat_zeroExtend word width
  cases pred with
  | eq =>
    simp only [Ssa.IntPredicate.holds, Ssa.IntPredicate.ideal, ← zeroExtend_inj, beq_eq_decide]
  | ne =>
    simp only [Ssa.IntPredicate.holds, Ssa.IntPredicate.ideal, ne_eq, ← zeroExtend_inj, bne,
      beq_eq_decide, decide_not]
  | _ =>
    simp only [Ssa.IntPredicate.holds, Ssa.IntPredicate.ideal, Int64.lt_iff_toInt_lt,
      Int64.le_iff_toInt_le, UInt64.lt_iff_toNat_lt, UInt64.le_iff_toNat_le, hsigned, hunsigned]

end

end Machine

namespace Ssa

open Machine

/-- Division of the least number by -1 wraps around, and leaves nothing. -/
theorem IntOp.ideal_intMin {width : Nat} (hpos : 0 < width) :
    IntOp.sdiv.ideal (BitVec.intMin width) (.ofInt width (-1)) = BitVec.intMin width ∧
      IntOp.srem.ideal (BitVec.intMin width) (.ofInt width (-1)) = .ofInt width 0 := by
  have hone : (BitVec.ofInt width (-1)).toInt = -1 := by
    have htwo : 2 ^ 1 ≤ 2 ^ width := Nat.pow_le_pow_right (by omega) hpos
    rw [BitVec.toInt_ofInt]
    exact Int.bmod_eq_of_le_mul_two (by omega) (by omega)
  simp only [IntOp.ideal, hone]
  refine ⟨?_, ?_⟩
  · rw [Int.tdiv_neg, Int.tdiv_one, BitVec.ofInt_neg, BitVec.ofInt_toInt, BitVec.neg_intMin]
  · rw [Int.tmod_neg, Int.tmod_one]

/-- Arithmetic on an integer type is arithmetic on its numbers in two's complement: whatever the
upper bits of the operands are, the result is the register form of the result on the low bits, and
there is none just if a divisor has only zeros there. The predicates compare the low bits, as signed
or unsigned numbers. -/
theorem IntOp.apply_eq_ideal {t : TypeInfo} (ht : t.isInt = true) (a b : UInt64) :
    (∀ op : IntOp, op.apply t a b =
      if op.divides ∧ lowBits b t.width = 0 then none
      else some (t.register (op.ideal (lowBits a t.width) (lowBits b t.width)))) ∧
    (∀ pred : IntPredicate, pred.holds t.width a b = pred.ideal (lowBits a t.width)
      (lowBits b t.width)) ∧
    IntOp.sdiv.ideal (BitVec.intMin t.width) (.ofInt t.width (-1)) = BitVec.intMin t.width ∧
    IntOp.srem.ideal (BitVec.intMin t.width) (.ofInt t.width (-1)) = .ofInt t.width 0 := by
  have hpos := width_pos t
  have hwidth := width_le t
  refine ⟨fun op => ?_, fun pred => holds_eq_ideal pred a b hpos hwidth, ideal_intMin hpos⟩
  unfold IntOp.apply
  simp only [zeroExtend_eq_zero, normalize_eq_register ht, lowBits_compute op a b hpos hwidth]

/-- Among signed numbers of eight bits, -128 divided by -1 is -128 again, also if both have upper
bits that do not matter; a divisor with all its bits in the upper part is zero. -/
theorem IntOp.apply_eq_ideal_i8 :
    (TypeInfo.primitive .i8).isInt = true ∧
      IntOp.sdiv.apply (.primitive .i8) 0xab80 0x1ff = some 0xffffffffffffff80 ∧
      IntOp.sdiv.apply (.primitive .i8) 0xab80 0x1ff =
        some ((TypeInfo.primitive .i8).register (IntOp.sdiv.ideal (.ofInt 8 (-128))
          (.ofInt 8 (-1)))) ∧
      IntOp.urem.apply (.primitive .i8) 0xab80 0x100 = none ∧
      IntPredicate.slt.holds 8 0xab80 0x1ff = IntPredicate.slt.ideal (.ofInt 8 (-128))
      (.ofInt 8 (-1)) := by
  have hint : (TypeInfo.primitive .i8).isInt = true := rfl
  have hdivided := apply_eq_ideal hint 0xab80 0x1ff
  have hzero := apply_eq_ideal hint 0xab80 0x100
  exact ⟨hint, by decide, hdivided.1 .sdiv, hzero.1 .urem, hdivided.2.1 .slt⟩

end Ssa

end MicroCompiler
