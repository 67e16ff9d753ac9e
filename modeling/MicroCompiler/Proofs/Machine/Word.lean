import MicroCompiler.Proofs.Memory
import MicroCompiler.Machine.Word

/-! Words and their low bits. The extensions to 64 bits, and with them register form, depend on the
low bits of a word only, so a word keeps its register form when it is cut to the size of its
type. -/

namespace MicroCompiler.Machine

/-- The low bits of a word. -/
def low (bits : UInt64) (width : Nat) : UInt64 := (bits.toNat % 2 ^ width).toUInt64

theorem toNat_low (bits : UInt64) (width : Nat) :
    (low bits width).toNat = bits.toNat % 2 ^ width := by
  have hlt := bits.toNat_lt
  simp only [low, Nat.toUInt64_eq, UInt64.toNat_ofNat']
  exact Nat.mod_eq_of_lt (Nat.lt_of_le_of_lt (Nat.mod_le _ _) hlt)

theorem low_of_le {width : Nat} (h : 64 ≤ width) (bits : UInt64) : low bits width = bits := by
  apply UInt64.toNat_inj.mp
  rw [toNat_low]
  exact Nat.mod_eq_of_lt (Nat.lt_of_lt_of_le bits.toNat_lt (Nat.pow_le_pow_right (by omega) h))

/-- To extend by zeros is to keep the low bits. -/
theorem zeroExtend_eq_low (bits : UInt64) (width : Nat) :
    zeroExtend bits width = low bits width := by
  unfold zeroExtend
  split
  next hwide => exact (low_of_le hwide bits).symm
  next hnarrow =>
    have hwidth : width.toUInt64.toNat = width := by
      simp only [Nat.toUInt64_eq, UInt64.toNat_ofNat']
      omega
    have hpow : 2 ^ width < 2 ^ 64 := Nat.pow_lt_pow_right (by omega) (by omega)
    have hpos : 0 < 2 ^ width := Nat.two_pow_pos width
    have hone : (1 : UInt64).toNat = 1 := rfl
    have hmask : ((1 : UInt64) <<< width.toUInt64 - 1).toNat = 2 ^ width - 1 := by
      rw [UInt64.toNat_sub, UInt64.toNat_shiftLeft, hwidth, hone,
        Nat.mod_eq_of_lt (a := width) (by omega), Nat.one_shiftLeft]
      omega
    apply UInt64.toNat_inj.mp
    rw [UInt64.toNat_and, hmask, toNat_low, Nat.and_two_pow_sub_one_eq_mod]

theorem low_low (bits : UInt64) (width : Nat) : low (low bits width) width = low bits width := by
  apply UInt64.toNat_inj.mp
  rw [toNat_low, toNat_low, Nat.mod_mod]

theorem zeroExtend_low (bits : UInt64) (width : Nat) :
    zeroExtend (low bits width) width = zeroExtend bits width := by
  rw [zeroExtend_eq_low, zeroExtend_eq_low, low_low]

theorem signExtend_low (bits : UInt64) {width : Nat} (h : 0 < width) :
    signExtend (low bits width) width = signExtend bits width := by
  unfold signExtend
  split
  next hwide => rw [low_of_le hwide]
  next hnarrow =>
    have hunused : (64 - width).toUInt64.toNat % 64 = 64 - width := by
      simp only [Nat.toUInt64_eq, UInt64.toNat_ofNat']
      omega
    have hsplit : 2 ^ 64 = 2 ^ width * 2 ^ (64 - width) := by
      rw [← Nat.pow_add]
      congr 1
      omega
    have hshift : low bits width <<< (64 - width).toUInt64 = bits <<< (64 - width).toUInt64 := by
      apply UInt64.toNat_inj.mp
      rw [UInt64.toNat_shiftLeft, UInt64.toNat_shiftLeft, toNat_low, hunused, Nat.shiftLeft_eq,
        Nat.shiftLeft_eq, hsplit, Nat.mul_mod_mul_right, Nat.mul_mod_mul_right, Nat.mod_mod]
    simp only [hshift]

/-- The amount by which a sign extension shifts back. -/
private theorem unused_smod : ∀ width < 64, 0 < width →
    ((BitVec.ofNat 64 (64 - width)).smod 64#64).toNat = 64 - width := by decide

/-- A sign extension keeps the low bits. -/
theorem low_signExtend (bits : UInt64) {width : Nat} (h : 0 < width) :
    low (signExtend bits width).toUInt64 width = low bits width := by
  apply UInt64.toNat_inj.mp
  rw [toNat_low, toNat_low]
  unfold signExtend
  split
  next => rfl
  next hnarrow =>
    apply Nat.eq_of_testBit_eq
    intro i
    rw [Nat.testBit_mod_two_pow, Nat.testBit_mod_two_pow]
    by_cases hi : i < width
    · have hback := unused_smod width (by omega) h
      have hshift : (64 - width) % 64 = 64 - width := Nat.mod_eq_of_lt (by omega)
      have hfits : 64 - width + i < 64 := by omega
      have hlow : ¬ 64 - width + i < 64 - width := by omega
      have hbelow : i < 64 := by omega
      rw [← UInt64.toNat_toBitVec, ← UInt64.toNat_toBitVec, ← BitVec.getLsbD, ← BitVec.getLsbD]
      simp [hback, hshift, hfits, hlow, BitVec.getElem_sshiftRight,
        BitVec.getLsbD_eq_getElem hbelow]
    · simp [hi]

theorem width_pos (t : TypeInfo) : 0 < t.width := by
  cases t with
  | primitive p => cases p <;> decide
  | pointer t => simp [TypeInfo.width, TypeInfo.size]

/-- Register form depends on the bits of the type only. -/
theorem normalize_low (t : TypeInfo) (bits : UInt64) :
    normalize t (low bits t.width) = normalize t bits := by
  unfold normalize
  rw [zeroExtend_low, signExtend_low bits (width_pos t)]

theorem low_normalize (t : TypeInfo) (bits : UInt64) :
    low (normalize t bits) t.width = low bits t.width := by
  unfold normalize
  split
  · rw [zeroExtend_eq_low, low_low]
  · exact low_signExtend bits (width_pos t)

/-- A word in register form stays as it is. -/
theorem normalize_normalize (t : TypeInfo) (bits : UInt64) :
    normalize t (normalize t bits) = normalize t bits := by
  rw [← normalize_low t (normalize t bits), low_normalize, normalize_low]

/-- What is stored and loaded again has the register form of what was stored. -/
theorem normalize_load_store (memory : Memory) (address : UInt64) (t : TypeInfo) (word : UInt64) :
    normalize t ((memory.store address t.size word).load address t.size) = normalize t word := by
  have hsize : t.size ≤ 8 := by
    cases t with
    | primitive p => cases p <;> decide
    | pointer t => simp [TypeInfo.size]
  have hwidth : 256 ^ t.size = 2 ^ t.width := by
    rw [TypeInfo.width, Nat.pow_mul]
  rw [Memory.load_store _ _ _ hsize, hwidth]
  exact normalize_low t word

end MicroCompiler.Machine
