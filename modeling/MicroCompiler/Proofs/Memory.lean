import Mathlib.Algebra.Group.Nat.Defs
import Mathlib.Order.Basic
import MicroCompiler.Machine.Frame

/-! Memory, byte by byte. What a write leaves at an address is said by the distance from where it
began; distances wrap around, so nothing is assumed about addresses. A header that was written is
read back, and is read back as long as its own bytes are not written again. -/

namespace MicroCompiler

namespace Memory

/-! ### Bytes -/

theorem sub_toNat_inj {x a base : UInt64} : (x - base).toNat = (a - base).toNat ↔ x = a := by
  rw [UInt64.toNat_inj]
  constructor
  · intro h
    have := congrArg (· + base) h
    simpa using this
  · rintro rfl
    rfl

theorem get_set (m : Memory) (a x : UInt64) (b : UInt8) :
    (m.set a b).get x = if x = a then b else m.get x := by
  have hsize : ∀ (i : Nat) (bytes : Array UInt8),
      i < (if i < bytes.size then bytes else bytes ++ Array.replicate (i + 1 -
      bytes.size) 0).size := by
    intro i bytes
    split
    · assumption
    · simp
      omega
  have hgrow : ∀ (i j : Nat) (bytes : Array UInt8),
      (if i < bytes.size then bytes else bytes ++ Array.replicate (i + 1 - bytes.size) 0)[j]?.getD
        0 = bytes[j]?.getD 0 := by
    intro i j bytes
    split
    · rfl
    · rw [Array.getElem?_append]
      split
      next => rfl
      next hj =>
        rw [Array.getElem?_replicate, Array.getElem?_eq_none (by omega)]
        split <;> rfl
  simp only [get, set, Array.getD_eq_getD_getElem?, Array.getElem?_setIfInBounds]
  by_cases hx : x = a
  · subst hx
    rw [if_pos rfl, if_pos rfl, if_pos (hsize _ _)]
    rfl
  · have hne : ¬ (a - m.base).toNat = (x - m.base).toNat := fun h => hx (sub_toNat_inj.mp h).symm
    rw [if_neg hx, if_neg hne, hgrow]

/-- A write leaves its bytes by their distance from its beginning. -/
theorem get_write (m : Memory) (a x : UInt64) (bs : List UInt8) (hlen : bs.length ≤ UInt64.size) :
    (m.write a bs).get x = bs[(x - a).toNat]?.getD (m.get x) := by
  induction bs generalizing m a with
  | nil => simp [write]
  | cons b rest ih =>
    have hlen' : rest.length + 1 ≤ 18446744073709551616 := hlen
    have hx := x.toNat_lt
    have ha := a.toNat_lt
    have hone : (1 : UInt64).toNat = 1 := rfl
    rw [write, ih _ _ (by simp only [UInt64.size]; omega), get_set]
    by_cases hxa : x = a
    · -- The address just written is as far away as can be from the address after it.
      subst hxa
      have hfar : rest.length ≤ (x - (x + 1)).toNat := by
        rw [UInt64.toNat_sub, UInt64.toNat_add, hone]
        omega
      rw [List.getElem?_eq_none hfar]
      simp
    · have hne : x.toNat ≠ a.toNat := fun h => hxa (UInt64.toNat_inj.mp h)
      have hnext : (x - a).toNat = (x - (a + 1)).toNat + 1 := by
        rw [UInt64.toNat_sub, UInt64.toNat_sub, UInt64.toNat_add, hone]
        omega
      rw [hnext, if_neg hxa]
      rfl

/-! ### Reads -/

theorem toUInt64_succ (i : Nat) : (i + 1).toUInt64 = 1 + i.toUInt64 := by
  apply UInt64.toNat_inj.mp
  rw [UInt64.toNat_add]
  simp only [Nat.toUInt64_eq, UInt64.toNat_ofNat']
  have hone : (1 : UInt64).toNat = 1 := rfl
  rw [hone]
  omega

theorem read_getElem? (m : Memory) (a : UInt64) (n i : Nat) :
    (m.read a n)[i]? = if i < n then some (m.get (a + i.toUInt64)) else none := by
  induction n generalizing a i with
  | zero => simp [read]
  | succ n ih =>
    cases i with
    | zero => simp [read]
    | succ i =>
      rw [read, List.getElem?_cons_succ, ih, toUInt64_succ, UInt64.add_assoc]
      simp

/-- A load depends on the bytes that it reads only. -/
theorem load_congr {m m' : Memory} {a : UInt64} {n : Nat}
    (h : ∀ i < n, m.get (a + i.toUInt64) = m'.get (a + i.toUInt64)) : m.load a n = m'.load a n := by
  have hread : m.read a n = m'.read a n := by
    apply List.ext_getElem?
    intro i
    rw [read_getElem?, read_getElem?]
    split
    next hi => rw [h i hi]
    next => rfl
  rw [load, load, hread]

/-- A read inside a write finds what was written. -/
theorem read_write (m : Memory) (a : UInt64) (bs : List UInt8) (hlen : bs.length ≤ UInt64.size)
    (k n : Nat) (hk : k + n ≤ bs.length) :
    (m.write a bs).read (a + k.toUInt64) n = (bs.drop k).take n := by
  have hlen' : bs.length ≤ 18446744073709551616 := hlen
  apply List.ext_getElem?
  intro i
  rw [read_getElem?, List.getElem?_take]
  by_cases hi : i < n
  · have hdist : (a + k.toUInt64 + i.toUInt64 - a).toNat = k + i := by
      have ha := a.toNat_lt
      rw [UInt64.toNat_sub, UInt64.toNat_add, UInt64.toNat_add]
      simp only [Nat.toUInt64_eq, UInt64.toNat_ofNat']
      omega
    rw [if_pos hi, if_pos hi, get_write _ _ _ _ hlen, hdist, List.getElem?_drop]
    rw [List.getElem?_eq_getElem (by omega)]
    rfl
  · rw [if_neg hi, if_neg hi]

end Memory

namespace Bytes

theorem length_littleEndian (width n : Nat) : (littleEndian width n).length = width := by
  induction width generalizing n with
  | zero => rfl
  | succ width ih => simp [littleEndian, ih]

theorem ofLittleEndian_littleEndian (width n : Nat) :
    ofLittleEndian (littleEndian width n) = n % 256 ^ width := by
  induction width generalizing n with
  | zero => simp [littleEndian, ofLittleEndian, Nat.mod_one]
  | succ width ih =>
    have hbyte : n.toUInt8.toNat = n % 256 := by simp
    rw [littleEndian, ofLittleEndian, ih, hbyte, Nat.pow_succ', Nat.mod_mul]

end Bytes

namespace Memory

/-- A word that was stored is loaded again, cut to its width. -/
theorem load_store (m : Memory) (a : UInt64) (size : Nat) (hsize : size ≤ 8) (word : UInt64) :
    (m.store a size word).load a size = (word.toNat % 256 ^ size).toUInt64 := by
  have hlen := Bytes.length_littleEndian size word.toNat
  have hbound : (Bytes.littleEndian size word.toNat).length ≤ UInt64.size := by
    rw [hlen, UInt64.size]
    omega
  have hread := read_write m a (Bytes.littleEndian size word.toNat) hbound 0 size (by omega)
  have hzero : a + (0 : Nat).toUInt64 = a := UInt64.add_zero a
  rw [hzero, List.drop_zero, List.take_of_length_le (by omega)] at hread
  rw [load, store, hread, Bytes.ofLittleEndian_littleEndian]

end Memory

/-! ### The stack -/

namespace Machine

namespace Stack

variable (s : Stack)

theorem address_add (i j : Nat) : s.address (i + j) = s.address i + j.toUInt64 := by
  apply UInt64.toNat_inj.mp
  simp only [address, UInt64.toNat_add, Nat.toUInt64_eq, UInt64.toNat_ofNat']
  omega

/-- Distances in the stack are differences of offsets. -/
theorem address_sub {i j : Nat} (hj : j < UInt64.size) :
    (s.address i - s.address j).toNat = (UInt64.size - j + i) % UInt64.size := by
  have hbase := s.base.toNat_lt
  simp only [UInt64.size] at hj ⊢
  simp only [address, UInt64.toNat_sub, UInt64.toNat_add, Nat.toUInt64_eq, UInt64.toNat_ofNat']
  omega

/-- A write into the stack leaves the bytes below and above it. -/
theorem get_write_apart {m : Memory} {i j : Nat} {bs : List UInt8} (hi : i < UInt32.size)
    (hj : j + bs.length ≤ UInt32.size) (h : i < j ∨ j + bs.length ≤ i) :
    (m.write (s.address j) bs).get (s.address i) = m.get (s.address i) := by
  simp only [UInt32.size] at hi hj
  rw [Memory.get_write _ _ _ _ (by simp only [UInt64.size]; omega)]
  have hdist := s.address_sub (i := i) (j := j) (by simp only [UInt64.size]; omega)
  simp only [UInt64.size] at hdist
  rw [List.getElem?_eq_none (by omega)]
  rfl

theorem length_encode (f : Frame) : f.encode.length = Frame.size := by
  simp [Frame.encode, Bytes.length_littleEndian, Frame.size]

/-- A header is read back as it was written. -/
theorem readFrame_writeFrame (m : Memory) (offset : Nat) (f : Frame) :
    s.readFrame (s.writeFrame m offset f) offset = f := by
  have hword : ∀ (i : Nat) (w : UInt32), i < 5 → (f.encode.drop (4 * i)).take 4 =
    Bytes.littleEndian 4 w.toNat →
      ((s.writeFrame m offset f).load (s.address (offset + 4 * i)) 4).toUInt32 = w := by
    intro i w hi hw
    have hlen := length_encode f
    simp only [Frame.size] at hlen
    have hbound : f.encode.length ≤ UInt64.size := by rw [hlen]; simp [UInt64.size]
    rw [address_add, writeFrame, Memory.load, Memory.read_write _ _ _ hbound _ _ (by omega), hw,
      Bytes.ofLittleEndian_littleEndian]
    apply UInt32.toNat_inj.mp
    have hlt := w.toNat_lt
    simp only [UInt64.toNat_toUInt32, Nat.toUInt64_eq, UInt64.toNat_ofNat']
    omega
  simp only [readFrame]
  rw [hword 0 f.func (by omega) rfl, hword 1 f.base (by omega) rfl, hword 2 f.stackOffset (by omega)
    rfl, hword 3 f.cursor (by omega) rfl, hword 4 f.caller (by omega) rfl]

/-- A header depends on its own bytes only. -/
theorem readFrame_congr {m m' : Memory} {offset : Nat}
    (h : ∀ i, offset ≤ i → i < offset + Frame.size → m.get (s.address i) = m'.get (s.address i)) :
    s.readFrame m offset = s.readFrame m' offset := by
  have hload : ∀ i < 5, m.load (s.address (offset + 4 * i)) 4 =
      m'.load (s.address (offset + 4 * i)) 4 := by
    intro i hi
    apply Memory.load_congr
    intro j hj
    rw [← address_add]
    apply h
    · omega
    · simp only [Frame.size]
      omega
  simp only [readFrame]
  rw [hload 0 (by omega), hload 1 (by omega), hload 2 (by omega), hload 3 (by omega),
    hload 4 (by omega)]

/-- Writing one header leaves those apart from it. -/
theorem readFrame_writeFrame_apart {m : Memory} {i j : Nat} {f : Frame}
    (hi : i + Frame.size ≤ UInt32.size) (hj : j + Frame.size ≤ UInt32.size)
    (h : i + Frame.size ≤ j ∨ j + Frame.size ≤ i) :
    s.readFrame (s.writeFrame m j f) i = s.readFrame m i := by
  apply readFrame_congr
  intro k hlow hhigh
  apply get_write_apart
  · omega
  · rw [length_encode]
    exact hj
  · rw [length_encode]
    omega

end Stack

end Machine

end MicroCompiler
