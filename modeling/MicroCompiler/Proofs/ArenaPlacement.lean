import Mathlib.Order.Bounds.Defs
import MicroCompiler.Proofs.Arena

/-! Where an allocation is placed. Rounding up by masks and checking the end in 64-bit words decide
just what the same arithmetic on numbers decides: a request is granted if its bytes fit behind the
least aligned address, and that address is the answer. Main statement: `alloc_exact`. -/

namespace MicroCompiler.Arena

variable {a a' : Arena} {value align size count address : UInt64}

/-! ### Rounding up -/

/-- No step of rounding up wraps. -/
structure Unwrapped (value align : UInt64) : Prop where
  sum : (value + align).toNat = value.toNat + align.toNat
  last : (value + align - 1).toNat + 1 = value.toNat + align.toNat
  mask : (align - 1).toNat + 1 = align.toNat

theorem unwrapped (halign : isPowerOfTwo align = true) (hsum : value.toNat + align.toNat < 2 ^ 64) :
    Unwrapped value align := by
  obtain ⟨k, hk⟩ := isPowerOfTwo_iff.mp halign
  have hpos : 0 < align.toNat := hk ▸ Nat.two_pow_pos k
  have hadd : (value + align).toNat = value.toNat + align.toNat := by
    rw [UInt64.toNat_add, Nat.mod_eq_of_lt hsum]
  refine ⟨hadd, ?_, ?_⟩
  · rw [UInt64.toNat_sub_of_le _ _ (one_le_of_pos (by omega)), UInt64.toNat_one, hadd]
    omega
  · rw [UInt64.toNat_sub_of_le _ _ (one_le_of_pos hpos), UInt64.toNat_one]
    omega

theorem alignUp_isLeast (halign : isPowerOfTwo align = true)
    (hsum : value.toNat + align.toNat < 2 ^ 64) :
    IsLeast {n | align.toNat ∣ n ∧ value.toNat ≤ n} (alignUp value align).toNat := by
  obtain ⟨k, hk⟩ := isPowerOfTwo_iff.mp halign
  have hpos : 0 < align.toNat := hk ▸ Nat.two_pow_pos k
  obtain ⟨hdvd, hle⟩ := alignUp_spec halign hsum
  refine ⟨⟨hdvd, UInt64.le_iff_toNat_le.mp hle⟩, ?_⟩
  rintro n ⟨⟨q, rfl⟩, hn⟩
  -- The quotient is at most `q`, since the sum stays below the next multiple.
  have hquotient : (value.toNat + align.toNat - 1) / align.toNat < q + 1 := by
    rw [Nat.div_lt_iff_lt_mul hpos, Nat.mul_comm, Nat.mul_succ]
    omega
  rw [toNat_alignUp halign hsum, Nat.mul_comm]
  exact Nat.mul_le_mul_left _ (Nat.le_of_lt_succ hquotient)

/-! ### Requests that are granted -/

theorem alloc_of_not_isPowerOfTwo (h : isPowerOfTwo align = false) (a : Arena)
    (size count : UInt64) : alloc size align count a = .error (.alignment align) a := by
  rw [alloc_eq, if_neg (by simp [h])]

/-- The checks of a request in words. -/
theorem alloc_isOk_iff (halign : isPowerOfTwo align = true) :
    (∃ address a', alloc size align count a = .ok address a') ↔
      size.toNat * count.toNat < UInt64.size ∧
        (alignUp (a.base + a.used) align - a.base).toNat + (size * count).toNat < UInt64.size ∧
        alignUp (a.base + a.used) align - a.base + size * count ≤ a.capacity := by
  constructor
  · rintro ⟨address, a', hrun⟩
    obtain ⟨-, hproduct, start, rfl, hsum, hroom, -, -⟩ := alloc_eq_ok hrun
    exact ⟨hproduct, hsum, hroom⟩
  · rintro ⟨hproduct, hsum, hroom⟩
    rw [alloc_eq, if_pos halign, if_pos hproduct]
    exact ⟨_, _, if_pos ⟨hsum, hroom⟩⟩

/-- The checks of a request in numbers. -/
theorem Fits.alloc_isOk_iff (h : a.Fits) (halign : isPowerOfTwo align = true) :
    (∃ address a', Arena.alloc size align count a = .ok address a') ↔
      size.toNat * count.toNat ≤ 2 ^ 64 - 1 ∧
        (alignUp (a.base + a.used) align).toNat + size.toNat * count.toNat ≤
        a.base.toNat + a.capacity.toNat := by
  obtain ⟨-, -, hnext⟩ := h.next halign
  have hbuffer := h.buffer
  have hsize : UInt64.size = 2 ^ 64 := rfl
  rw [Arena.alloc_isOk_iff halign, UInt64.le_iff_toNat_le, UInt64.toNat_add,
    UInt64.toNat_mul, hsize]
  constructor
  · rintro ⟨hproduct, hsum, hroom⟩
    rw [Nat.mod_eq_of_lt hproduct] at hsum hroom
    rw [Nat.mod_eq_of_lt hsum] at hroom
    omega
  · rintro ⟨hproduct, hroom⟩
    have hlt : size.toNat * count.toNat < 2 ^ 64 := by omega
    rw [Nat.mod_eq_of_lt hlt, Nat.mod_eq_of_lt (by omega)]
    omega

/-- How much is in use after a request that is granted. -/
theorem Fits.alloc_used (h : a.Fits) (hrun : Arena.alloc size align count a = .ok address a') :
    a'.base = a.base ∧ a'.capacity = a.capacity ∧
      (a'.used.toNat : ℤ) = if size.toNat * count.toNat = 0 then (a.used.toNat : ℤ)
        else address.toNat - a.base.toNat + size.toNat * count.toNat := by
  obtain ⟨-, -, -, hbase, hcapacity, hfront⟩ := h.alloc hrun
  refine ⟨hbase, hcapacity, ?_⟩
  rw [front, hbase, front] at hfront
  split_ifs at hfront ⊢ <;> omega

/-- Requests against the arithmetic of numbers. For an alignment that is a power of two, rounding up
an address of the buffer wraps nowhere and gives the least multiple from that address on. A request
is granted exactly if its size is a 64-bit number and the bytes from the least aligned address
behind those in use end in the buffer; then that address is returned and all up to the end is in
use, or as much as before if nothing was asked for. Every other alignment, zero included, is
refused. -/
theorem alloc_exact {a : Arena} (h : a.Fits) (size align count : UInt64) :
    (∀ k, align.toNat = 2 ^ k →
      (∀ value : UInt64, value.toNat ≤ a.base.toNat + a.capacity.toNat →
        Unwrapped value align ∧ IsLeast {n | align.toNat ∣ n ∧ value.toNat ≤ n}
        (alignUp value align).toNat) ∧
      ∃ least, IsLeast {n | align.toNat ∣ n ∧ a.base.toNat + a.used.toNat ≤ n} least ∧
        ((∃ address a', alloc size align count a = .ok address a') ↔ size.toNat * count.toNat ≤
          2 ^ 64 - 1 ∧ (least : ℤ) - a.base.toNat + size.toNat * count.toNat ≤ a.capacity.toNat) ∧
        ∀ address a', alloc size align count a = .ok address a' →
          address.toNat = least ∧ a'.base = a.base ∧ a'.capacity = a.capacity ∧
            (a'.used.toNat : ℤ) = if size.toNat * count.toNat = 0 then (a.used.toNat : ℤ)
              else least - a.base.toNat + size.toNat * count.toNat) ∧
    ((∀ k, align.toNat ≠ 2 ^ k) → alloc size align count a = .error (.alignment align) a) := by
  constructor
  · intro k hk
    have halign : isPowerOfTwo align = true := isPowerOfTwo_iff.mpr ⟨k, hk⟩
    have hleast := alignUp_isLeast halign (h.sum_lt halign h.front_le)
    rw [h.toNat_front] at hleast
    refine ⟨fun value hvalue => ?_, _, hleast, ?_, ?_⟩
    · have hsum := h.sum_lt halign hvalue
      exact ⟨unwrapped halign hsum, alignUp_isLeast halign hsum⟩
    · rw [h.alloc_isOk_iff halign]
      omega
    · intro address a' hrun
      obtain rfl := alloc_address hrun
      exact ⟨rfl, h.alloc_used hrun⟩
  · intro hnone
    apply alloc_of_not_isPowerOfTwo
    rw [Bool.eq_false_iff, ne_eq, isPowerOfTwo_iff]
    rintro ⟨k, hk⟩
    exact hnone k hk

/-- A buffer at an odd address. -/
def oddArena : Arena := ⟨4097, 64, 3⟩

/-- Twelve bytes are placed behind padding; the largest alignment leaves no room for one byte, and
zero is no alignment. -/
theorem alloc_exact_oddArena :
    oddArena.Fits ∧ alloc 6 8 2 oddArena = .ok 4104 ⟨4097, 64, 19⟩ ∧
      IsLeast {n | (8 : UInt64).toNat ∣ n ∧ oddArena.base.toNat + oddArena.used.toNat ≤ n} 4104 ∧
      (¬ ∃ address a', alloc 1 0x8000000000000000 1 oddArena = .ok address a') ∧
      alloc 1 0 1 oddArena = .error (.alignment 0) oddArena := by
  have hfits : oddArena.Fits := ⟨by decide, by decide⟩
  have hrun : alloc 6 8 2 oddArena = .ok 4104 ⟨4097, 64, 19⟩ := rfl
  obtain ⟨-, least, hleast, -, hgranted⟩ := (alloc_exact hfits 6 8 2).1 3 (by decide)
  obtain rfl : 4104 = least := (hgranted 4104 ⟨4097, 64, 19⟩ hrun).1
  refine ⟨hfits, hrun, hleast, ?_, ?_⟩
  · obtain ⟨-, far, ⟨⟨hdvd, hle⟩, -⟩, hgranted, -⟩ := (alloc_exact hfits 1 0x8000000000000000 1).1
      63 (by decide)
    have hfront : oddArena.base.toNat + oddArena.used.toNat = 4100 := by decide
    have hbase : oddArena.base.toNat = 4097 := by decide
    have hcapacity : oddArena.capacity.toNat = 64 := by decide
    have hfar : 0x8000000000000000 ≤ far := Nat.le_of_dvd (by omega) hdvd
    rw [hgranted]
    omega
  · exact (alloc_exact hfits 1 0 1).2 fun k hk => Nat.ne_of_gt (Nat.two_pow_pos k) hk.symm

end MicroCompiler.Arena
