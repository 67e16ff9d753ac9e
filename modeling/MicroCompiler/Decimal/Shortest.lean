/-! The fewest decimal digits that identify a binary floating-point number. The reals that round to
a number form an interval; a decimal in it reads back as the number. Digits are found on grids of
one digit, two digits and so on, by exact comparisons of naturals. -/

namespace MicroCompiler.Decimal

/-- A binary interchange format, by the widths of its two fields below the sign bit. -/
structure Format where
  fractionBits : Nat
  exponentBits : Nat

def single : Format := ⟨23, 8⟩

def double : Format := ⟨52, 11⟩

/-- The magnitude `significand * 2 ^ exponent`. At a power of two the next number below is only half
as far away as the next one above. -/
structure Magnitude where
  significand : Nat
  exponent : Int
  narrowBelow : Bool
  deriving DecidableEq, Repr

inductive Value where
  | nan
  | infinite (negative : Bool)
  | finite (negative : Bool) (magnitude : Magnitude)
  deriving DecidableEq, Repr

/-- Reads the bits of a number. -/
def Format.decode (f : Format) (bits : Nat) : Value :=
  let fraction := bits % Nat.pow 2 f.fractionBits
  let field := bits / Nat.pow 2 f.fractionBits % Nat.pow 2 f.exponentBits
  let negative := bits / Nat.pow 2 (f.fractionBits + f.exponentBits) % 2 == 1
  let bias : Int := Nat.pow 2 (f.exponentBits - 1) - 1 + f.fractionBits
  if field = Nat.pow 2 f.exponentBits - 1 then
    if fraction = 0 then .infinite negative else .nan
  else if field = 0 then .finite negative ⟨fraction, 1 - bias, false⟩
  else
    .finite negative
      ⟨Nat.pow 2 f.fractionBits + fraction, field - bias, fraction == 0 && 1 < field⟩

/-- The decimal `digits * 10 ^ exponent`. -/
structure Digits where
  digits : Nat
  exponent : Int
  deriving DecidableEq, Repr

/-- Compares `a * 10 ^ i` with `n * 2 ^ j`. -/
def compareScaled (a : Nat) (i : Int) (n : Nat) (j : Int) : Ordering :=
  compare (a * Nat.pow 10 i.toNat * Nat.pow 2 (-j).toNat)
    (n * Nat.pow 2 j.toNat * Nat.pow 10 (-i).toNat)

/-- Whether a decimal lies among the reals that round to `x`, ties going to an even significand. -/
def Magnitude.readsBack (x : Magnitude) (d : Digits) : Bool :=
  let low := if x.narrowBelow then 4 * x.significand - 1 else 4 * x.significand - 2
  let high := 4 * x.significand + 2
  let endsCount := x.significand % 2 == 0
  let below := compareScaled d.digits d.exponent low (x.exponent - 2)
  let above := compareScaled d.digits d.exponent high (x.exponent - 2)
  (below == .gt || (endsCount && below == .eq)) && (above == .lt || (endsCount && above == .eq))

def digitCount (n : Nat) : Nat := (Nat.toDigits 10 n).length

/-- The least `k` with `x < 10 ^ k`, for a magnitude that is not zero. -/
def Magnitude.scale (x : Magnitude) : Int :=
  let num := x.significand * Nat.pow 2 x.exponent.toNat
  let den := Nat.pow 2 (-x.exponent).toNat
  if den ≤ num then digitCount (num / den) else 1 - digitCount ((den + num - 1) / num - 1)

/-- The neighbour of `x` with `count` digits that reads back, the nearer of two and the upper one at
equal distance. -/
def Magnitude.onGrid (x : Magnitude) (count : Nat) : Option Digits :=
  let exponent := x.scale - count
  let num := x.significand * Nat.pow 2 x.exponent.toNat * Nat.pow 10 (-exponent).toNat
  let den := Nat.pow 2 (-x.exponent).toNat * Nat.pow 10 exponent.toNat
  let low : Digits := ⟨num / den, exponent⟩
  let high : Digits := ⟨num / den + 1, exponent⟩
  match x.readsBack low, x.readsBack high with
  | true, true => if 2 * (num % den) < den then some low else some high
  | true, false => some low
  | false, true => some high
  | false, false => none

/-- The decimal equal to `x`. -/
def Magnitude.exact (x : Magnitude) : Digits :=
  ⟨x.significand * Nat.pow 2 x.exponent.toNat * Nat.pow 5 (-x.exponent).toNat, min x.exponent 0⟩

/-- Moves trailing zeros into the exponent, at most `steps` of them. -/
def Digits.strip (d : Digits) : Nat → Digits
  | 0 => d
  | steps + 1 => if d.digits % 10 = 0 then strip ⟨d.digits / 10, d.exponent + 1⟩ steps else d

/-- The fewest digits that read back as a magnitude that is not zero, and of those the nearest. -/
def Magnitude.shortest (x : Magnitude) : Digits :=
  let d := ((List.range 17).findSome? fun n => x.onGrid (n + 1)).getD x.exact
  d.strip (digitCount d.digits - 1)

end MicroCompiler.Decimal
