import MicroCompiler.Decimal.Shortest

/-! Floating-point numbers as text: the fewest digits that read back, positional from 10^-4 up to
but not including 10^16 and with at least one digit after the point, else with an exponent. -/

namespace MicroCompiler.Decimal

private def zeros (n : Nat) : List Char := List.replicate n '0'

/-- Digits with the point after the first `whole` of them. -/
private def pointed (digits : List Char) (whole : Nat) : List Char :=
  if digits.length ≤ whole then digits ++ zeros (whole - digits.length) ++ ['.', '0']
  else digits.take whole ++ '.' :: digits.drop whole

/-- Lays out a decimal whose digits neither begin nor end with a zero. -/
def Digits.layout (d : Digits) : List Char :=
  let digits := Nat.toDigits 10 d.digits
  let leading := d.exponent + digits.length - 1
  if -4 ≤ leading ∧ leading < 16 then
    if 0 ≤ leading then pointed digits (leading.toNat + 1)
    else '0' :: '.' :: (zeros (-leading - 1).toNat ++ digits)
  else
    let head := match digits with
      | first :: second :: rest => first :: '.' :: second :: rest
      | _ => digits
    head ++ 'e' :: (toString leading).toList

/-- The text of the number with these bits. -/
def Format.text (f : Format) (bits : Nat) : String :=
  match f.decode bits with
  | .nan => "NaN"
  | .infinite negative => if negative then "-inf" else "inf"
  | .finite negative x =>
    let body := if x.significand = 0 then ['0', '.', '0'] else x.shortest.layout
    String.ofList (if negative then '-' :: body else body)

end MicroCompiler.Decimal
