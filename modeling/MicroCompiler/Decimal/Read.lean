/-! The number at the beginning of a text, as a double. Blanks and a sign may stand in front; then
come decimal or hexadecimal digits with a point and an exponent, or a word for infinity or NaN; a
NaN may name its payload in parentheses. What follows the number is not read, and a text without a
number counts as zero. -/

namespace MicroCompiler.Decimal

/-- Digits before and after the point, as one number and the count of places after it. -/
structure Mantissa where
  value : Nat
  places : Nat
  /-- How many digits were read. -/
  digits : Nat
  rest : List Char

def digitValue? (base : Nat) (c : Char) : Option Nat :=
  let v :=
    if '0' ≤ c ∧ c ≤ '9' then c.toNat - '0'.toNat
    else if 'a' ≤ c.toLower ∧ c.toLower ≤ 'f' then c.toLower.toNat - 'a'.toNat + 10
    else base
  if v < base then some v else none

private def isDigitIn (base : Nat) (c : Char) : Bool := (digitValue? base c).isSome

private def spelled (base : Nat) (cs : List Char) : Nat :=
  cs.foldl (fun n c => base * n + (digitValue? base c).getD 0) 0

def readMantissa (base : Nat) (cs : List Char) : Mantissa :=
  let whole := cs.takeWhile (isDigitIn base)
  match cs.dropWhile (isDigitIn base) with
  | '.' :: more =>
    let places := more.takeWhile (isDigitIn base)
    ⟨spelled base (whole ++ places), places.length, whole.length + places.length,
    more.dropWhile (isDigitIn base)⟩
  | rest => ⟨spelled base whole, 0, whole.length, rest⟩

/-- The exponent behind its mark, zero if there is none. -/
def readExponent (mark : Char) : List Char → Int
  | c :: rest =>
    if c.toLower = mark then
      let magnitude (cs : List Char) : Int := spelled 10 (cs.takeWhile (isDigitIn 10))
      match rest with
      | '-' :: cs => - magnitude cs
      | '+' :: cs => magnitude cs
      | cs => magnitude cs
    else 0
  | [] => 0

/-- `value * 10 ^ exponent`, rounded to nearest. Exponents beyond the range of doubles are decided
at once. -/
def scaled (value : Nat) (exponent : Int) : Float :=
  let magnitude : Int := (Nat.toDigits 10 value).length + exponent
  if value = 0 ∨ magnitude < -400 then 0
  else if 400 < magnitude then 1 / 0
  else if 0 ≤ exponent then Float.ofScientific (value * Nat.pow 10 exponent.toNat) true 0
  else Float.ofScientific value true (-exponent).toNat

/-- `value * 2 ^ exponent`, rounded to nearest: negative powers of two are decimals too. -/
def scaledBinary (value : Nat) (exponent : Int) : Float :=
  let magnitude : Int := (Nat.log2 value : Int) + exponent
  if value = 0 ∨ magnitude < -1200 then 0
  else if 1200 < magnitude then 1 / 0
  else if 0 ≤ exponent then Float.ofScientific (value * Nat.pow 2 exponent.toNat) true 0
  else Float.ofScientific (value * Nat.pow 5 (-exponent).toNat) true (-exponent).toNat

private def startsWord (word : String) (cs : List Char) : Bool :=
  (cs.take word.length).map Char.toLower == word.toList

private def isWordChar (c : Char) : Bool := c.isAlphanum || c = '_'

/-- A word that is a whole number: hexadecimal behind `0x`, octal behind another zero, else
decimal. -/
def wholeNumber? (word : List Char) : Option Nat :=
  let number (base : Nat) (cs : List Char) : Option Nat :=
    if cs.all (isDigitIn base) then some (spelled base cs) else none
  if startsWord "0x" word then number 16 (word.drop 2)
  else if startsWord "0" word then number 8 word
  else number 10 word

/-- The payload that a word in parentheses gives a NaN: a whole number, the greatest 64-bit word at
most, of which the 51 low bits stay. Any other text gives none. -/
def readPayload : List Char → UInt64
  | '(' :: cs =>
    if (cs.dropWhile isWordChar).head? = some ')' then
      let number := (wholeNumber? (cs.takeWhile isWordChar)).getD 0
      (min number (UInt64.size - 1)).toUInt64 &&& 0x7ffffffffffff
    else 0
  | _ => 0

/-- The bits of the magnitude at the beginning of a text without blanks and sign, if a number begins
it. A hexadecimal mark without digits behind it is a zero and more text. -/
def readMagnitude? (cs : List Char) : Option UInt64 :=
  if startsWord "inf" cs then some 0x7ff0000000000000
  else if startsWord "nan" cs then some ((0x7ff8000000000000 : UInt64) ||| readPayload (cs.drop 3))
  else if startsWord "0x" cs then
    let m := readMantissa 16 (cs.drop 2)
    let exponent := readExponent 'p' m.rest - 4 * m.places
    some (if m.digits = 0 then 0 else (scaledBinary m.value exponent).toBits)
  else
    let m := readMantissa 10 cs
    if m.digits = 0 then none else some (scaled m.value (readExponent 'e' m.rest - m.places)).toBits

/-- The bits of the number at the beginning of a text. -/
def readDouble (cs : List Char) : UInt64 :=
  let bits (cs : List Char) (sign : UInt64) : UInt64 :=
    ((readMagnitude? cs).map (· ||| sign)).getD 0
  match cs.dropWhile fun c => c = ' ' ∨ ('\t' ≤ c ∧ c ≤ '\r') with
  | '-' :: rest => bits rest 0x8000000000000000
  | '+' :: rest => bits rest 0
  | rest => bits rest 0

end MicroCompiler.Decimal
