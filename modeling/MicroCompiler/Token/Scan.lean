import MicroCompiler.Token.Basic

/-! The scanner: which token begins the remaining bytes. Blanks and comments are skipped first, then
the first byte decides the class of the lexeme and the longest lexeme of that class is taken.
Scanning depends on the remaining bytes alone, so a reader may go back to any earlier offset. Every
byte string can be scanned, whether or not it is UTF-8. -/

namespace MicroCompiler.Token

/-! ### Byte classes -/

def isBlank (b : UInt8) : Bool := b == 32 || b == 9 || b == 10 || b == 13

def isDigit (b : UInt8) : Bool := 48 ≤ b && b ≤ 57

def isNameStart (b : UInt8) : Bool := (97 ≤ b && b ≤ 122) || (65 ≤ b && b ≤ 90) || b == 95

def isNamePart (b : UInt8) : Bool := isNameStart b || isDigit b

/-- Bytes that continue a UTF-8 character. -/
def isContinuation (b : UInt8) : Bool := b &&& 0xC0 == 0x80

/-- Bytes that may follow a backslash in a string literal: the letters a, b, r, n, t and v, the
backslash, both quotes and the digit zero. -/
def isEscape (b : UInt8) : Bool := [97, 98, 114, 110, 116, 118, 92, 34, 39, 48].contains b

def slashByte : UInt8 := 47
def lineFeedByte : UInt8 := 10
def quoteByte : UInt8 := 34
def backslashByte : UInt8 := 92
def dotByte : UInt8 := 46
def hashByte : UInt8 := 35

/-! ### Gaps between tokens -/

/-- The number of bytes of blanks and comments at the front. A comment is two slashes and all that
follows on the line; the flag tells whether the front lies in one. -/
def gapLength : Bool → List UInt8 → Nat
  | _, [] => 0
  | true, b :: rest => 1 + gapLength (b != lineFeedByte) rest
  | false, b :: rest =>
    if isBlank b then 1 + gapLength false rest
    else if b = slashByte ∧ rest.head? = some slashByte then 1 + gapLength true rest
    else 0

/-! ### Lexemes -/

/-- What begins a byte string: a kind, the bytes before the reported span, and the bytes in it. Only
an unknown escape is reported away from the front, at its backslash. -/
structure Lexeme where
  kind : Kind
  skip : Nat
  length : Nat
  deriving DecidableEq, Repr

/-- The number of bytes of the character at the front. -/
def charLength : List UInt8 → Nat
  | [] => 0
  | _ :: rest => 1 + (rest.takeWhile isContinuation).length

def wordLexeme (bytes : List UInt8) : Lexeme :=
  let word := bytes.takeWhile isNamePart
  ⟨(Kind.keywords.find? (·.spellingBytes == word)).getD .identifier, 0, word.length⟩

/-- A number sign and the name after it; without a name it is an unexpected character. -/
def directiveLexeme (rest : List UInt8) : Lexeme :=
  let name := rest.takeWhile isNamePart
  if name.head?.any isNameStart then
    ⟨(Kind.directives.find? (·.spellingBytes == hashByte :: name)).getD .unknownDirective,
      0, 1 + name.length⟩
  else ⟨.unexpected, 0, 1⟩

/-- Digits, and a fraction if a digit follows the point. -/
def numberLexeme (bytes : List UInt8) : Lexeme :=
  let whole := (bytes.takeWhile isDigit).length
  match bytes.drop whole with
  | point :: rest =>
    let fraction := (rest.takeWhile isDigit).length
    if point = dotByte ∧ fraction ≠ 0 then ⟨.number, 0, whole + 1 + fraction⟩
      else ⟨.number, 0, whole⟩
  | [] => ⟨.number, 0, whole⟩

/-- The string literal of which `read` bytes, the opening quote among them, are behind the front. -/
def stringLexeme (read : Nat) : List UInt8 → Lexeme
  | [] => ⟨.unterminatedString, 0, read⟩
  | b :: rest =>
    if b = quoteByte then ⟨.string, 0, read + 1⟩
    else if b = lineFeedByte then ⟨.newlineInString, 0, read⟩
    else if b = backslashByte then
      match rest with
      | [] => ⟨.unterminatedString, 0, read + 1⟩
      | c :: after =>
        if c = lineFeedByte then ⟨.newlineInString, 0, read + 1⟩
        else if isEscape c then stringLexeme (read + 2) after
        else ⟨.unknownEscape, read, 1 + charLength rest⟩
    else stringLexeme (read + 1) rest

/-- An operator or punctuation mark, else one unexpected character. -/
def symbolLexeme (bytes : List UInt8) : Lexeme :=
  match Kind.symbols.find? (·.spellingBytes.isPrefixOf bytes) with
  | some kind => ⟨kind, 0, kind.spellingBytes.length⟩
  | none => ⟨.unexpected, 0, charLength bytes⟩

/-- The lexeme at the front of bytes that begin with no gap. -/
def lexeme : List UInt8 → Lexeme
  | [] => ⟨.eof, 0, 0⟩
  | b :: rest =>
    if isNameStart b then wordLexeme (b :: rest)
    else if isDigit b then numberLexeme (b :: rest)
    else if b = quoteByte then stringLexeme 1 rest
    else if b = hashByte then directiveLexeme rest
    else symbolLexeme (b :: rest)

/-- The token at or after an offset. At the end of the bytes it is an empty end-of-file token, and
an offset past the end is its own end. -/
def next (bytes : List UInt8) (offset : Nat) : Token :=
  let rest := bytes.drop offset
  let gap := gapLength false rest
  let lex := lexeme (rest.drop gap)
  let start := offset + gap + lex.skip
  ⟨lex.kind, start, start + lex.length⟩

end MicroCompiler.Token
