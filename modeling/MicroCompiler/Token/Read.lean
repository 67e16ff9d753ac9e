import MicroCompiler.Bounds
import MicroCompiler.Token.Scan

/-! The scanner with its checks. It stands at a position of the byte string and cuts pieces out of
it, which fails where there is no such piece, and it gives a token only if both ends are 32-bit
numbers. A byte that it looks at past the end is zero, which belongs to no class. -/

namespace MicroCompiler

namespace Token

/-- Why there is no token. -/
inductive ScanError where
  | bounds (e : BoundsError)
  | range (e : Span.RangeError)
  | tooLong (size : Nat)
  deriving DecidableEq, Repr

def ScanError.message : ScanError → String
  | .bounds e => e.message
  | .range e => e.message
  | .tooLong size => s!"source of {size} bytes exceeds u32::MAX"

/-! ### Positions -/

def byteAt (bytes : List UInt8) (pos : Nat) : UInt8 := bytes[pos]?.getD 0

theorem lt_of_byteAt_ne {bytes : List UInt8} {pos : Nat} (h : byteAt bytes pos ≠ 0) :
    pos < bytes.length := by
  refine Nat.lt_of_not_le fun hle => h ?_
  rw [byteAt, List.getElem?_eq_none hle, Option.getD_none]

/-- The bytes between two positions. -/
def piece (bytes : List UInt8) (start stop : Nat) : Except BoundsError (List UInt8) :=
  if bytes.length < start then .error (.rangeStart bytes.length start)
  else if bytes.length < stop then .error (.rangeStop bytes.length stop)
  else if stop < start then .error (.reversed start stop)
  else .ok ((bytes.drop start).take (stop - start))

theorem piece_ok {bytes : List UInt8} {start stop : Nat} (h : start ≤ stop)
    (hstop : stop ≤ bytes.length) :
    piece bytes start stop = .ok ((bytes.drop start).take (stop - start)) := by
  rw [piece, if_neg (by omega), if_neg (by omega), if_neg (by omega)]

theorem piece_rest {bytes : List UInt8} {pos : Nat} (h : pos ≤ bytes.length) :
    piece bytes pos bytes.length = .ok (bytes.drop pos) := by
  rw [piece_ok h (Nat.le_refl _), List.take_of_length_le (Nat.le_of_eq List.length_drop)]

/-- Where the bytes of a class end that stand at a position. -/
def runEnd (p : UInt8 → Bool) (bytes : List UInt8) (pos : Nat) : Nat :=
  pos + ((bytes.drop pos).takeWhile p).length

/-- Where the character at a position ends. -/
def charEnd (bytes : List UInt8) (pos : Nat) : Nat := runEnd isContinuation bytes (pos + 1)

/-! ### Tokens -/

/-- Where the gap at a position ends. -/
def gapEnd (bytes : List UInt8) (pos : Nat) : Except BoundsError Nat :=
  if _hblank : isBlank (byteAt bytes pos) then gapEnd bytes (pos + 1)
  else if _hslash : byteAt bytes pos = slashByte ∧ byteAt bytes (pos + 1) = slashByte then
    match _hrest : piece bytes pos bytes.length with
    | .ok rest => gapEnd bytes (pos + (rest.takeWhile (· != lineFeedByte)).length)
    | .error e => .error e
  else .ok pos
termination_by bytes.length - pos
decreasing_by
  · have hlt : pos < bytes.length := lt_of_byteAt_ne
      fun hzero => by simp [hzero, isBlank] at _hblank
    omega
  · have hlt : pos < bytes.length := lt_of_byteAt_ne
      fun hzero => by simp [hzero, slashByte] at _hslash
    rw [piece_rest (Nat.le_of_lt hlt), List.drop_eq_getElem_cons hlt] at _hrest
    have hbyte : bytes[pos] = slashByte := by
      rw [← _hslash.1, byteAt, List.getElem?_eq_getElem hlt, Option.getD_some]
    obtain rfl := Except.ok.inj _hrest
    rw [hbyte, List.takeWhile_cons_of_pos (by decide), List.length_cons]
    omega

def readWord (bytes : List UInt8) (start : Nat) : Except BoundsError Token := do
  let stop := runEnd isNamePart bytes (start + 1)
  let word ← piece bytes start stop
  return ⟨(Kind.keywords.find? (·.spellingBytes == word)).getD .identifier, start, stop⟩

def readDirective (bytes : List UInt8) (start : Nat) : Except BoundsError Token := do
  if isNameStart (byteAt bytes (start + 1)) then
    let stop := runEnd isNamePart bytes (start + 1)
    let name ← piece bytes (start + 1) stop
    return ⟨(Kind.directives.find? (·.spellingBytes == hashByte :: name)).getD .unknownDirective,
      start, stop⟩
  else return ⟨.unexpected, start, start + 1⟩

def readNumber (bytes : List UInt8) (start : Nat) : Token :=
  let whole := runEnd isDigit bytes start
  if byteAt bytes whole = dotByte ∧ isDigit (byteAt bytes (whole + 1)) then
    ⟨.number, start, runEnd isDigit bytes (whole + 1)⟩
  else ⟨.number, start, whole⟩

/-- Bytes of a string literal that need a closer look. -/
def isStringMark (b : UInt8) : Bool := b == quoteByte || b == backslashByte || b == lineFeedByte

/-- The string literal that begins at `start` and is read up to `pos`. -/
def readString (bytes : List UInt8) (start pos : Nat) : Except BoundsError Token := do
  let rest ← piece bytes pos bytes.length
  match rest.findIdx? isStringMark with
  | none => return ⟨.unterminatedString, start, bytes.length⟩
  | some found =>
    let mark ← BoundsError.fetch rest.toArray found
    let stop := pos + found
    if mark = quoteByte then return ⟨.string, start, stop + 1⟩
    else if mark = lineFeedByte then return ⟨.newlineInString, start, stop⟩
    else if _hend : bytes.length ≤ stop + 1 then return ⟨.unterminatedString, start, stop + 1⟩
    else if byteAt bytes (stop + 1) = lineFeedByte then return ⟨.newlineInString, start, stop + 1⟩
    else if isEscape (byteAt bytes (stop + 1)) then readString bytes start (stop + 2)
    else return ⟨.unknownEscape, stop, charEnd bytes (stop + 1)⟩
termination_by bytes.length - pos
decreasing_by omega

def readSymbol (bytes : List UInt8) (start : Nat) : Except BoundsError Token := do
  let rest ← piece bytes (start + 1) bytes.length
  match Kind.symbols.find? (·.spellingBytes.isPrefixOf (byteAt bytes start :: rest)) with
  | some kind => return ⟨kind, start, start + kind.spellingBytes.length⟩
  | none => return ⟨.unexpected, start, charEnd bytes start⟩

/-- The token at a position where no gap begins. -/
def readLexeme (bytes : List UInt8) (pos : Nat) : Except BoundsError Token :=
  let b := byteAt bytes pos
  if bytes.length ≤ pos then return ⟨.eof, pos, pos⟩
  else if isNameStart b then readWord bytes pos
  else if isDigit b then return readNumber bytes pos
  else if b = quoteByte then readString bytes pos (pos + 1)
  else if b = hashByte then readDirective bytes pos
  else readSymbol bytes pos

/-- The token at or after an offset. -/
def read (bytes : List UInt8) (offset : Nat) : Except ScanError Token := do
  let t ← (gapEnd bytes offset >>= readLexeme bytes).mapError .bounds
  let span ← (Span.ofRange t.span.start t.span.stop).mapError .range
  return ⟨t.kind, span⟩

/-- The tokens from an offset on, as far as some steps lead. -/
def readFrom (bytes : List UInt8) (offset : Nat) : Nat → Except ScanError (List Token)
  | 0 => return []
  | steps + 1 => do
    let t ← read bytes offset
    if t.kind = .eof then return [t] else return t :: (← readFrom bytes t.span.stop steps)

/-- All tokens from an offset on, error tokens included. -/
def readAll (bytes : List UInt8) (offset : Nat) : Except ScanError (List Token) :=
  readFrom bytes offset (bytes.length - offset + 1)

end Token

/-- The source, if its offsets are 32-bit numbers. No other is scanned. -/
def Source.sized (src : Source) : Except Token.ScanError Source :=
  if Span.limit ≤ src.size then .error (.tooLong src.size) else .ok src

end MicroCompiler
