/-! Escape sequences of string literals. A backslash and one of ten characters stand for a character
that is awkward to write; every other character stands for itself. -/

namespace MicroCompiler.Token.Escape

/-- The character that an escape of `c` stands for. -/
def meaning? : Char → Option Char
  | 'a' => some '\x07'
  | 'b' => some '\x08'
  | 'r' => some '\r'
  | 'n' => some '\n'
  | 't' => some '\t'
  | 'v' => some '\x0b'
  | '\\' => some '\\'
  | '"' => some '"'
  | '\'' => some '\''
  | '0' => some '\x00'
  | _ => none

/-- The byte offset of a backslash that begins no escape, and the character after it. A backslash at
the very end is reported as followed by itself. -/
structure Error where
  offset : Nat
  found : Char
  deriving DecidableEq, Repr

def Error.message (e : Error) : String :=
  "unknown escape sequence `\\" ++ e.found.toString ++ s!"` at byte {e.offset}"

/-- Replaces the escapes of characters that begin at byte `offset`. -/
def decodeFrom (offset : Nat) : List Char → Except Error (List Char)
  | [] => .ok []
  | c :: rest =>
    if c = '\\' then
      match rest with
      | [] => .error ⟨offset, '\\'⟩
      | found :: after =>
        match meaning? found with
        | none => .error ⟨offset, found⟩
        | some meant => (decodeFrom (offset + 1 + found.utf8Size) after).map (meant :: ·)
    else (decodeFrom (offset + c.utf8Size) rest).map (c :: ·)

/-- Replaces the escapes in the contents of a string literal, quotes excluded. -/
def decode (raw : String) : Except Error String := (decodeFrom 0 raw.toList).map String.ofList

/-- Whether the text holds no backslash, so that decoding changes nothing. -/
def isPlain (raw : String) : Bool := !raw.toList.contains '\\'

end MicroCompiler.Token.Escape
