import MicroCompiler.Diagnostic.Code
import MicroCompiler.Token.Basic

/-! Diagnostics: a code, the place it speaks of, and a message. When several readings of a text
fail, the diagnostic that got furthest into the text is the one worth showing. -/

namespace MicroCompiler

structure Diagnostic where
  code : Diagnostic.Code
  span : Span
  message : String
  deriving DecidableEq, Repr

namespace Diagnostic

/-- The byte offset the diagnostic points at. -/
def offset (d : Diagnostic) : Nat := d.span.start

/-- Keeps the diagnostic that got further into the text. At equal offsets the left one stays, unless
only the right one is lexical. -/
def furthest (d e : Diagnostic) : Diagnostic :=
  if d.offset < e.offset ∨ (e.offset = d.offset ∧ e.code.isLexical ∧ !d.code.isLexical) then e
  else d

/-- What an error token reports. -/
def ofToken? (t : Token) (src : Source) : Option Diagnostic :=
  match t.kind with
  | .unexpected =>
    some ⟨.unexpectedCharacter, t.span, "unexpected character `" ++ t.text src ++ "`"⟩
  | .unterminatedString => some ⟨.unterminatedString, t.span, "unterminated string literal"⟩
  | .newlineInString => some ⟨.newlineInString, t.span, "newline in string literal"⟩
  | .unknownEscape =>
    some ⟨.unknownEscape, t.span, "unknown escape sequence `" ++ t.text src ++ "`"⟩
  | .unknownDirective =>
    some ⟨.unknownDirective, t.span, "unknown directive `" ++ t.text src ++ "`"⟩
  | _ => none

/-- The report that `found` stands where `wanted` should; an error token reports itself instead. -/
def expected (code : Code) (wanted : String) (found : Token) (src : Source) : Diagnostic :=
  (ofToken? found src).getD ⟨code, found.span, s!"expected {wanted}, found {found.kind.describe}"⟩

/-- The one-line form. -/
def summary (d : Diagnostic) : String := s!"error[{d.code.text}] at {d.span.start}: {d.message}"

end Diagnostic

end MicroCompiler
