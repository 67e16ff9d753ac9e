import MicroCompiler.Diagnostic.Basic
import MicroCompiler.Token.Scan

/-! The tokens of a whole source, one after the other. -/

namespace MicroCompiler.Token

/-- The tokens from an offset on, through the end-of-file token. Every other token moves the offset
forward, so as many steps as there are bytes left, and one more, reach the end. -/
def scanFrom (bytes : List UInt8) (offset : Nat) : Nat → List Token
  | 0 => []
  | steps + 1 =>
    let t := next bytes offset
    if t.kind = .eof then [t] else t :: scanFrom bytes t.span.stop steps

/-- All tokens from an offset on, error tokens included. -/
def scanAll (bytes : List UInt8) (offset : Nat) : List Token :=
  scanFrom bytes offset (bytes.length - offset + 1)

/-- The tokens of a source, or the report of its first error token. -/
def tokenize (src : Source) : Except Diagnostic (List Token) :=
  (scanAll src.bytes 0).mapM fun t =>
    match Diagnostic.ofToken? t src with
    | some d => .error d
    | none => .ok t

end MicroCompiler.Token
