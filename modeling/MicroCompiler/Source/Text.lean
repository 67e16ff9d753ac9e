import MicroCompiler.Source.Span

/-! Source texts as the bytes of their UTF-8 form. Scanning and parsing see bytes only; a piece of
text is decoded when a message or a tree shows it. -/

namespace MicroCompiler

structure Source where
  bytes : List UInt8
  deriving DecidableEq, Repr, Inhabited

namespace Source

def ofString (text : String) : Source := ⟨text.toByteArray.data.toList⟩

def size (src : Source) : Nat := src.bytes.length

/-- The text from byte `start` up to byte `stop`, if that range lies in the source and cuts no
character. -/
def slice? (src : Source) (start stop : Nat) : Option String :=
  if start ≤ stop ∧ stop ≤ src.size then
    String.fromUTF8? ⟨((src.bytes.drop start).take (stop - start)).toArray⟩
  else none

/-- The text a span covers, empty if the span is no slice of the source. -/
def text (src : Source) (s : Span) : String := (src.slice? s.start s.stop).getD ""

/-- The whole source as text, if its bytes are UTF-8. -/
def toString? (src : Source) : Option String := src.slice? 0 src.size

end Source

end MicroCompiler
