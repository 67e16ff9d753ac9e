/-! Half-open byte ranges of a source text. Offsets count bytes of the UTF-8 form. A range read
from outside may be reversed or lie past the text; only `text` of such a range is affected. -/

namespace MicroCompiler

structure Span where
  start : Nat
  stop : Nat
  deriving DecidableEq, Repr, Inhabited

namespace Span

/-- Offsets are 32-bit numbers, so every offset is below this bound. -/
def limit : Nat := 4294967296

/-- Why a range of offsets is no span. -/
inductive RangeError where
  | start (offset : Nat)
  | stop (offset : Nat)
  deriving DecidableEq, Repr

def RangeError.message : RangeError → String
  | .start n => s!"span start {n} exceeds u32::MAX"
  | .stop n => s!"span end {n} exceeds u32::MAX"

/-- The span of a range of offsets. Both ends must be below `limit`, and the start is checked
first. -/
def ofRange (start stop : Nat) : Except RangeError Span :=
  if limit ≤ start then .error (.start start)
  else if limit ≤ stop then .error (.stop stop)
  else .ok ⟨start, stop⟩

/-- The empty span at an offset. -/
def point (offset : Nat) : Span := ⟨offset, offset⟩

def isEmpty (s : Span) : Bool := s.start == s.stop

/-- The number of bytes covered, unless the ends are reversed. -/
def length? (s : Span) : Option Nat := if s.start ≤ s.stop then some (s.stop - s.start) else none

/-- The least span that covers both. -/
def merge (s t : Span) : Span := ⟨min s.start t.start, max s.stop t.stop⟩

/-- The span without its first and last byte, which is what a string literal says. -/
def unquoted (s : Span) : Span := ⟨s.start + 1, s.stop - 1⟩

def render (s : Span) : String := s!"{s.start}..{s.stop}"

end Span

end MicroCompiler
