import MicroCompiler.Bounds
import MicroCompiler.Source.Text

/-! Lines and columns of byte offsets. A line starts at offset zero and after every line feed, so a
trailing line feed opens an empty last line. Lines and columns count from one, and columns count
characters. All of them are 32-bit numbers: one that is too large is cut to the largest. -/

namespace MicroCompiler

/-- The byte offsets at which the lines of a source start, in increasing order. -/
structure Lines where
  starts : List Nat
  deriving DecidableEq, Repr

namespace Lines

/-- The largest 32-bit number. -/
def top : Nat := Span.limit - 1

def clamp (n : Nat) : Nat := min n top

/-- The byte that ends a line. -/
def lineFeed : UInt8 := 10

/-- The offsets after each line feed, when the bytes begin at `offset`. -/
def startsAfter (offset : Nat) : List UInt8 → List Nat
  | [] => []
  | b :: rest =>
    if b = lineFeed then (offset + 1) :: startsAfter (offset + 1) rest
    else startsAfter (offset + 1) rest

def ofSource (src : Source) : Lines := ⟨0 :: (startsAfter 0 src.bytes).map clamp⟩

def count (lines : Lines) : Nat := lines.starts.length

/-- The line that holds `offset`: the last one that starts at or before it. -/
def lineOf (lines : Lines) (offset : Nat) : Nat :=
  clamp (max 1 (lines.starts.takeWhile (· ≤ offset)).length)

/-- The offset at which a line starts. -/
def start? (lines : Lines) (line : Nat) : Option Nat :=
  if line = 0 then none else lines.starts[line - 1]?

/-- The line and column of `offset`. Past the end of the source it is the place just after the last
character; inside a character the bytes up to it are counted. -/
def place (lines : Lines) (src : Source) (offset : Nat) : Except BoundsError (Nat × Nat) := do
  let line := lines.lineOf offset
  let start ← BoundsError.fetch lines.starts.toArray (← BoundsError.minus line 1)
  let stop := min offset src.size
  let bytes ← BoundsError.minus stop start
  pure (line, clamp (((src.slice? start stop).map String.length).getD bytes + 1))

/-- The text of a line without its terminator, empty for a line that does not exist. -/
def text (lines : Lines) (src : Source) (line : Nat) : String :=
  match lines.start? line with
  | none => ""
  | some start =>
    let stop := (lines.start? (line + 1)).getD src.size
    let raw := (src.slice? start stop).getD ""
    String.ofList (raw.toList.reverse.dropWhile fun c => c == '\n' || c == '\r').reverse

end Lines

end MicroCompiler
