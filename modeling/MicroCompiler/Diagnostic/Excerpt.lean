import MicroCompiler.Diagnostic.Basic
import MicroCompiler.Source.Lines

/-! Diagnostics drawn under the line they speak of. The gutter is as wide as the line number, the
caret row keeps the tabs of the line above it, and the carets are clipped to that line. -/

namespace MicroCompiler.Diagnostic

/-- Blanks that put the next character under column `column`, with tabs where the line has tabs. -/
def padding (line : String) (column : Nat) : Except BoundsError String := do
  let before ← BoundsError.minus column 1
  pure (String.ofList ((line.toList.take before).map fun c => if c = '\t' then '\t' else ' '))

/-- The number of carets: the characters of the span up to the end of the line, at least one. -/
def caretCount (src : Source) (s : Span) (line : String) (column : Nat) :
    Except BoundsError Nat := do
  let remaining := line.length - (← BoundsError.minus column 1)
  let covered := (src.text s).toList.takeWhile (· ≠ '\n')
  pure (max 1 (min covered.length remaining))

/-- The rows of an excerpt: the message, the place, the line and, under it, the carets. -/
def drawn (d : Diagnostic) (path : String) (line column : Nat) (text blanks : String)
    (count : Nat) : String :=
  let gutter := String.ofList (List.replicate (toString line).length ' ')
  let carets := String.ofList (List.replicate count '^')
  s!"error[{d.code.text}]: {d.message}\n" ++
    s!"{gutter}--> {path}:{line}:{column}\n" ++
    s!"{gutter} |\n" ++
    s!"{line} | {text}\n" ++
    s!"{gutter} | {blanks}{carets}\n"

/-- The diagnostic with the line it points at and carets under the place. -/
def excerpt (d : Diagnostic) (path : String) (src : Source) : Except BoundsError String := do
  let lines := Lines.ofSource src
  let place ← lines.place src d.span.start
  let text := lines.text src place.1
  let count ← caretCount src d.span text place.2
  let blanks ← padding text place.2
  pure (d.drawn path place.1 place.2 text blanks count)

/-- The excerpt, or why there is none. -/
def rendered (d : Diagnostic) (path : String) (src : Source) : String :=
  match d.excerpt path src with
  | .ok text => text
  | .error e => e.message

end MicroCompiler.Diagnostic
