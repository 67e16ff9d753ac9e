import MicroCompiler.Token.Scan

/-! A token cursor that can be rewound. It holds the offset where the next scan starts and at most
one token read ahead. No history is kept: whoever remembers a token can go back to it. -/

namespace MicroCompiler.Token

structure Cursor where
  offset : Nat
  ahead : Option Token
  deriving DecidableEq, Repr

namespace Cursor

def start : Cursor := ⟨0, none⟩

/-- The next token, which stays next. -/
def peek (c : Cursor) (src : Source) : Token × Cursor :=
  match c.ahead with
  | some t => (t, c)
  | none =>
    let t := Token.next src.bytes c.offset
    (t, ⟨t.span.stop, some t⟩)

/-- The next token, which is consumed. -/
def eat (c : Cursor) (src : Source) : Token × Cursor :=
  let (t, c) := c.peek src
  (t, { c with ahead := none })

/-- Makes a token read earlier the next one again. -/
def reset (t : Token) : Cursor := ⟨t.span.stop, some t⟩

/-- The start of the token read ahead, else the offset where the next scan starts. -/
def position (c : Cursor) : Nat := (c.ahead.map (·.span.start)).getD c.offset

end Cursor

end MicroCompiler.Token
