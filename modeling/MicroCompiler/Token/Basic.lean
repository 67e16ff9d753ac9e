import MicroCompiler.Source.Text
import MicroCompiler.Token.Kind

/-! A token is a kind and the bytes it covers; its text is read off the source. -/

namespace MicroCompiler

structure Token where
  kind : Token.Kind
  span : Span
  deriving DecidableEq, Repr, Inhabited

namespace Token

def text (t : Token) (src : Source) : String := src.text t.span

def render (t : Token) : String := s!"{t.kind.name} @ {t.span.render}"

end Token

end MicroCompiler
