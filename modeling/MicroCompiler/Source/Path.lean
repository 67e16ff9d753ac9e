/-! File paths, compared by their components. Repeated and trailing slashes do not count, nor do
components that are a single dot, except one that begins a relative path. -/

namespace MicroCompiler

structure Path where
  absolute : Bool
  components : List String
  deriving DecidableEq, Repr

namespace Path

/-- The pieces of a text between slashes. -/
def pieces (text : String) : List String :=
  (text.toList.splitOn '/').map String.ofList

def ofString (text : String) : Path :=
  match pieces text with
  | [] => ⟨false, []⟩
  | first :: rest =>
    let kept := rest.filter fun c => c ≠ "" ∧ c ≠ "."
    let absolute := text.startsWith "/"
    ⟨absolute, if first = "" then kept else first :: kept⟩

end Path

end MicroCompiler
