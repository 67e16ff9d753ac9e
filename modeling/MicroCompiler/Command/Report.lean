import MicroCompiler.Ast.Outline
import MicroCompiler.Command.Options
import MicroCompiler.Command.Reading
import MicroCompiler.Diagnostic.Excerpt
import MicroCompiler.Grammar.File
import MicroCompiler.Source.FileTable
import MicroCompiler.Text.Quoted
import MicroCompiler.Token.Stream

/-! Commands over files. A command reads its files, adds them to the file table and reports: text
for the output, and the diagnostics of the files that are faulty. -/

namespace MicroCompiler.Command

/-- Why a command gives no report. -/
inductive Error where
  | read (path : String) (error : ReadError)
  | options (error : Options.Error)
  deriving DecidableEq, Repr

def Error.message : Error → String
  | .read path e => s!"cannot read `{path}`: {e.message}"
  | .options e => e.message

structure Report where
  output : String
  /-- The diagnostics, at most one for each file. -/
  errors : List String
  deriving DecidableEq, Repr

def Report.success (r : Report) : Bool := r.errors.isEmpty

/-- A command that uses the file table. Files that were read stay in it when the command fails. -/
abbrev Action (α : Type) := FileTable → Except Error α × FileTable

/-- Reads a file and registers it. -/
def load (reader : Reader) (path : String) : Action (Nat × FileEntry) := fun files =>
  match reader path with
  | .error e => (.error (.read path e), files)
  | .ok found =>
    let entry := ⟨path, found.absolute, found.content⟩
    let (index, files) := files.add entry
    (.ok (index, entry), files)

/-- Reads a file and reports on it. -/
def onFile (reader : Reader) (path : String) (report : Nat → FileEntry → Report) : Action Report :=
  fun files =>
  match load reader path files with
  | (.ok (index, entry), files) => (.ok (report index entry), files)
  | (.error e, files) => (.error e, files)

/-- The report on a faulty file. -/
def faulty (entry : FileEntry) (d : Diagnostic) : Report :=
  ⟨"", [d.rendered entry.relative (.ofString entry.content)]⟩

/-- Lists the tokens of a file, one on a line. -/
def tokensReport (_ : Nat) (entry : FileEntry) : Report :=
  let src := Source.ofString entry.content
  match Token.tokenize src with
  | .error d => faulty entry d
  | .ok tokens =>
    let line (t : Token) : String := s!"  {t.render}  {Text.quoted (t.text src)}\n"
    ⟨s!"Tokens for '{entry.relative}' ({tokens.length} tokens):\n" ++ String.join (tokens.map line),
      []⟩

/-- Why a file has no tree, as shown. -/
def failureText (entry : FileEntry) : Grammar.Failure → String
  | .rejected d => d.rendered entry.relative (.ofString entry.content)
  | .broken f => f.message

/-- Shows the tree of a file. -/
def treeReport (index : Nat) (entry : FileEntry) : Report :=
  let src := Source.ofString entry.content
  match Grammar.parseFile src index with
  | .error e => ⟨"", [failureText entry e]⟩
  | .ok parsed =>
    match parsed.pool.outline src parsed.root with
    | .ok outline => ⟨s!"AST for '{entry.relative}' ({parsed.pool.size} nodes):\n" ++ outline, []⟩
    | .error f => ⟨"", [f.message]⟩

def lex (reader : Reader) (path : String) : Action Report := onFile reader path tokensReport

def parse (reader : Reader) (path : String) : Action Report := onFile reader path treeReport

/-- Reads a file and returns its diagnostic, if it has one. -/
def checkFile (reader : Reader) (path : String) : Action (Option String) := fun files =>
  match load reader path files with
  | (.error e, files) => (.error e, files)
  | (.ok (index, entry), files) =>
    match Grammar.parseFile (.ofString entry.content) index with
    | .ok _ => (.ok none, files)
    | .error e => (.ok (some (failureText entry e)), files)

/-- The diagnostics of files in order. All files are read; the first that cannot be read decides. -/
def checkAll (reader : Reader) : List String → Action (List String)
  | [], files => (.ok [], files)
  | path :: rest, files =>
    let (first, files) := checkFile reader path files
    let (others, files) := checkAll reader rest files
    (do
      let error ← first
      let errors ← others
      pure (error.toList ++ errors), files)

/-- Parses files and counts those that are faulty. -/
def check (reader : Reader) (paths : List String) : Action Report := fun files =>
  let (result, files) := checkAll reader paths files
  let report (errors : List String) : Report :=
    let plural := if paths.length = 1 then "" else "s"
    ⟨s!"checked {paths.length} file{plural}: {errors.length} failed\n", errors⟩
  (result.map report, files)

end MicroCompiler.Command
