import MicroCompiler.Command.Report

/-! The command line: which command runs on which arguments, what is printed, and the exit code. -/

namespace MicroCompiler.Command

/-- What a program leaves behind. -/
structure Answer where
  exit : UInt8
  stdout : String
  stderr : String
  deriving DecidableEq, Repr

def usage : String :=
  "c6 compiler\n\n" ++
  "Usage: c6c <command> [options]\n\n" ++
  "Commands:\n" ++
  "  lex <file.c6>        Tokenize and display tokens\n" ++
  "  parse <file.c6>      Parse and display the syntax tree\n" ++
  "  check <files...>     Parse files in parallel and report errors\n" ++
  "  help                 Show this help message\n" ++
  "  version              Show version information\n\n" ++
  "Options:\n" ++
  "  --threads N, -j N    Worker threads for check\n" ++
  s!"                       (default: ${Options.threadsVariable}, else one per CPU)\n\n" ++
  "Logging:\n" ++
  "  C6_LOG=<filter>      e.g. C6_LOG=c6_parse=debug (falls back to RUST_LOG)\n"

def version : String := "c6c 0.1.0\n"

inductive Verb where
  | lex | parse | check | help | version
  deriving DecidableEq, Repr

def Verb.ofString? : String → Option Verb
  | "lex" => some .lex
  | "parse" => some .parse
  | "check" => some .check
  | "help" | "--help" | "-h" => some .help
  | "version" | "--version" | "-V" => some .version
  | _ => none

/-- What the arguments ask for. -/
inductive Request where
  | lex (path : String)
  | parse (path : String)
  | check (paths : List String)
  /-- The answer needs no file. -/
  | done (answer : Answer)
  deriving DecidableEq, Repr

/-- A command that was given the wrong number of files. -/
def misused (form : String) : Request := .done ⟨1, "", s!"Usage: c6c {form}\n"⟩

def failed (e : Error) : Answer := ⟨2, "", s!"error: {e.message}\n"⟩

/-- Reads the arguments. Options are read before the command is looked at. -/
def request (args : List String) (setting : Option String) : Request :=
  match args with
  | [] => .done ⟨0, usage, ""⟩
  | command :: args =>
    match Options.read args setting with
    | .error e => .done (failed (.options e))
    | .ok (_, paths) =>
      match Verb.ofString? command, paths with
      | some .lex, [path] => .lex path
      | some .lex, _ => misused s!"{command} <file.c6>"
      | some .parse, [path] => .parse path
      | some .parse, _ => misused s!"{command} <file.c6>"
      | some .check, [] => misused "check <files...> [--threads N]"
      | some .check, paths => .check paths
      | some .help, _ => .done ⟨0, usage, ""⟩
      | some .version, _ => .done ⟨0, version, ""⟩
      | none, _ => .done ⟨1, usage, s!"Unknown command: {command}\n\n"⟩

/-- The files that a request reads. -/
def Request.paths : Request → List String
  | .lex path | .parse path => [path]
  | .check paths => paths
  | .done _ => []

def finished : Except Error Report × FileTable → Answer
  | (.error e, _) => failed e
  | (.ok r, _) => ⟨if r.success then 0 else 1, r.output, String.join r.errors⟩

def Request.answer (reader : Reader) : Request → Answer
  | .lex path => finished (Command.lex reader path .empty)
  | .parse path => finished (Command.parse reader path .empty)
  | .check paths => finished (Command.check reader paths .empty)
  | .done answer => answer

end MicroCompiler.Command
