import MicroCompiler.Text.Blank

/-! Options of the command line. The number of worker threads can be given by an environment
variable and by options, which may stand anywhere among the other arguments; the last one counts. -/

namespace MicroCompiler.Command

structure Options where
  /-- Worker threads, zero for one per processor. -/
  threads : UInt64
  deriving DecidableEq, Repr

namespace Options

/-- The option that gives the number of threads. -/
def threadsOption : String := "--threads"

/-- The environment variable that gives the number of threads. -/
def threadsVariable : String := "C6_THREADS"

inductive Error where
  | missingValue (option : String)
  | invalidValue (option value : String)
  | unknownOption (option : String)
  deriving DecidableEq, Repr

def Error.message : Error → String
  | .missingValue option => s!"missing value for `{option}`"
  | .invalidValue option value => s!"invalid value `{value}` for `{option}`"
  | .unknownOption option => s!"unknown option `{option}`"

private def isDecimal (c : Char) : Bool := '0' ≤ c && c ≤ '9'

/-- The number that decimal digits spell, if there are any and it is below 2^64. -/
def digits? (cs : List Char) : Option UInt64 :=
  if cs.isEmpty || !cs.all isDecimal then none
  else
    let n := cs.foldl (fun n c => 10 * n + (c.toNat - '0'.toNat)) 0
    if n < UInt64.size then some n.toUInt64 else none

/-- Reads a count: digits behind an optional plus sign, with blanks around them. -/
def count? (value : String) : Option UInt64 :=
  match Text.trim value.toList with
  | '+' :: rest => digits? rest
  | cs => digits? cs

def count (option value : String) : Except Error UInt64 :=
  match count? value with
  | some n => .ok n
  | none => .error (.invalidValue option value)

/-- The forms of an argument. -/
inductive Form where
  | threads (value : String)
  /-- The next argument is the number of threads. -/
  | threadsNext
  | unknown
  | positional
  deriving DecidableEq, Repr

def threadsMark : List Char := "--threads=".toList

/-- The form of an argument by its text alone. A single dash is no option. -/
def form (arg : String) : Form :=
  let cs := arg.toList
  if threadsMark.isPrefixOf cs then .threads (String.ofList (cs.drop threadsMark.length))
  else if arg = threadsOption ∨ arg = "-j" then .threadsNext
  else
    match cs with
    | '-' :: _ :: _ => .unknown
    | _ => .positional

/-- Reads arguments one after the other, and returns the options and the positional arguments. -/
def readFrom (options : Options) : List String → Except Error (Options × List String)
  | [] => .ok (options, [])
  | arg :: rest =>
    match form arg with
    | .threads value => do
      let threads ← count threadsOption value
      readFrom ⟨threads⟩ rest
    | .threadsNext =>
      match rest with
      | [] => .error (.missingValue threadsOption)
      | value :: rest => do
        let threads ← count threadsOption value
        readFrom ⟨threads⟩ rest
    | .unknown => .error (.unknownOption arg)
    | .positional => do
      let (options, positional) ← readFrom options rest
      pure (options, arg :: positional)

/-- The options that the environment variable gives. A blank value counts as one that is not set. -/
def ofEnvironment (setting : Option String) : Except Error Options :=
  match setting with
  | none => .ok ⟨0⟩
  | some value =>
    if (Text.trim value.toList).isEmpty then .ok ⟨0⟩ else (count threadsVariable value).map (⟨·⟩)

/-- Splits arguments into options and positional arguments. The environment is read first. -/
def read (args : List String) (setting : Option String) : Except Error (Options × List String) := do
  let options ← ofEnvironment setting
  readFrom options args

end Options

end MicroCompiler.Command
