import MicroCompiler.Command.Line

/-! The program: reads the files that the arguments name, prints the answer and exits with its
code. -/

namespace MicroCompiler.Command

/-- The number of a system error, which may be given negated. -/
def systemNumber (code : UInt32) : UInt32 := if code < 0x80000000 then code else 0 - code

/-- The cause of a failed read. -/
def ReadError.ofSystem : IO.Error → ReadError
  | .noFileOrDirectory .. => .notFound
  | .permissionDenied .. => .denied
  | .inappropriateType _ code _ => if systemNumber code = 20 then .notDirectory else .isDirectory
  | e@(.invalidArgument _ code _) =>
    if systemNumber code = 36 then .nameTooLong else .other (toString e)
  | e => .other (toString e)

/-- Reads one file. -/
def readPath (path : String) : IO (Except ReadError Found) := do
  try
    let bytes ← IO.FS.readBinFile path
    let absolute ← try (toString <$> IO.FS.realPath path) catch _ => pure path
    return Found.ofBytes absolute bytes
  catch e => return .error (.ofSystem e)

end MicroCompiler.Command

open MicroCompiler.Command in
def main (args : List String) : IO UInt32 := do
  let request := request args (← IO.getEnv Options.threadsVariable)
  let found ← request.paths.mapM fun path => return (path, ← readPath path)
  let answer := request.answer fun path => (found.lookup path).getD (.error .notFound)
  (← IO.getStdout).putStr answer.stdout
  (← IO.getStderr).putStr answer.stderr
  return answer.exit.toUInt32
