import Lumen.Command.Task

/-!
# The program

The outer layer: it looks up arguments, environment, files and input lines, and
writes what the command says.
-/

namespace Lumen.Command

/-- What the system says about a file that cannot be read. -/
def systemReason : IO.Error → String
  | .permissionDenied _ _ details => details.capitalize
  | .inappropriateType _ _ details => details.capitalize
  | .resourceExhausted _ _ details => details.capitalize
  | .invalidArgument _ _ details => details.capitalize
  | .otherError _ details => details.capitalize
  | fault => toString fault

def readBytes (path : String) : IO (Except OpenFault (List UInt8)) := do
  try
    let bytes ← IO.FS.readBinFile path
    return .ok bytes.toList
  catch
    | .noFileOrDirectory _ _ _ => return .error .missing
    | fault => return .error (.refused (systemReason fault))

def writeEvents (verbose : Bool) (events : Transcript) : IO Unit := do
  let output ← IO.getStdout
  let errors ← IO.getStderr
  for event in events do
    output.putStr event.output
    errors.putStr (event.errors verbose)
  output.flush
  errors.flush

/-- Answers lines, asking for each; the session is gone once one asks to leave. -/
def answerLive (verbose : Bool) (session : Session) : List String → IO (Option Session)
  | [] => return some session
  | line :: lines => do
      let (events, next) := Repl.answer session line
      writeEvents verbose events
      match next with
      | none => return none
      | some next =>
          writeEvents verbose [.printed Repl.prompt]
          answerLive verbose next lines

/-- Reads and answers lines until one asks to leave or the input ends.  What the
input gives at once may hold several lines. -/
partial def converseLive (verbose : Bool) (session : Session) : IO Unit := do
  let given ← (← IO.getStdin).getLine
  if given.isEmpty then
    writeEvents verbose [.printed ("\n" ++ Repl.farewell)]
  else if let some next ← answerLive verbose session (Text.inputLines given) then
    converseLive verbose next

def statusOf : Ending → UInt32
  | .exit status => status.toUInt32
  | .overflow => 1
  | .impossibleName => 1
  | .missingDepth => 1

def perform (task : Task) : IO UInt32 := do
  match task with
  | .converse settings =>
      writeEvents settings.verbose [.printed Repl.banner, .printed Repl.prompt]
      converseLive settings.verbose (Session.start settings)
      return 0
  | .runScript settings mode path =>
      let outcome := runFile settings mode path (← readBytes path)
      writeEvents settings.verbose outcome.events
      return statusOf outcome.ending
  | task =>
      let outcome := task.outcome [] fun _ => .error .missing
      writeEvents task.verbose outcome.events
      return statusOf outcome.ending

end Lumen.Command

def main (arguments : List String) : IO UInt32 := do
  let depth ← IO.getEnv "LUMEN_MAX_DEPTH"
  let level ← IO.getEnv "LUMEN_LOG_LEVEL"
  Lumen.Command.perform (Lumen.Command.Task.ofArguments depth level arguments)
