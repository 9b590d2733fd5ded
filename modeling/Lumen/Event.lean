import Lumen.Diagnostic

/-!
# Events

Everything that a run lets the outside see is a sequence of events.  Printed
text and diagnostics go to different channels; notes are the log lines of the
stages, which only a verbose command shows.
-/

namespace Lumen

/-- What the stages tell the log. -/
inductive Note where
  | scanned (tokens errors : Nat)
  | parsed (statements errors : Nat)
  | skipped
  | defined (name : String) (value : Value)
  deriving DecidableEq

def logLine (channel text : String) : String :=
  "DEBUG lumen." ++ channel ++ ": " ++ text ++ "\n"

def Note.logged : Note → String
  | scanned tokens errors =>
      logLine "lumen_lexer"
        ("scanned " ++ toString tokens ++ " tokens with " ++ toString errors ++ " errors")
  | parsed statements errors =>
      logLine "lumen_parser"
        ("parsed " ++ toString statements ++ " statements with " ++ toString errors ++
          " errors")
  | skipped => logLine "lumen_session" "static errors, skipping evaluation"
  | defined name value =>
      logLine "lumen_interpreter" ("define " ++ name ++ " = " ++ value.logText)

inductive Event where
  /-- Text for the output channel. -/
  | printed (text : String)
  /-- A diagnostic, written as one line to the error channel. -/
  | reported (diagnostic : Diagnostic)
  /-- Text of the command itself for the error channel. -/
  | complained (text : String)
  | noted (note : Note)
  deriving DecidableEq

namespace Event

/-- What an event writes to the output channel. -/
def output : Event → String
  | printed text => text
  | _ => ""

/-- What an event writes to the error channel.  A verbose log announces every
diagnostic before it is written. -/
def errors (verbose : Bool) : Event → String
  | printed _ => ""
  | reported diagnostic =>
      (if verbose then logLine "lumen_errors" ("reporting " ++ diagnostic.describe) else "") ++
        diagnostic.render ++ "\n"
  | complained text => text
  | noted note => if verbose then note.logged else ""

def diagnostic? : Event → Option Diagnostic
  | reported diagnostic => some diagnostic
  | _ => none

end Event

/-- The events of a run in the order in which they happened. -/
abbrev Transcript := List Event

namespace Transcript

def output (transcript : Transcript) : String :=
  String.join (transcript.map Event.output)

def errors (verbose : Bool) (transcript : Transcript) : String :=
  String.join (transcript.map (Event.errors verbose))

def diagnostics (transcript : Transcript) : List Diagnostic :=
  transcript.filterMap Event.diagnostic?

end Transcript

end Lumen
