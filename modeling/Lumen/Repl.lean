import Lumen.Session
import Lumen.Text.Blank

/-!
# The interactive loop

Every line runs in one session.  When a line ran well and its last statement
was an expression, the value is echoed.  Two words leave the loop, and one
command lists the bindings.
-/

namespace Lumen

namespace Repl

def banner : String :=
  "Lumen REPL. Type 'exit' or 'quit' to leave.\n"

def prompt : String :=
  ">>> "

def farewell : String :=
  "Exiting Lumen REPL.\n"

inductive Request where
  | nothing
  | leave
  | listBindings
  | run (source : String)
  deriving DecidableEq, Repr

/-- The request of a line.  Commands may stand among blanks; a source keeps
them. -/
def request (line : String) : Request :=
  let word := Text.strip line
  if word = "" then .nothing
  else if word = "exit" ∨ word = "quit" then .leave
  else if word = ":env" then .listBindings
  else .run line

def listing (bindings : Bindings) : String :=
  if bindings.entries.isEmpty then "(no bindings)\n"
  else
    String.join (bindings.entries.map fun entry =>
      entry.1 ++ " = " ++ entry.2.display ++ "\n")

def echo (status : Status) (last : Option Value) : Transcript :=
  match status, last with
  | .ok, some value => [.printed (value.display ++ "\n")]
  | _, _ => []

/-- Answers a line; the session is gone once the line asks to leave. -/
def answer (session : Session) (line : String) : Transcript × Option Session :=
  match request line with
  | .nothing => ([], some session)
  | .leave => ([.printed farewell], none)
  | .listBindings => ([.printed (listing session.machine.bindings)], some session)
  | .run source =>
      let (status, events, next) := session.run source
      (events ++ echo status next.machine.last, some next)

/-- Answers lines until one asks to leave or the input ends. -/
def converse (session : Session) : List String → Transcript
  | [] => [.printed prompt, .printed ("\n" ++ farewell)]
  | line :: lines =>
      match answer session line with
      | (events, none) => .printed prompt :: events
      | (events, some next) => .printed prompt :: events ++ converse next lines

def transcript (settings : Settings) (lines : List String) : Transcript :=
  .printed banner :: converse (Session.start settings) lines

end Repl

end Lumen
