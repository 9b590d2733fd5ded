import Lumen.Session
import Lumen.Text.Newline
import Lumen.Text.Utf8
import Lumen.Tree.Render

/-!
# Running a script

A script is scanned, read or run, whatever the mode asks for, and ends with the
exit status that belongs to the outcome.
-/

namespace Lumen.Command

/-- What is done with a script. -/
inductive Mode where
  | tokens | tree | evaluate
  deriving DecidableEq, Repr

inductive Ending where
  | exit (status : Nat)
  /-- A tree that nests too deeply cannot be shown. -/
  | overflow
  /-- No file can have the name that was given. -/
  | impossibleName
  /-- No limit can be made of a depth option without value. -/
  | missingDepth
  deriving DecidableEq, Repr

def exitOk : Nat := 0
def exitUsage : Nat := 64
def exitData : Nat := 65
def exitNoInput : Nat := 66
def exitSoftware : Nat := 70

/-- The exit status that belongs to the outcome of a run. -/
def exitStatus : Status → Nat
  | .ok => exitOk
  | .staticError => exitData
  | .runtimeError => exitSoftware

structure Outcome where
  ending : Ending
  events : Transcript
  deriving DecidableEq

/-- Shows statements one a line, up to the first that cannot be shown. -/
def showStatements (stack : Option Nat) : List Stmt → Outcome
  | [] => ⟨.exit exitOk, []⟩
  | stmt :: stmts =>
      match stmt.render stack with
      | none => ⟨.overflow, []⟩
      | some text =>
          let later := showStatements stack stmts
          { later with events := .printed (text ++ "\n") :: later.events }

/-- Runs a source in a fresh session. -/
def runSource (settings : Settings) (mode : Mode) (source : String) : Outcome :=
  let session := Session.start settings
  match mode with
  | .tokens =>
      let (tokens, events, next) := session.tokens source
      ⟨.exit (if next.reporter.hadError then exitData else exitOk),
        events ++ tokens.map fun token => .printed (token.dump ++ "\n")⟩
  | .tree =>
      match session.statements source with
      | (none, events, _) => ⟨.exit exitData, events⟩
      | (some stmts, events, next) =>
          let shown := showStatements next.limits.stack stmts
          { shown with events := events ++ shown.events }
  | .evaluate =>
      let (status, events, _) := session.run source
      ⟨.exit (exitStatus status), events⟩

/-- Why a file cannot be read. -/
inductive OpenFault where
  | missing
  | refused (reason : String)
  | impossibleName
  deriving DecidableEq, Repr

def complain (text : String) : Transcript :=
  [.complained ("lumen: " ++ text ++ "\n")]

/-- Runs the file with the given name, whose bytes were looked up. -/
def runFile (settings : Settings) (mode : Mode) (name : String)
    (content : Except OpenFault (List UInt8)) : Outcome :=
  match content with
  | .error .missing =>
      ⟨.exit exitNoInput, complain ("cannot open " ++ Text.quoted name ++ ": no such file")⟩
  | .error (.refused reason) =>
      ⟨.exit exitNoInput, complain ("cannot open " ++ Text.quoted name ++ ": " ++ reason)⟩
  | .error .impossibleName => ⟨.impossibleName, []⟩
  | .ok bytes =>
      match Text.decodeUtf8 bytes with
      | .error fault =>
          ⟨.exit exitData,
            complain (Text.quoted name ++ " is not valid UTF-8: " ++ fault.reason)⟩
      | .ok source =>
          runSource settings mode (String.ofList (Text.unifyLineEnds source))

end Lumen.Command
