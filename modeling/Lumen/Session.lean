import Lumen.Execution
import Lumen.Grammar.Program
import Lumen.Reporter
import Lumen.Scan
import Lumen.Settings

/-!
# Sessions

A session keeps bindings from run to run.  A run scans and reads its whole
source first; nothing is evaluated unless both stages find no mistake.
-/

namespace Lumen

inductive Status where
  | ok | staticError | runtimeError
  deriving DecidableEq, Repr, Inhabited

def Status.name : Status → String
  | ok => "OK"
  | staticError => "STATIC_ERROR"
  | runtimeError => "RUNTIME_ERROR"

structure Session where
  settings : Settings
  machine : Machine
  reporter : Reporter
  deriving DecidableEq

/-- What scanning and reading a source gives. -/
structure Analysis where
  scan : Scan
  program : Program
  deriving DecidableEq

namespace Analysis

def ofSource (limits : Limits) (source : String) : Analysis :=
  let scan := Scan.ofSource source
  ⟨scan, Program.ofTokens limits scan.tokens⟩

/-- Every mistake in the source, those of scanning first. -/
def errors (analysis : Analysis) : List Diagnostic :=
  analysis.scan.errors ++ analysis.program.errors

end Analysis

def Scan.events (scan : Scan) : Transcript :=
  scan.errors.map Event.reported ++ [.noted (.scanned scan.tokens.length scan.errors.length)]

def Program.events (program : Program) : Transcript :=
  program.errors.map Event.reported ++
    [.noted (.parsed program.statements.length program.errors.length)]

namespace Session

def start (settings : Settings) : Session where
  settings := settings
  machine := .start
  reporter := .fresh

def limits (session : Session) : Limits :=
  .standard session.settings.maxDepth

def tokens (session : Session) (source : String) : List Token × Transcript × Session :=
  let scan := Scan.ofSource source
  (scan.tokens, scan.events,
    { session with reporter := session.reporter.recordAll scan.errors })

/-- Scans and reads a source; there are no statements if either stage finds a
mistake. -/
def statements (session : Session) (source : String) :
    Option (List Stmt) × Transcript × Session :=
  let analysis := Analysis.ofSource session.limits source
  (if analysis.errors.isEmpty then some analysis.program.statements else none,
    analysis.scan.events ++ analysis.program.events,
    { session with reporter := session.reporter.recordAll analysis.errors })

def run (session : Session) (source : String) : Status × Transcript × Session :=
  let cleared := { session with
    machine := { session.machine with last := none }
    reporter := .fresh }
  match cleared.statements source with
  | (none, events, next) => (.staticError, events ++ [.noted .skipped], next)
  | (some stmts, events, next) =>
      let execution := next.machine.run next.limits stmts
      (if execution.succeeded then .ok else .runtimeError, events ++ execution.events,
        { next with
          machine := execution.machine
          reporter := next.reporter.recordAll execution.failures })

end Session

end Lumen
