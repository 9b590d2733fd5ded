import Lumen.Evaluation
import Lumen.Event

/-!
# Running statements

A statement that can be evaluated has one effect: it prints, it yields a value,
or it binds a name.  One that cannot be evaluated has none, and the statements
behind it still run.
-/

namespace Lumen

inductive Effect where
  | print (text : String)
  | yield (value : Value)
  | bind (name : String) (value : Value)
  deriving DecidableEq

def Stmt.effect (limits : Limits) (bindings : Bindings) : Stmt → Except RuntimeFault Effect
  | .print value =>
      match value.evaluate limits bindings with
      | .ok result => .ok (.print (result.display ++ "\n"))
      | .error fault => .error fault
  | .expression value =>
      match value.evaluate limits bindings with
      | .ok result => .ok (.yield result)
      | .error fault => .error fault
  | .declare name none => .ok (.bind name.lexeme .nil)
  | .declare name (some value) =>
      match value.evaluate limits bindings with
      | .ok result => .ok (.bind name.lexeme result)
      | .error fault => .error fault

namespace Effect

def events : Effect → Transcript
  | print text => [.printed text]
  | yield _ => []
  | bind name value => [.noted (.defined name value)]

def apply (bindings : Bindings) : Effect → Bindings
  | bind name value => bindings.define name value
  | _ => bindings

/-- The value that an effect leaves for the user to see. -/
def value? : Effect → Option Value
  | yield value => some value
  | _ => none

end Effect

/-- The diagnostic about a statement that failed.  A stack that is exhausted is
blamed on the whole statement; a prefix operator that the language does not have
is no fault of the program, and the run cannot go on. -/
def Stmt.failure (stmt : Stmt) : RuntimeFault → Except Kind Diagnostic
  | .illegal operator => .ok (RuntimeFault.illegalDiagnostic operator)
  | .undefined name => .ok (RuntimeFault.undefinedDiagnostic name)
  | .tooDeep token => .ok (RuntimeFault.tooDeepDiagnostic token)
  | .overflow => .ok (RuntimeFault.tooDeepDiagnostic stmt.firstToken?)
  | .unknownOperator kind => .error kind

/-- What a run of statements starts from and ends with: the bindings, and the
value of the last statement if it was an expression. -/
structure Machine where
  bindings : Bindings
  last : Option Value
  deriving DecidableEq, Inhabited

structure Execution where
  machine : Machine
  events : Transcript
  /-- A prefix operator that the language does not have ended the run. -/
  aborted : Option Kind
  deriving DecidableEq

namespace Machine

def start : Machine := ⟨.empty, none⟩

/-- Runs one statement by itself. -/
def execute (limits : Limits) (machine : Machine) (stmt : Stmt) :
    Except RuntimeFault Transcript × Machine :=
  match stmt.effect limits machine.bindings with
  | .ok effect => (.ok effect.events, ⟨effect.apply machine.bindings, effect.value?⟩)
  | .error fault => (.error fault, ⟨machine.bindings, none⟩)

/-- Runs statements in order. -/
def run (limits : Limits) (machine : Machine) : List Stmt → Execution
  | [] => ⟨machine, [], none⟩
  | stmt :: stmts =>
      match machine.execute limits stmt with
      | (.ok events, next) =>
          let later := run limits next stmts
          { later with events := events ++ later.events }
      | (.error fault, next) =>
          match stmt.failure fault with
          | .error kind => ⟨next, [], some kind⟩
          | .ok diagnostic =>
              let later := run limits next stmts
              { later with events := .reported diagnostic :: later.events }

end Machine

namespace Execution

def failures (execution : Execution) : List Diagnostic :=
  execution.events.diagnostics

def succeeded (execution : Execution) : Bool :=
  execution.failures.isEmpty

end Execution

end Lumen
