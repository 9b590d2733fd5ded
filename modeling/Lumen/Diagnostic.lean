import Lumen.Token

/-!
# Diagnostics

A diagnostic names a line, a message and, where there is one, the token at
fault.  Several diagnostics of one pass travel together as a batch, which
presents itself as its last one.
-/

namespace Lumen

inductive Stage where
  | general | scanning | parsing | running
  deriving DecidableEq, Repr, Inhabited

/-- The name of a stage's diagnostics in dumps. -/
def Stage.name : Stage → String
  | general => "LumenError"
  | scanning => "ScanError"
  | parsing => "ParseError"
  | running => "LumenRuntimeError"

structure Diagnostic where
  stage : Stage
  line : Int
  token : Option Token
  message : String
  deriving DecidableEq, Inhabited

namespace Diagnostic

/-- A diagnostic about a token, on the token's line. -/
def about (stage : Stage) (token : Token) (message : String) : Diagnostic :=
  ⟨stage, token.line, some token, message⟩

/-- Where a message about a token points. -/
def place : Option Token → String
  | none => ""
  | some token =>
      if token.kind = .eof then " at end" else " at '" ++ token.lexeme ++ "'"

def location (diagnostic : Diagnostic) : String :=
  place diagnostic.token

/-- The line that the user sees. -/
def render (diagnostic : Diagnostic) : String :=
  "[line " ++ toString diagnostic.line ++ "] Error" ++ diagnostic.location ++ ": " ++
    diagnostic.message

/-- How log lines and lists name a diagnostic of a given sort. -/
def summary (name : String) (line : Int) (message : String) : String :=
  name ++ "(line=" ++ toString line ++ ", message=" ++ Text.quoted message ++ ")"

def describe (diagnostic : Diagnostic) : String :=
  summary diagnostic.stage.name diagnostic.line diagnostic.message

end Diagnostic

/-- One diagnostic, or a batch of reports that is never empty. -/
inductive Report where
  | single (diagnostic : Diagnostic)
  | batch (earlier : List Report) (last : Report)

namespace Report

/-- The diagnostic that a report presents itself as. -/
def face : Report → Diagnostic
  | single diagnostic => diagnostic
  | batch _ last => last.face

/-- A batch of reports, if there is at least one. -/
def ofList? (reports : List Report) : Option Report :=
  reports.getLast?.map fun last => batch reports.dropLast last

def parts : Report → List Report
  | single _ => []
  | batch earlier last => earlier ++ [last]

def stageName : Report → String
  | single diagnostic => diagnostic.stage.name
  | batch _ _ => "DiagnosticBatch"

mutual

/-- The lines that the user sees for a report. -/
def render : Report → String
  | single diagnostic => diagnostic.render
  | batch earlier last => renderBefore earlier last.render

/-- The lines of some reports in front of a text. -/
def renderBefore : List Report → String → String
  | [], text => text
  | report :: reports, text => report.render ++ "\n" ++ renderBefore reports text

end

mutual

/-- The diagnostics of a report from left to right. -/
def leaves : Report → List Diagnostic
  | single diagnostic => [diagnostic]
  | batch earlier last => leavesOf earlier ++ last.leaves

def leavesOf : List Report → List Diagnostic
  | [] => []
  | report :: reports => report.leaves ++ leavesOf reports

end

def describe (report : Report) : String :=
  Diagnostic.summary report.stageName report.face.line report.face.message

end Report

def emptyBatchMessage : String :=
  "DiagnosticBatch needs at least one error"

end Lumen
