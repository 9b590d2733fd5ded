import Lumen.Proofs.ProgramPosition
import Lumen.Proofs.Reporting
import Lumen.Proofs.Variants

/-!
# Calls come to their end

Each call of a session is taken here step by step, and each step with all that
could keep it from coming to its end: the cursor reads behind the source, a
token is asked for where there is none, the stack is exhausted, a prefix
operator has no meaning, or a statement gets the mark of an undefined operation
as a value.  Whatever calls came before, none of this happens.  The literals of
a source are values of the language and operators that are not defined are
reported at once, so the mark is never bound, kept or shown.
-/

namespace Lumen

/-! ## Literals of a source -/

/-- The shape carries no mark of an undefined operation. -/
def Shape.Proper : Shape → Prop
  | .token _ literal => literal ≠ some .invalid
  | _ => True

/-- No piece of a source carries the mark of an undefined operation. -/
theorem Scan.proper_classify (first : Char) (rest : List Char) :
    (Scan.classify first rest).1.Proper := by
  have hword : ∀ kind, wordLiteral kind ≠ some .invalid := by
    intro kind
    cases kind <;> simp [wordLiteral]
  fun_cases classify first rest with
  | case1 => trivial
  | case2 => simp [Shape.Proper]
  | case3 =>
      unfold classifySlash
      split
      · trivial
      · split <;> trivial
      · simp [Shape.Proper]
  | case4 => simp [Shape.Proper]
  | case5 =>
      unfold classifyString
      simp only
      split
      · simp [Shape.Proper]
      · trivial
  | case6 => simp [classifyNumber, Shape.Proper, numberValue]
  | case7 => exact hword _
  | case8 => trivial

theorem Scan.proper_pieces (line : Int) (text : List Char) :
    ∀ piece ∈ Scan.pieces line text, piece.shape.Proper := by
  induction line, text using Scan.pieces.induct with
  | case1 line =>
      rw [pieces]
      simp
  | case2 line first rest shape length hclassify text ih =>
      have hshape := proper_classify first rest
      rw [hclassify] at hshape
      rw [pieces, hclassify, List.forall_mem_cons]
      exact ⟨hshape, ih⟩

/-- A token of a source stands for a value of the language or for none. -/
theorem Scan.literal_ne_invalid {source : String} {token : Token}
    (hmem : token ∈ (Scan.ofSource source).tokens) : token.literal ≠ some .invalid := by
  rcases List.mem_append.mp hmem with hfound | hend
  · obtain ⟨piece, hpiece, htoken⟩ := List.mem_filterMap.mp hfound
    have hshape := proper_pieces 1 source.toList piece hpiece
    rw [Piece.token?] at htoken
    split at htoken
    · next kind literal hkind =>
        rw [hkind] at hshape
        obtain rfl := Option.some.inj htoken
        exact hshape
    · cases htoken
  · obtain rfl := List.mem_singleton.mp hend
    simp [Token.endAt]

/-! ## Trees -/

/-- The literals in the tree are values of the language. -/
def Expr.Proper : Expr → Prop
  | .binary left _ right => left.Proper ∧ right.Proper
  | .grouping inner _ => inner.Proper
  | .literal value => value ≠ some .invalid
  | .unary _ operand => operand.Proper
  | .reference _ => True

def Stmt.Proper (stmt : Stmt) : Prop :=
  ∀ expr ∈ stmt.expr?, expr.Proper

theorem Grammar.Derivation.proper_tree {phrase : Phrase} (derivation : Derivation phrase)
    (hyield : ∀ token ∈ derivation.yield, token.literal ≠ some .invalid) :
    derivation.tree.Proper := by
  induction derivation with
  | only _ single ih => exact ih hyield
  | join _ left operator _ right ihLeft ihRight =>
      obtain ⟨hleft, hright⟩ := List.forall_mem_append.mp hyield
      exact ⟨ihLeft hleft, ihRight (List.forall_mem_cons.mp hright).2⟩
  | sign operator _ operand ih => exact ih (List.forall_mem_cons.mp hyield).2
  | plain primary ih => exact ih hyield
  | literal token _ => exact hyield token List.mem_cons_self
  | reference => trivial
  | group opening _ inner closing _ ih =>
      exact ih (List.forall_mem_append.mp (List.forall_mem_cons.mp hyield).2).1

theorem Grammar.Clause.proper_tree (clause : Clause)
    (hyield : ∀ token ∈ clause.yield, token.literal ≠ some .invalid) : clause.tree.Proper := by
  intro expr hexpr
  cases clause with
  | declareNil => cases hexpr
  | declareValue word name equal value semicolon =>
      obtain rfl := Option.some.inj hexpr
      exact value.proper_tree fun token hmem => hyield token (by simp [yield, hmem])
  | print word value semicolon =>
      obtain rfl := Option.some.inj hexpr
      exact value.proper_tree fun token hmem => hyield token (by simp [yield, hmem])
  | evaluate value semicolon =>
      obtain rfl := Option.some.inj hexpr
      exact value.proper_tree fun token hmem => hyield token (by simp [yield, hmem])

/-! ## Evaluation -/

/-- The bindings hold values of the language only. -/
def Bindings.Proper (bindings : Bindings) : Prop :=
  ∀ name, bindings.get? name ≠ some .invalid

/-- Binding a value of the language keeps the bindings proper. -/
theorem Bindings.Proper.define {bindings : Bindings} (hproper : bindings.Proper) (name : String)
    {value : Value} (hvalue : value ≠ .invalid) : (bindings.define name value).Proper := by
  intro other
  rw [get?_define]
  split
  · simpa using hvalue
  · exact hproper other

/-- An undefined operation is a fault and not a value. -/
theorem applyBinary_ne_invalid (operator : Token) (left right : Value) :
    applyBinary operator left right ≠ .ok .invalid := by
  rw [applyBinary]
  cases Operator.binary operator.kind left right <;> simp

theorem applyUnary_ne_invalid (operator : Token) (operand : Value) :
    applyUnary operator operand ≠ .ok .invalid := by
  have hvalue : Operator.unary? operator.kind operand ≠ some .invalid := by
    unfold Operator.unary?
    split
    · split <;> simp
    · simp
    · simp
  rw [applyUnary_eq]
  cases hresult : Operator.unary? operator.kind operand with
  | none => simp
  | some value =>
      rw [hresult] at hvalue
      simpa using hvalue

namespace Expr

variable {limits : Limits} {bindings : Bindings}

theorem bind_ne_invalid {outcome : Except RuntimeFault Value}
    {next : Value → Except RuntimeFault Value} (hnext : ∀ value, next value ≠ .ok .invalid) :
    outcome.bind next ≠ .ok .invalid := by
  cases outcome with
  | error fault => simp [Except.bind]
  | ok value => exact hnext value

theorem within_ne_invalid {load : Load} {expr : Expr} {inside : Except RuntimeFault Value}
    (hinside : inside ≠ .ok .invalid) : within limits load expr inside ≠ .ok .invalid := by
  rw [within]
  split
  · simp
  · split
    · simp
    · exact hinside

/-- The value of an expression is never the mark of an undefined operation. -/
theorem evaluateAt_ne_invalid (hbindings : bindings.Proper) {expr : Expr} (hproper : expr.Proper)
    (load : Load) : evaluateAt limits bindings load expr ≠ .ok .invalid := by
  induction expr generalizing load with
  | binary left operator right ihLeft ihRight =>
      rw [evaluateAt_binary]
      apply bind_ne_invalid
      intro value
      exact bind_ne_invalid (applyBinary_ne_invalid operator value)
  | grouping inner paren ih =>
      rw [evaluateAt_grouping]
      exact within_ne_invalid (ih hproper _)
  | literal value =>
      rw [evaluateAt]
      cases value with
      | none => simp
      | some value => simpa [Proper] using hproper
  | unary operator operand ih =>
      rw [evaluateAt_unary]
      exact within_ne_invalid (bind_ne_invalid (applyUnary_ne_invalid operator))
  | reference name =>
      have hname := hbindings name.lexeme
      rw [evaluateAt, Bindings.value]
      split
      · next value hvalue =>
          rw [hvalue] at hname
          simpa using hname
      · simp

end Expr

/-! ## Runs -/

namespace Stmt

variable {limits : Limits} {bindings : Bindings} {stmt : Stmt}

def outcome (limits : Limits) (bindings : Bindings) (stmt : Stmt) : Except RuntimeFault Value :=
  match stmt.expr? with
  | some expr => expr.evaluate limits bindings
  | none => .ok .nil

theorem effect_eq_outcome (limits : Limits) (bindings : Bindings) (stmt : Stmt) :
    stmt.effect limits bindings = (stmt.outcome limits bindings).map stmt.effectOf := by
  rw [effect_eq, outcome]
  cases stmt.expr? <;> rfl

/-- No statement gives the mark of an undefined operation. -/
theorem outcome_ne_invalid (hbindings : bindings.Proper) (hproper : stmt.Proper) :
    stmt.outcome limits bindings ≠ .ok .invalid := by
  rw [outcome]
  cases hexpr : stmt.expr? with
  | none => simp
  | some expr => exact Expr.evaluateAt_ne_invalid hbindings (hproper expr hexpr) .empty

end Stmt

namespace Machine

/-- The machine holds values of the language only. -/
structure Proper (machine : Machine) : Prop where
  bindings : machine.bindings.Proper
  last : machine.last ≠ some .invalid

/-- Runs statements in order.  A prefix operator without meaning ends the run, and
so does a value that is the mark of an undefined operation, before anything is
done with it. -/
def attempt (limits : Limits) (machine : Machine) : List Stmt → Except Crash Execution
  | [] => .ok ⟨machine, [], none⟩
  | stmt :: stmts =>
      match stmt.outcome limits machine.bindings with
      | .ok value =>
          if value = .invalid then .error .sentinel
          else do
            let effect := stmt.effectOf value
            let later ← attempt limits ⟨effect.apply machine.bindings, effect.value?⟩ stmts
            return { later with events := effect.events ++ later.events }
      | .error fault =>
          match stmt.failure fault with
          | .error kind => .error (.operator kind)
          | .ok diagnostic => do
              let later ← attempt limits ⟨machine.bindings, none⟩ stmts
              return { later with events := .reported diagnostic :: later.events }

theorem Proper.cleared {machine : Machine} (hproper : machine.Proper) :
    Proper ⟨machine.bindings, none⟩ :=
  ⟨hproper.bindings, by simp⟩

theorem Proper.effectOf {machine : Machine} (hproper : machine.Proper) (stmt : Stmt)
    {value : Value} (hvalue : value ≠ .invalid) :
    Proper ⟨(stmt.effectOf value).apply machine.bindings, (stmt.effectOf value).value?⟩ := by
  cases stmt with
  | print => exact ⟨hproper.bindings, by simp [Stmt.effectOf, Effect.value?]⟩
  | expression => exact ⟨hproper.bindings, by simpa [Stmt.effectOf, Effect.value?] using hvalue⟩
  | declare name =>
      exact ⟨hproper.bindings.define name.lexeme hvalue, by simp [Stmt.effectOf, Effect.value?]⟩

section Execute

variable {limits : Limits} {machine : Machine} {stmt : Stmt}

theorem execute_of_value {value : Value}
    (houtcome : stmt.outcome limits machine.bindings = .ok value) :
    machine.execute limits stmt = (.ok (stmt.effectOf value).events,
      ⟨(stmt.effectOf value).apply machine.bindings, (stmt.effectOf value).value?⟩) := by
  rw [execute, stmt.effect_eq_outcome, houtcome]
  rfl

theorem execute_of_fault {fault : RuntimeFault}
    (houtcome : stmt.outcome limits machine.bindings = .error fault) :
    machine.execute limits stmt = (.error fault, ⟨machine.bindings, none⟩) := by
  rw [execute, stmt.effect_eq_outcome, houtcome]
  rfl

theorem Proper.value_ne_invalid (hproper : machine.Proper) (hstmt : stmt.Proper) {value : Value}
    (houtcome : stmt.outcome limits machine.bindings = .ok value) : value ≠ .invalid := by
  rintro rfl
  exact Stmt.outcome_ne_invalid hproper.bindings hstmt houtcome

/-- A statement keeps the machine proper. -/
theorem Proper.execute (hproper : machine.Proper) (hstmt : stmt.Proper) :
    (machine.execute limits stmt).2.Proper := by
  cases houtcome : stmt.outcome limits machine.bindings with
  | ok value =>
      rw [execute_of_value houtcome]
      exact hproper.effectOf stmt (hproper.value_ne_invalid hstmt houtcome)
  | error fault =>
      rw [execute_of_fault houtcome]
      exact hproper.cleared

end Execute

/-- Statements of a source leave values of the language. -/
theorem Proper.after {limits : Limits} {machine : Machine} (hproper : machine.Proper)
    {stmts : List Stmt} (hstmts : ∀ stmt ∈ stmts, stmt.Proper) :
    (machine.after limits stmts).Proper := by
  induction stmts generalizing machine with
  | nil => exact hproper
  | cons stmt stmts ih =>
      obtain ⟨hfirst, hlater⟩ := List.forall_mem_cons.mp hstmts
      exact ih (hproper.execute hfirst) hlater

/-- No statement of a source ends a run. -/
theorem attempt_eq {limits : Limits} {machine : Machine} {stmts : List Stmt}
    (hproper : machine.Proper) (hwritten : ∀ stmt ∈ stmts, stmt.Written)
    (hstmts : ∀ stmt ∈ stmts, stmt.Proper) :
    machine.attempt limits stmts = .ok (machine.run limits stmts) := by
  induction stmts generalizing machine with
  | nil => rfl
  | cons stmt stmts ih =>
      obtain ⟨hfirst, hlater⟩ := List.forall_mem_cons.mp hwritten
      obtain ⟨hfirst', hlater'⟩ := List.forall_mem_cons.mp hstmts
      have hnext : (machine.execute limits stmt).2.Proper := hproper.execute hfirst'
      rw [attempt, run]
      cases houtcome : stmt.outcome limits machine.bindings with
      | ok value =>
          rw [execute_of_value houtcome] at hnext ⊢
          simp only [if_neg (hproper.value_ne_invalid hfirst' houtcome), ih hnext hlater hlater']
          rfl
      | error fault =>
          have heffect : stmt.effect limits machine.bindings = .error fault := by
            rw [stmt.effect_eq_outcome, houtcome]
            rfl
          obtain ⟨token, message, hfailure⟩ := Stmt.exists_failure hfirst heffect
          rw [execute_of_fault houtcome] at hnext ⊢
          simp only [hfailure, ih hnext hlater hlater']
          rfl

-- Trees that no source gives would end a run.
example : Machine.attempt (.standard 1) .start [.print (.literal (some .invalid))] =
    .error .sentinel := by
  cbv

example : Machine.attempt (.standard 1) .start
    [.print (.unary ⟨.star, "*", none, 1⟩ (.literal none))] = .error (.operator .star) := by
  cbv

/-- An exhausted stack is reported with the statement that it ends. -/
theorem overflow_mem_failures {limits : Limits} {machine : Machine} {stmts : List Stmt}
    (hwritten : ∀ stmt ∈ stmts, stmt.Written) {step : Step}
    (hstep : step ∈ machine.trace limits stmts) (hoverflow : step.outcome = .error .overflow) :
    RuntimeFault.tooDeepDiagnostic step.stmt.firstToken? ∈ (machine.run limits stmts).failures := by
  have hfailure : step.failure? = some (RuntimeFault.tooDeepDiagnostic step.stmt.firstToken?) := by
    rw [Step.failure?, hoverflow]
    rfl
  have hincomplete : (!step.completes) = true := by
    rw [Step.completes, hoverflow]
    rfl
  have hmem : step.failure? ∈ (machine.run limits stmts).failures.map some := by
    rw [failures_run hwritten]
    exact List.mem_map_of_mem (List.mem_filter.mpr ⟨hstep, hincomplete⟩)
  rw [hfailure] at hmem
  simpa using hmem

end Machine

/-! ## Calls -/

def Report.attempt (reports : List Report) : Except Crash Report :=
  match Report.ofList? reports with
  | some whole => .ok whole
  | none => .error .emptyBatch

/-- Makes a batch of diagnostics where there are some. -/
def Report.attemptStrict {α : Type} (errors : List Diagnostic) (answer : α) :
    Except Crash (Except Report α) :=
  if errors.isEmpty then .ok (.ok answer)
  else do
    let whole ← Report.attempt (errors.map Report.single)
    return .error whole

/-- A batch is made only where there are diagnostics, so it is never empty. -/
theorem Report.attemptStrict_eq {α : Type} (errors : List Diagnostic) (answer : α) :
    Report.attemptStrict errors answer =
      .ok (match Report.ofList? (errors.map Report.single) with
        | some whole => .error whole
        | none => .ok answer) := by
  cases errors with
  | nil => rfl
  | cons first more =>
      have hsome : (Report.ofList? ((first :: more).map Report.single)).isSome = true := by
        simp [Report.ofList?]
      obtain ⟨whole, hwhole⟩ := Option.isSome_iff_exists.mp hsome
      rw [attemptStrict, attempt, hwhole]
      rfl

def Scan.attemptStrict (source : String) : Except Crash (Except Report (List Token)) := do
  let scan ← Scan.attempt source
  Report.attemptStrict scan.errors scan.tokens

def Program.attemptStrict (limits : Limits) (tokens : List Token) :
    Except Crash (Except Report (List Stmt)) := do
  let program ← Program.attempt limits tokens
  Report.attemptStrict program.errors program.statements

def Analysis.attempt (limits : Limits) (source : String) : Except Crash Analysis := do
  let scan ← Scan.attempt source
  let program ← Program.attempt limits scan.tokens
  return ⟨scan, program⟩

/-- Scanning and reading step by step comes to its end with the analysis of the
source. -/
theorem Analysis.attempt_eq (limits : Limits) (source : String) :
    Analysis.attempt limits source = .ok (Analysis.ofSource limits source) := by
  rw [Analysis.attempt, Scan.attempt_eq, ok_bind, Program.attempt_eq]
  rfl

namespace Session

def attemptTokens (session : Session) (source : String) :
    Except Crash (List Token × Transcript × Session) := do
  let scan ← Scan.attempt source
  return (scan.tokens, scan.events,
    { session with reporter := session.reporter.recordAll scan.errors })

def attemptStatements (session : Session) (source : String) :
    Except Crash (Option (List Stmt) × Transcript × Session) := do
  let analysis ← Analysis.attempt session.limits source
  return (if analysis.errors.isEmpty then some analysis.program.statements else none,
    analysis.scan.events ++ analysis.program.events,
    { session with reporter := session.reporter.recordAll analysis.errors })

def attemptRun (session : Session) (source : String) :
    Except Crash (Status × Transcript × Session) := do
  let cleared := { session with
    machine := { session.machine with last := none }
    reporter := .fresh }
  match ← cleared.attemptStatements source with
  | (none, events, next) => return (.staticError, events ++ [.noted .skipped], next)
  | (some stmts, events, next) =>
      let execution ← next.machine.attempt next.limits stmts
      return (if execution.succeeded then .ok else .runtimeError, events ++ execution.events,
        { next with
          machine := execution.machine
          reporter := next.reporter.recordAll execution.failures })

/-- The session behind a call that is taken step by step. -/
def attempt (session : Session) : Call → Except Crash Session
  | .run source => return (← session.attemptRun source).2.2
  | .tokens source => return (← session.attemptTokens source).2.2
  | .statements source => return (← session.attemptStatements source).2.2

variable {session : Session}

theorem attemptTokens_eq (session : Session) (source : String) :
    session.attemptTokens source = .ok (session.tokens source) := by
  rw [attemptTokens, Scan.attempt_eq]
  rfl

theorem attemptStatements_eq (session : Session) (source : String) :
    session.attemptStatements source = .ok (session.statements source) := by
  rw [attemptStatements, Analysis.attempt_eq]
  rfl

theorem proper_statements {limits : Limits} {source : String} {stmt : Stmt}
    (hmem : stmt ∈ (Analysis.ofSource limits source).program.statements) : stmt.Proper := by
  obtain ⟨clause, rfl, hyield⟩ := Program.exists_clause hmem
  exact clause.proper_tree fun token htoken => Scan.literal_ne_invalid (hyield token htoken)

/-- Running step by step comes to its end with the run of the source. -/
theorem attempt_execution (hproper : session.machine.Proper) (source : String) :
    Machine.attempt session.limits ⟨session.machine.bindings, none⟩
        (Analysis.ofSource session.limits source).program.statements =
      .ok (session.execution source) :=
  Machine.attempt_eq hproper.cleared (Program.written_statements _ _)
    fun _ hmem => proper_statements hmem

theorem proper_execution (hproper : session.machine.Proper) (source : String) :
    (session.execution source).machine.Proper := by
  have hwritten : ∀ stmt ∈ (Analysis.ofSource session.limits source).program.statements,
      stmt.Written := Program.written_statements _ _
  rw [execution, Machine.machine_run hwritten]
  exact hproper.cleared.after fun _ hmem => proper_statements hmem

/-- A run comes to its end. -/
theorem attemptRun_eq (hproper : session.machine.Proper) (source : String) :
    session.attemptRun source = .ok (session.run source) := by
  have hlimits : ∀ machine reporter,
      ({ session with machine := machine, reporter := reporter } : Session).limits =
        session.limits := fun _ _ => rfl
  simp only [attemptRun, attemptStatements_eq, ok_bind, statements, hlimits]
  by_cases hnone : (Analysis.ofSource session.limits source).errors = []
  · have hattempt := attempt_execution hproper source
    rw [run_of_errors hnone]
    simp only [hnone, List.isEmpty_nil, if_true, hlimits, hattempt, ok_bind,
      Reporter.recordAll_nil]
    rfl
  · have hmistakes := List.isEmpty_eq_false_iff.mpr hnone
    rw [run_of_mistakes hnone]
    simp only [hmistakes, Bool.false_eq_true, if_false]
    rfl

/-- Running a source keeps the session proper. -/
theorem proper_run (hproper : session.machine.Proper) (source : String) :
    (session.run source).2.2.machine.Proper := by
  by_cases hnone : (Analysis.ofSource session.limits source).errors = []
  · rw [run_of_errors hnone]
    exact proper_execution hproper source
  · rw [machine_of_mistakes hnone]
    exact hproper.cleared

theorem attempt_eq (hproper : session.machine.Proper) (call : Call) :
    session.attempt call = .ok (session.perform call) ∧ (session.perform call).machine.Proper := by
  cases call with
  | run source =>
      rw [attempt, attemptRun_eq hproper]
      exact ⟨rfl, proper_run hproper source⟩
  | tokens source =>
      rw [attempt, attemptTokens_eq]
      exact ⟨rfl, hproper⟩
  | statements source =>
      rw [attempt, attemptStatements_eq]
      exact ⟨rfl, hproper⟩

/-- Every history of calls comes to its end. -/
theorem foldlM_attempt (hproper : session.machine.Proper) (calls : List Call) :
    calls.foldlM attempt session = .ok (calls.foldl perform session) ∧
      (calls.foldl perform session).machine.Proper := by
  induction calls generalizing session with
  | nil => exact ⟨rfl, hproper⟩
  | cons call calls ih =>
      obtain ⟨hattempt, hnext⟩ := attempt_eq hproper call
      rw [List.foldlM_cons, hattempt, ok_bind, List.foldl_cons]
      exact ih hnext

theorem proper_start (settings : Settings) : (start settings).machine.Proper :=
  ⟨fun name => by simp [start, Machine.start, Bindings.empty, Bindings.get?],
    by simp [start, Machine.start]⟩

/-- Whatever calls a session has gone through, each of them came to its end, and so
does each further call: no step of the scanner, the reader or the evaluator fails,
and a batch of mistakes is made only of some.  Names and the last value hold values
of the language, also between the statements of a run, and a statement prints,
yields or binds no other.  A stack that is exhausted while a source is read or run
becomes a diagnostic of the run. -/
theorem every_call_returns (settings : Settings) (calls : List Call) (source : String) :
    let current := calls.foldl perform (start settings)
    let cleared : Machine := ⟨current.machine.bindings, none⟩
    let tokens := (Scan.ofSource source).tokens
    let program := Program.ofTokens current.limits tokens
    let steps := cleared.trace current.limits program.statements
    let reported := (current.run source).2.2.reporter.diagnostics
    calls.foldlM attempt (start settings) = .ok current ∧
      current.attemptRun source = .ok (current.run source) ∧
      current.attemptTokens source = .ok (current.tokens source) ∧
      current.attemptStatements source = .ok (current.statements source) ∧
      Scan.attemptStrict source = .ok (Scan.strict source) ∧
      Program.attemptStrict current.limits tokens = .ok (Program.strict current.limits tokens) ∧
      current.machine.Proper ∧
      (∀ token ∈ tokens, token.literal ≠ some .invalid) ∧
      (∀ done stmt later, program.statements = done ++ stmt :: later →
        (cleared.after current.limits done).Proper ∧
          stmt.outcome current.limits (cleared.after current.limits done).bindings ≠
            .ok .invalid) ∧
      (∀ position, Program.OverflowsAt current.limits tokens position →
        ∃ token, (Grammar.closed tokens)[position]? = some token ∧
          Diagnostic.about .parsing token tooDeepMessage ∈ reported) ∧
      ((current.run source).1 ≠ .staticError → ∀ step ∈ steps, step.outcome = .error .overflow →
        RuntimeFault.tooDeepDiagnostic step.stmt.firstToken? ∈ reported) := by
  intro current cleared tokens program steps reported
  obtain ⟨hcalls, hproper⟩ := foldlM_attempt (proper_start settings) calls
  refine ⟨hcalls, attemptRun_eq hproper source, attemptTokens_eq current source,
    attemptStatements_eq current source, ?_, ?_, hproper,
    fun token hmem => Scan.literal_ne_invalid hmem, ?_, ?_, ?_⟩
  · rw [Scan.attemptStrict, Scan.attempt_eq, ok_bind, Report.attemptStrict_eq]
    rfl
  · rw [Program.attemptStrict, Program.attempt_eq, ok_bind, Report.attemptStrict_eq]
    rfl
  · intro done stmt later hsplit
    have hstmts : ∀ other ∈ done ++ stmt :: later, other.Proper :=
      hsplit ▸ fun other hmem => proper_statements hmem
    obtain ⟨hdone, hrest⟩ := List.forall_mem_append.mp hstmts
    have hafter : (cleared.after current.limits done).Proper := hproper.cleared.after hdone
    exact ⟨hafter, Stmt.outcome_ne_invalid hafter.bindings (List.forall_mem_cons.mp hrest).1⟩
  · intro position hoverflows
    obtain ⟨token, htoken, hmem⟩ := Program.overflow_mem_errors hoverflows
    have herrors : Diagnostic.about .parsing token tooDeepMessage ∈
        (Analysis.ofSource current.limits source).errors := List.mem_append_right _ hmem
    refine ⟨token, htoken, ?_⟩
    simp only [reported]
    rw [reporter_of_mistakes (List.ne_nil_of_mem herrors)]
    exact herrors
  · intro hstatus step hstep hoverflow
    have hnone : (Analysis.ofSource current.limits source).errors = [] := by
      by_contra hsome
      exact hstatus (status_of_mistakes hsome)
    simp only [reported]
    rw [reporter_of_errors hnone]
    exact Machine.overflow_mem_failures (Program.written_statements _ _) hstep hoverflow

/-- A history with an undefined operation, an open string and an open bracket.  The
next run prints a value, fails at the name that was not bound, and returns. -/
theorem every_call_returns_failures :
    let settings : Settings := ⟨2, .warning, Nat.two_pos⟩
    let calls : List Call := [.run "var a = \"x\"; var b = a + true;", .tokens "print \"",
      .statements "print (a"]
    let current := calls.foldl perform (start settings)
    calls.foldlM attempt (start settings) = .ok current ∧
      current.attemptRun "print !a; print b;" = .ok (current.run "print !a; print b;") ∧
      (current.run "print !a; print b;").1 = .runtimeError ∧
      (current.run "print !a; print b;").2.1.output = "false\n" ∧
      current.machine.bindings.get? "b" ≠ some .invalid := by
  intro settings calls current
  obtain ⟨hcalls, hrun, -, -, -, -, hproper, -⟩ :=
    every_call_returns settings calls "print !a; print b;"
  exact ⟨hcalls, hrun, by decide +kernel, by decide +kernel, hproper.bindings "b"⟩

end Session

end Lumen
