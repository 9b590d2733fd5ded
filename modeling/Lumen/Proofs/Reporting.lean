import Lumen.Proofs.Juxtaposition
import Lumen.Proofs.Trace

/-!
# What a session reports

A run of a source is told in several ways: by its status, by the diagnostics and
flags that the reporter keeps, by what is written, and by what becomes of the
bindings.  All of them tell the same, whatever the session went through before.
Every stage marks its diagnostics, so the flags of the reporter can be read off
the diagnostics that it keeps.
-/

namespace Lumen

/-! ## Stages of diagnostics -/

theorem Scan.stage_errors {source : String} {diagnostic : Diagnostic}
    (hmem : diagnostic ∈ (Scan.ofSource source).errors) : diagnostic.stage = .scanning := by
  obtain ⟨piece, -, hpiece⟩ := List.mem_filterMap.mp hmem
  rw [Piece.diagnostic?] at hpiece
  split at hpiece
  · cases hpiece
    rfl
  · cases hpiece

theorem Program.stage_errors {limits : Limits} {tokens : List Token} {diagnostic : Diagnostic}
    (hmem : diagnostic ∈ (Program.ofTokens limits tokens).errors) :
    diagnostic.stage = .parsing := by
  obtain ⟨entry, -, hentry⟩ := List.mem_filterMap.mp hmem
  cases entry with
  | statement stmt rest => cases hentry
  | mistake fault rest =>
      cases hentry
      rfl

/-- No mistake of a source comes from a run. -/
theorem Analysis.stage_errors {limits : Limits} {source : String} {diagnostic : Diagnostic}
    (hmem : diagnostic ∈ (Analysis.ofSource limits source).errors) :
    diagnostic.stage ≠ .running := by
  rcases List.mem_append.mp hmem with hscan | hprogram
  · rw [Scan.stage_errors hscan]
    decide
  · rw [Program.stage_errors hprogram]
    decide

theorem Stmt.stage_failure {stmt : Stmt} {fault : RuntimeFault} {diagnostic : Diagnostic}
    (hfailure : stmt.failure fault = .ok diagnostic) : diagnostic.stage = .running := by
  have hdeep : ∀ token, (RuntimeFault.tooDeepDiagnostic token).stage = .running := by
    intro token
    cases token <;> rfl
  cases fault with
  | illegal operator =>
      cases hfailure
      rfl
  | undefined name =>
      cases hfailure
      rfl
  | tooDeep token =>
      cases hfailure
      exact hdeep token
  | overflow =>
      cases hfailure
      exact hdeep stmt.firstToken?
  | unknownOperator kind => cases hfailure

/-- Every failure comes from a run. -/
theorem Machine.stage_failures {limits : Limits} {machine : Machine} {stmts : List Stmt}
    (hwritten : ∀ stmt ∈ stmts, stmt.Written) {diagnostic : Diagnostic}
    (hmem : diagnostic ∈ (machine.run limits stmts).failures) : diagnostic.stage = .running := by
  have hsome : some diagnostic ∈ (machine.run limits stmts).failures.map some :=
    List.mem_map_of_mem hmem
  rw [failures_run hwritten] at hsome
  obtain ⟨step, -, hfailure⟩ := List.mem_map.mp hsome
  rw [Step.failure?] at hfailure
  cases houtcome : step.outcome with
  | ok events => simp [houtcome] at hfailure
  | error fault =>
      simp only [houtcome] at hfailure
      cases hreport : step.stmt.failure fault with
      | error kind => simp [hreport, Except.toOption] at hfailure
      | ok found =>
          simp only [hreport, Except.toOption, Option.some.injEq] at hfailure
          rw [← hfailure]
          exact Stmt.stage_failure hreport

namespace Reporter

variable {diagnostics : List Diagnostic}

theorem any_of_forall {condition : Diagnostic → Bool}
    (hall : ∀ diagnostic ∈ diagnostics, condition diagnostic = true) :
    diagnostics.any condition = !diagnostics.isEmpty := by
  cases diagnostics with
  | nil => rfl
  | cons first more =>
      rw [List.any_cons, hall first List.mem_cons_self]
      rfl

/-- A fresh reporter that is told mistakes knows of static errors only. -/
theorem recordAll_mistakes (hstage : ∀ diagnostic ∈ diagnostics, diagnostic.stage ≠ .running) :
    fresh.recordAll diagnostics = ⟨diagnostics, !diagnostics.isEmpty, false⟩ := by
  have herror : diagnostics.any (·.stage != .running) = !diagnostics.isEmpty :=
    any_of_forall fun diagnostic hmem => bne_iff_ne.mpr (hstage diagnostic hmem)
  have hruntime : diagnostics.any (·.stage == .running) = false := by
    apply List.any_eq_false.mpr
    intro diagnostic hmem hrunning
    exact hstage diagnostic hmem (beq_iff_eq.mp hrunning)
  rw [recordAll, herror, hruntime]
  rfl

/-- A fresh reporter that is told failures knows of runtime errors only. -/
theorem recordAll_failures (hstage : ∀ diagnostic ∈ diagnostics, diagnostic.stage = .running) :
    fresh.recordAll diagnostics = ⟨diagnostics, false, !diagnostics.isEmpty⟩ := by
  have herror : diagnostics.any (·.stage != .running) = false := by
    apply List.any_eq_false.mpr
    intro diagnostic hmem hmistake
    exact bne_iff_ne.mp hmistake (hstage diagnostic hmem)
  have hruntime : diagnostics.any (·.stage == .running) = !diagnostics.isEmpty :=
    any_of_forall fun diagnostic hmem => beq_iff_eq.mpr (hstage diagnostic hmem)
  rw [recordAll, herror, hruntime]
  rfl

end Reporter

/-! ## What is written -/

/-- Whether an event is a text of the command itself. -/
def Event.isComplaint : Event → Bool
  | complained _ => true
  | _ => false

namespace Transcript

theorem errors_append (verbose : Bool) (first second : Transcript) :
    Transcript.errors verbose (first ++ second) = first.errors verbose ++ second.errors verbose := by
  rw [errors, List.map_append, String.join_append]
  rfl

/-- The error channel gets the lines of the diagnostics, in order. -/
theorem errors_eq {transcript : Transcript}
    (hcalm : ∀ event ∈ transcript, event.isComplaint = false) :
    transcript.errors false =
      String.join (transcript.diagnostics.map fun diagnostic => diagnostic.render ++ "\n") := by
  induction transcript with
  | nil => rfl
  | cons event transcript ih =>
      obtain ⟨hevent, hlater⟩ := List.forall_mem_cons.mp hcalm
      have hlines := ih hlater
      rw [errors] at hlines ⊢
      rw [List.map_cons, String.join_cons, hlines]
      cases event with
      | printed text => exact String.empty_append
      | reported diagnostic => simp [Event.errors, diagnostics, Event.diagnostic?]
      | complained text => cases hevent
      | noted note => exact String.empty_append

theorem calm_reported (mistakes : List Diagnostic) (note : Note) :
    ∀ event ∈ mistakes.map Event.reported ++ [.noted note], event.isComplaint = false := by
  intro event hmem
  rcases List.mem_append.mp hmem with hreported | hnoted
  · obtain ⟨mistake, -, rfl⟩ := List.mem_map.mp hreported
    rfl
  · obtain rfl := List.mem_singleton.mp hnoted
    rfl

end Transcript

theorem Machine.calm_run (limits : Limits) (machine : Machine) (stmts : List Stmt) :
    ∀ event ∈ (machine.run limits stmts).events, event.isComplaint = false := by
  induction stmts generalizing machine with
  | nil =>
      intro event hmem
      cases hmem
  | cons stmt stmts ih =>
      rw [run, execute]
      cases stmt.effect limits machine.bindings with
      | ok effect =>
          intro event hmem
          rcases List.mem_append.mp hmem with hfirst | hlater
          · cases effect with
            | print text =>
                obtain rfl := List.mem_singleton.mp hfirst
                rfl
            | yield value => cases hfirst
            | bind name value =>
                obtain rfl := List.mem_singleton.mp hfirst
                rfl
          · exact ih _ event hlater
      | error fault =>
          intro event hmem
          cases hfailure : stmt.failure fault with
          | error kind =>
              simp only [hfailure] at hmem
              cases hmem
          | ok diagnostic =>
              simp only [hfailure] at hmem
              rcases List.mem_cons.mp hmem with rfl | hlater
              · rfl
              · exact ih _ event hlater

theorem Analysis.calm_events (analysis : Analysis) :
    ∀ event ∈ analysis.scan.events ++ analysis.program.events, event.isComplaint = false := by
  intro event hmem
  rcases List.mem_append.mp hmem with hscan | hprogram
  · exact Transcript.calm_reported _ _ event hscan
  · exact Transcript.calm_reported _ _ event hprogram

/-! ## Runs of a session -/

namespace Session

variable {session : Session} {source : String}

/-- A source with mistakes is reported and not run. -/
theorem run_of_mistakes (hsome : (Analysis.ofSource session.limits source).errors ≠ []) :
    session.run source =
      (.staticError,
        (Analysis.ofSource session.limits source).scan.events ++
          (Analysis.ofSource session.limits source).program.events ++ [.noted .skipped],
        { session with
          machine := { session.machine with last := none }
          reporter := Reporter.fresh.recordAll
            (Analysis.ofSource session.limits source).errors }) := by
  have hlimits : ∀ machine reporter,
      ({ session with machine := machine, reporter := reporter } : Session).limits =
        session.limits := fun _ _ => rfl
  have hmistakes : (Analysis.ofSource session.limits source).errors.isEmpty = false :=
    List.isEmpty_eq_false_iff.mpr hsome
  simp only [run, statements, hlimits, hmistakes, Bool.false_eq_true, if_false]

theorem status_of_mistakes (hsome : (Analysis.ofSource session.limits source).errors ≠ []) :
    (session.run source).1 = .staticError := by
  rw [run_of_mistakes hsome]

theorem output_of_mistakes (hsome : (Analysis.ofSource session.limits source).errors ≠ []) :
    (session.run source).2.1.output = "" := by
  rw [run_of_mistakes hsome, Transcript.output_append, Analysis.output_events]
  rfl

/-- A source with mistakes leaves the bindings alone. -/
theorem machine_of_mistakes (hsome : (Analysis.ofSource session.limits source).errors ≠ []) :
    (session.run source).2.2.machine = ⟨session.machine.bindings, none⟩ := by
  rw [run_of_mistakes hsome]

/-- Behind a source with mistakes the reporter holds exactly these. -/
theorem reporter_of_mistakes (hsome : (Analysis.ofSource session.limits source).errors ≠ []) :
    (session.run source).2.2.reporter =
      ⟨(Analysis.ofSource session.limits source).errors, true, false⟩ := by
  rw [run_of_mistakes hsome, Reporter.recordAll_mistakes fun _ hmem => Analysis.stage_errors hmem,
    List.isEmpty_eq_false_iff.mpr hsome]
  rfl

/-- Behind a source without mistakes the reporter holds exactly the failures of
its run. -/
theorem reporter_of_errors (hnone : (Analysis.ofSource session.limits source).errors = []) :
    (session.run source).2.2.reporter =
      ⟨(session.execution source).failures, false,
        !(session.execution source).failures.isEmpty⟩ := by
  rw [run_of_errors hnone]
  apply Reporter.recordAll_failures
  intro diagnostic hmem
  exact Machine.stage_failures (fun stmt hstmt => Analysis.written_of_errors hnone hstmt) hmem

theorem status_run_ne (hnone : (Analysis.ofSource session.limits source).errors = []) :
    (session.run source).1 ≠ .staticError := by
  rw [status_run hnone]
  split <;> decide

/-- The events of a run report what the reporter keeps of it. -/
theorem diagnostics_events_run (session : Session) (source : String) :
    (session.run source).2.1.diagnostics = (session.run source).2.2.reporter.diagnostics := by
  by_cases hnone : (Analysis.ofSource session.limits source).errors = []
  · obtain ⟨hevents, hreporter⟩ := diagnostics_run hnone
    rw [hevents, hreporter]
  · rw [reporter_of_mistakes hnone, run_of_mistakes hnone, Transcript.diagnostics_append,
      Analysis.diagnostics_events]
    exact List.append_nil _

theorem calm_run (session : Session) (source : String) :
    ∀ event ∈ (session.run source).2.1, event.isComplaint = false := by
  intro event hmem
  by_cases hnone : (Analysis.ofSource session.limits source).errors = []
  · rw [run_of_errors hnone] at hmem
    rcases List.mem_append.mp hmem with hread | hexecuted
    · exact Analysis.calm_events _ event hread
    · exact Machine.calm_run _ _ _ event hexecuted
  · rw [run_of_mistakes hnone] at hmem
    rcases List.mem_append.mp hmem with hread | hskipped
    · exact Analysis.calm_events _ event hread
    · obtain rfl := List.mem_singleton.mp hskipped
      rfl

/-- What is written of a run is what the reporter keeps of it. -/
theorem errors_run (session : Session) (source : String) :
    (session.run source).2.1.errors false =
      String.join ((session.run source).2.2.reporter.diagnostics.map
        fun diagnostic => diagnostic.render ++ "\n") := by
  rw [Transcript.errors_eq (session.calm_run source), diagnostics_events_run]

inductive Call where
  | run (source : String)
  | tokens (source : String)
  | statements (source : String)
  deriving DecidableEq, Repr

def perform (session : Session) : Call → Session
  | .run source => (session.run source).2.2
  | .tokens source => (session.tokens source).2.2
  | .statements source => (session.statements source).2.2

/-- Whatever a session went through before, the status of a run, what the
reporter keeps of it, what is written and what becomes of the bindings tell the
same. -/
theorem run_tells_one_story (session : Session) (calls : List Call) (source : String) :
    let current := calls.foldl perform session
    let scan := Scan.ofSource source
    let program := Program.ofTokens current.limits scan.tokens
    let steps := Machine.trace current.limits ⟨current.machine.bindings, none⟩ program.statements
    let status := (current.run source).1
    let events := (current.run source).2.1
    let next := (current.run source).2.2
    (status = .staticError ↔ scan.errors ≠ [] ∨ program.errors ≠ []) ∧
      (status = .staticError →
        events.output = "" ∧ next.machine.bindings = current.machine.bindings ∧
          next.machine.last = none ∧
          next.reporter.diagnostics = scan.errors ++ program.errors) ∧
      (status ≠ .staticError →
        next.reporter.diagnostics.map some =
            (steps.filter fun step => !step.completes).map Step.failure? ∧
          status = if next.reporter.diagnostics = [] then .ok else .runtimeError) ∧
      (next.reporter.hadError = true ↔ status = .staticError) ∧
      (next.reporter.hadRuntimeError = true ↔ status = .runtimeError) ∧
      events.errors false =
        String.join (next.reporter.diagnostics.map
          fun diagnostic => diagnostic.render ++ "\n") := by
  intro current scan program steps status events next
  have hmistakes : (Analysis.ofSource current.limits source).errors ≠ [] ↔
      scan.errors ≠ [] ∨ program.errors ≠ [] := by
    rw [Analysis.errors, ne_eq, List.append_eq_nil_iff, Decidable.not_and_iff_or_not]
    rfl
  have hlines := current.errors_run source
  rw [← hmistakes]
  by_cases hnone : (Analysis.ofSource current.limits source).errors = []
  · have hreporter : next.reporter = _ := reporter_of_errors hnone
    have hstatus : status = _ := status_run hnone
    have hrun : status ≠ .staticError := status_run_ne hnone
    have hsteps : (current.execution source).failures.map some =
        (steps.filter fun step => !step.completes).map Step.failure? :=
      Machine.failures_run (fun stmt hstmt => Analysis.written_of_errors hnone hstmt) _
    have hruntime : (!(current.execution source).failures.isEmpty) = true ↔
        status = .runtimeError := by
      rw [hstatus]
      cases (current.execution source).failures with
      | nil => decide
      | cons failure failures => simp
    rw [hreporter]
    exact ⟨⟨fun hstatic => absurd hstatic hrun, fun hsome => absurd hnone hsome⟩,
      fun hstatic => absurd hstatic hrun, fun _ => ⟨hsteps, hstatus⟩,
      ⟨fun herror => absurd herror Bool.false_ne_true, fun hstatic => absurd hstatic hrun⟩,
      hruntime, hreporter ▸ hlines⟩
  · have hreporter : next.reporter = _ := reporter_of_mistakes hnone
    have hstatus : status = .staticError := status_of_mistakes hnone
    have hmachine : next.machine = _ := machine_of_mistakes hnone
    have hruntime : false = true ↔ Status.staticError = .runtimeError := by decide
    rw [hreporter, hmachine, hstatus]
    exact ⟨⟨fun _ => hnone, fun _ => rfl⟩,
      fun _ => ⟨output_of_mistakes hnone, rfl, rfl, rfl⟩, fun hother => absurd rfl hother,
      ⟨fun _ => rfl, fun _ => rfl⟩, hruntime, hreporter ▸ hlines⟩

end Session

end Lumen
