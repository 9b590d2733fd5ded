import Lumen.Proofs.Execution
import Lumen.Proofs.Recovery

/-!
# Runs statement by statement

A trace lists the statements of a run, each with its outcome on the machine that
the statements in front of it leave.  Statements that come from a source all get
their turn, so a run ends with the machine that the last of them leaves, and its
diagnostics are those of the failing steps, one for each.
-/

namespace Lumen

/-- Every statement that is read comes from a source, whatever mistakes stand
around it. -/
theorem Program.written_statements (limits : Limits) (tokens : List Token) :
    ∀ stmt ∈ (Program.ofTokens limits tokens).statements, stmt.Written := by
  intro stmt hstmt
  obtain ⟨clause, rfl, -⟩ := Program.exists_clause hstmt
  exact clause.written_tree

/-- A statement of a run with its outcome. -/
structure Step where
  stmt : Stmt
  outcome : Except RuntimeFault Transcript

namespace Step

def completes (step : Step) : Bool :=
  step.outcome.isOk

def failure? (step : Step) : Option Diagnostic :=
  match step.outcome with
  | .ok _ => none
  | .error fault => (step.stmt.failure fault).toOption

/-- What the statement shows: its effect, or that it failed. -/
def events (step : Step) : Transcript :=
  match step.outcome with
  | .ok events => events
  | .error _ => step.failure?.toList.map Event.reported

end Step

namespace Machine

variable {limits : Limits}

def trace (limits : Limits) (machine : Machine) : List Stmt → List Step
  | [] => []
  | stmt :: stmts =>
      ⟨stmt, (machine.execute limits stmt).1⟩ ::
        trace limits (machine.execute limits stmt).2 stmts

def after (limits : Limits) (machine : Machine) (stmts : List Stmt) : Machine :=
  stmts.foldl (fun current stmt => (current.execute limits stmt).2) machine

/-- The statements of a trace are those that run. -/
theorem map_stmt_trace (limits : Limits) (machine : Machine) (stmts : List Stmt) :
    (machine.trace limits stmts).map Step.stmt = stmts := by
  induction stmts generalizing machine with
  | nil => rfl
  | cons stmt stmts ih => rw [trace, List.map_cons, ih]

theorem after_concat (limits : Limits) (machine : Machine) (earlier : List Stmt) (stmt : Stmt) :
    machine.after limits (earlier ++ [stmt]) =
      ((machine.after limits earlier).execute limits stmt).2 := by
  rw [after, List.foldl_append]
  rfl

theorem trace_concat (limits : Limits) (machine : Machine) (earlier : List Stmt) (stmt : Stmt) :
    machine.trace limits (earlier ++ [stmt]) =
      machine.trace limits earlier ++
        [⟨stmt, ((machine.after limits earlier).execute limits stmt).1⟩] := by
  induction earlier generalizing machine with
  | nil => rfl
  | cons first earlier ih => rw [List.cons_append, trace, trace, ih, List.cons_append]; rfl

/-- A statement shows what its step says, and the run goes on. -/
theorem run_cons_of_written (limits : Limits) {stmt : Stmt} (hwritten : stmt.Written)
    (machine : Machine) (stmts : List Stmt) :
    let step : Step := ⟨stmt, (machine.execute limits stmt).1⟩
    let later := (machine.execute limits stmt).2.run limits stmts
    machine.run limits (stmt :: stmts) = { later with events := step.events ++ later.events } := by
  intro step later
  cases heffect : stmt.effect limits machine.bindings with
  | ok effect => simp only [run, later, step, Step.events, execute, heffect]
  | error fault =>
      obtain ⟨token, message, hfailure⟩ := Stmt.exists_failure hwritten heffect
      simp only [run, later, step, Step.events, Step.failure?, execute, heffect, hfailure,
        Except.toOption, Option.toList_some, List.map_cons, List.map_nil, List.cons_append,
        List.nil_append]

/-- A step reports one diagnostic if its statement fails, and none otherwise. -/
theorem diagnostics_step (limits : Limits) {stmt : Stmt} (hwritten : stmt.Written)
    (machine : Machine) :
    let step : Step := ⟨stmt, (machine.execute limits stmt).1⟩
    step.events.diagnostics = step.failure?.toList ∧
      step.failure?.isSome = !step.completes := by
  intro step
  cases heffect : stmt.effect limits machine.bindings with
  | ok effect =>
      have hstep : step = ⟨stmt, .ok effect.events⟩ := by simp only [step, execute, heffect]
      rw [hstep]
      exact ⟨effect.filterMap_events, rfl⟩
  | error fault =>
      obtain ⟨token, message, hfailure⟩ := Stmt.exists_failure hwritten heffect
      have hstep : step = ⟨stmt, .error fault⟩ := by simp only [step, execute, heffect]
      have hreport : step.failure? = some (.about .running token message) := by
        simp only [hstep, Step.failure?, hfailure, Except.toOption]
      have hevents : step.events = step.failure?.toList.map Event.reported := by
        rw [hstep]
        rfl
      rw [hevents, hreport, hstep]
      exact ⟨rfl, rfl⟩

/-- A run ends with the machine that its statements leave. -/
theorem machine_run {stmts : List Stmt} (hwritten : ∀ stmt ∈ stmts, stmt.Written)
    (machine : Machine) : (machine.run limits stmts).machine = machine.after limits stmts := by
  induction stmts generalizing machine with
  | nil => rfl
  | cons stmt stmts ih =>
      obtain ⟨hfirst, hlater⟩ := List.forall_mem_cons.mp hwritten
      rw [run_cons_of_written limits hfirst]
      exact ih hlater _

/-- A run shows what its steps show, one after the other. -/
theorem events_run {stmts : List Stmt} (hwritten : ∀ stmt ∈ stmts, stmt.Written)
    (machine : Machine) :
    (machine.run limits stmts).events = (machine.trace limits stmts).flatMap Step.events := by
  induction stmts generalizing machine with
  | nil => rfl
  | cons stmt stmts ih =>
      obtain ⟨hfirst, hlater⟩ := List.forall_mem_cons.mp hwritten
      rw [run_cons_of_written limits hfirst, trace, List.flatMap_cons, ← ih hlater]

/-- The diagnostics of a run are those of its first step and of the later ones. -/
theorem failures_cons (limits : Limits) {stmt : Stmt} (hwritten : stmt.Written)
    (machine : Machine) (stmts : List Stmt) :
    (machine.run limits (stmt :: stmts)).failures =
      (Step.failure? ⟨stmt, (machine.execute limits stmt).1⟩).toList ++
        ((machine.execute limits stmt).2.run limits stmts).failures := by
  rw [run_cons_of_written limits hwritten, ← (diagnostics_step limits hwritten machine).1]
  exact List.filterMap_append

/-- A run reports one diagnostic for each statement that fails, in order. -/
theorem failures_run {stmts : List Stmt} (hwritten : ∀ stmt ∈ stmts, stmt.Written)
    (machine : Machine) :
    (machine.run limits stmts).failures.map some =
      ((machine.trace limits stmts).filter fun step => !step.completes).map Step.failure? := by
  induction stmts generalizing machine with
  | nil => rfl
  | cons stmt stmts ih =>
      obtain ⟨hfirst, hrest⟩ := List.forall_mem_cons.mp hwritten
      obtain ⟨-, hfailure⟩ := diagnostics_step limits hfirst machine
      have hlater := ih hrest (machine.execute limits stmt).2
      rw [failures_cons limits hfirst, List.map_append, hlater, trace, List.filter_cons, ← hfailure]
      cases hreport : Step.failure? ⟨stmt, (machine.execute limits stmt).1⟩ with
      | none => rfl
      | some diagnostic =>
          simp only [Option.toList_some, List.map_cons, List.map_nil, Option.isSome_some, if_true,
            hreport]
          rfl

/-- A run has no failures if and only if every step completes. -/
theorem failures_eq_nil_iff {stmts : List Stmt} (hwritten : ∀ stmt ∈ stmts, stmt.Written)
    (machine : Machine) :
    (machine.run limits stmts).failures = [] ↔
      ∀ step ∈ machine.trace limits stmts, step.completes = true := by
  have hsteps : (machine.run limits stmts).failures.map some = _ := failures_run hwritten machine
  rw [← List.map_eq_nil_iff, hsteps, List.map_eq_nil_iff, List.filter_eq_nil_iff]
  simp

end Machine

end Lumen
