import Lumen.Proofs.Juxtaposition
import Lumen.Proofs.Trace

/-!
# Statements succeed as a whole or not at all

A statement that fails does nothing but report its failure: it prints nothing and
binds nothing, wherever in its expression the failure arises.  The statements
behind it find the bindings that were there before it, so a program runs as if its
failing statements were not there.  Without them nothing fails, the same text is
printed and the same bindings are left.
-/

namespace Lumen

/-! ## Events without reports -/

namespace Transcript

/-- The events other than reports. -/
def silenced (transcript : Transcript) : Transcript :=
  transcript.filter fun event => event.diagnostic?.isNone

theorem silenced_append (first second : Transcript) :
    silenced (first ++ second) = silenced first ++ silenced second :=
  List.filter_append first second

theorem diagnostics_silenced (transcript : Transcript) : transcript.silenced.diagnostics = [] := by
  rw [diagnostics, List.filterMap_eq_nil_iff]
  intro event hevent
  exact Option.isNone_iff_eq_none.mp (List.mem_filter.mp hevent).2

theorem output_cons (event : Event) (transcript : Transcript) :
    output (event :: transcript) = event.output ++ output transcript := by
  rw [output, List.map_cons, String.join_cons]
  rfl

/-- Reports go to another channel than printed text. -/
theorem output_silenced (transcript : Transcript) :
    transcript.silenced.output = transcript.output := by
  induction transcript with
  | nil => rfl
  | cons event transcript ih =>
      by_cases hnone : event.diagnostic?.isNone = true
      · rw [silenced, List.filter_cons, if_pos hnone, output_cons, output_cons, ← ih]
        rfl
      · have houtput : event.output = "" := by
          cases event with
          | reported diagnostic => rfl
          | printed text => exact absurd rfl hnone
          | complained text => exact absurd rfl hnone
          | noted note => exact absurd rfl hnone
        rw [silenced, List.filter_cons, if_neg hnone, output_cons, houtput, String.empty_append]
        exact ih

end Transcript

namespace Machine

variable {limits : Limits} {machine : Machine} {stmt : Stmt} {stmts : List Stmt}
  {fault : RuntimeFault}

/-! ## One statement -/

theorem effect_eq_of_error (herror : (machine.execute limits stmt).1 = .error fault) :
    stmt.effect limits machine.bindings = .error fault := by
  cases heffect : stmt.effect limits machine.bindings with
  | ok effect => simp [execute, heffect] at herror
  | error found => simpa [execute, heffect] using herror

/-- A statement that fails leaves the bindings as they were, and no value. -/
theorem execute_eq_of_error (herror : (machine.execute limits stmt).1 = .error fault) :
    machine.execute limits stmt = (.error fault, ⟨machine.bindings, none⟩) := by
  simp only [execute, effect_eq_of_error herror]

/-- A statement that fails reports it, and that is all. -/
theorem run_singleton_of_error (hwritten : stmt.Written)
    (herror : (machine.execute limits stmt).1 = .error fault) :
    ∃ diagnostic, machine.run limits [stmt] =
      ⟨⟨machine.bindings, none⟩, [.reported diagnostic], none⟩ := by
  obtain ⟨token, message, hfailure⟩ := Stmt.exists_failure hwritten (effect_eq_of_error herror)
  refine ⟨.about .running token message, ?_⟩
  simp only [run, execute_eq_of_error herror, hfailure]

/-- A statement that does not fail reports nothing. -/
theorem silenced_of_ok {events : Transcript} (hok : (machine.execute limits stmt).1 = .ok events) :
    events.silenced = events := by
  cases heffect : stmt.effect limits machine.bindings with
  | error found => simp [execute, heffect] at hok
  | ok effect =>
      simp only [execute, heffect, Except.ok.injEq] at hok
      rw [← hok]
      cases effect <;> rfl

/-! ## Runs without the statements that fail -/

/-- The statements of a run that do not fail. -/
def completed (limits : Limits) (machine : Machine) (stmts : List Stmt) : List Stmt :=
  ((machine.trace limits stmts).filter Step.completes).map Step.stmt

theorem completed_cons_of_ok {events : Transcript}
    (hok : (machine.execute limits stmt).1 = .ok events) (stmts : List Stmt) :
    machine.completed limits (stmt :: stmts) =
      stmt :: (machine.execute limits stmt).2.completed limits stmts := by
  rw [completed, trace, hok, List.filter_cons_of_pos rfl, List.map_cons]
  rfl

theorem completed_cons_of_error (herror : (machine.execute limits stmt).1 = .error fault)
    (stmts : List Stmt) :
    machine.completed limits (stmt :: stmts) =
      (machine.execute limits stmt).2.completed limits stmts := by
  rw [completed, trace, herror, List.filter_cons_of_neg Bool.false_ne_true]
  rfl

theorem completed_sublist (limits : Limits) (machine : Machine) (stmts : List Stmt) :
    (machine.completed limits stmts).Sublist stmts := by
  have hsublist : (machine.completed limits stmts).Sublist
      ((machine.trace limits stmts).map Step.stmt) := List.filter_sublist.map Step.stmt
  rwa [map_stmt_trace] at hsublist

/-- No statement is left out if and only if none fails. -/
theorem completed_eq_iff (limits : Limits) (machine : Machine) (stmts : List Stmt) :
    machine.completed limits stmts = stmts ↔
      ∀ step ∈ machine.trace limits stmts, step.completes = true := by
  constructor
  · intro hsame
    have hlength := congrArg List.length (hsame.trans (map_stmt_trace limits machine stmts).symm)
    rw [completed, List.length_map, List.length_map] at hlength
    exact List.length_filter_eq_length_iff.mp hlength
  · intro hall
    rw [completed, List.filter_eq_self.mpr hall, map_stmt_trace]

/-- Without the statements that fail, a run does the same and reports nothing. -/
theorem run_completed (hwritten : ∀ stmt ∈ stmts, stmt.Written) (machine : Machine) :
    (machine.run limits (machine.completed limits stmts)).events =
        (machine.run limits stmts).events.silenced ∧
      (machine.run limits (machine.completed limits stmts)).machine.bindings =
        (machine.run limits stmts).machine.bindings := by
  induction stmts generalizing machine with
  | nil => exact ⟨rfl, rfl⟩
  | cons stmt stmts ih =>
      obtain ⟨hfirst, hlater⟩ := List.forall_mem_cons.mp hwritten
      obtain ⟨hevents, hbindings⟩ := ih hlater (machine.execute limits stmt).2
      cases houtcome : (machine.execute limits stmt).1 with
      | ok events =>
          rw [completed_cons_of_ok houtcome, run_cons_of_written limits hfirst,
            run_cons_of_written limits hfirst, houtcome]
          refine ⟨?_, hbindings⟩
          simp only [Step.events, Transcript.silenced_append, hevents, silenced_of_ok houtcome]
      | error fault =>
          obtain ⟨diagnostic, hrun⟩ := run_singleton_of_error hfirst houtcome
          rw [completed_cons_of_error houtcome, run_cons machine stmt stmts, hrun]
          rw [execute_eq_of_error houtcome] at hevents hbindings ⊢
          -- The failure clears the last value, which the later statements never look at.
          obtain ⟨hsameEvents, hsameBindings⟩ := run_last limits machine.bindings machine.last none
            (completed limits ⟨machine.bindings, none⟩ stmts)
          exact ⟨hsameEvents.trans hevents, hsameBindings.trans hbindings⟩

/-- In a run of what was read off some tokens, a statement that fails leaves the
bindings and the printed text as they were before it.  The run of the others by
themselves completes without a failure, prints the same text and leaves the same
bindings.  Nothing fails if and only if there is no statement to leave out. -/
theorem failing_statements_do_nothing (reading limits : Limits) (tokens : List Token)
    (machine : Machine) :
    let stmts := (Program.ofTokens reading tokens).statements
    let whole := machine.run limits stmts
    let kept := machine.completed limits stmts
    let again := machine.run limits kept
    (∀ earlier stmt later fault, stmts = earlier ++ stmt :: later →
      ((machine.run limits earlier).machine.execute limits stmt).1 = .error fault →
      (machine.run limits (earlier ++ [stmt])).machine.bindings =
          (machine.run limits earlier).machine.bindings ∧
        (machine.run limits (earlier ++ [stmt])).events.output =
          (machine.run limits earlier).events.output) ∧
      whole.aborted = none ∧ again.aborted = none ∧ again.succeeded = true ∧
      again.events.output = whole.events.output ∧
      again.machine.bindings = whole.machine.bindings ∧
      (whole.succeeded = true ↔ kept = stmts) := by
  intro stmts whole kept again
  have hwritten : ∀ stmt ∈ stmts, stmt.Written := Program.written_statements reading tokens
  have hkept : ∀ stmt ∈ kept, stmt.Written := fun stmt hstmt =>
    hwritten stmt ((completed_sublist limits machine stmts).subset hstmt)
  obtain ⟨hevents, hbindings⟩ : again.events = whole.events.silenced ∧
      again.machine.bindings = whole.machine.bindings := run_completed hwritten machine
  refine ⟨?_, aborted_run hwritten machine, aborted_run hkept machine, ?_, ?_, hbindings, ?_⟩
  · intro earlier stmt later fault hstmts herror
    have hearlier : ∀ other ∈ earlier, other.Written := fun other hother =>
      hwritten other (by simp [hstmts, hother])
    have hstmt : stmt.Written := hwritten stmt (by simp [hstmts])
    obtain ⟨diagnostic, hrun⟩ := run_singleton_of_error hstmt herror
    rw [run_append, Execution.andThen, aborted_run hearlier machine, hrun]
    refine ⟨rfl, ?_⟩
    rw [Transcript.output_append]
    exact String.append_empty
  · rw [Execution.succeeded, Execution.failures, hevents, Transcript.diagnostics_silenced]
    rfl
  · rw [hevents, Transcript.output_silenced]
  · rw [completed_eq_iff, ← failures_eq_nil_iff hwritten, Execution.succeeded, List.isEmpty_iff]

/-- A redefinition and a `print` fail between three statements that do not, so the other
`print` shows what the first definition said. -/
theorem failing_statements_do_nothing_redefinition :
    let limits := Limits.standard 64
    let tokens := (Scan.ofSource
      "var a = true; var a = a + nil; print a; print b; var b = a;").tokens
    let machine : Machine := ⟨.empty, none⟩
    let stmts := (Program.ofTokens limits tokens).statements
    let name : Token := ⟨.identifier, "a", none, 1⟩
    let plus : Token := ⟨.plus, "+", none, 1⟩
    let second : Stmt := .declare name
      (some (.binary (.reference name) plus (.literal (some .nil))))
    let whole := machine.run limits stmts
    let kept := machine.completed limits stmts
    let again := machine.run limits kept
    stmts.length = 5 ∧ kept.length = 3 ∧ whole.events.output = "true\n" ∧
      (machine.run limits (stmts.take 1 ++ [second])).machine.bindings =
        (machine.run limits (stmts.take 1)).machine.bindings ∧
      again.succeeded = true ∧ again.events.output = whole.events.output ∧
      again.machine.bindings = whole.machine.bindings ∧ ¬ whole.succeeded = true := by
  intro limits tokens machine stmts name plus second whole kept again
  obtain ⟨hatomic, -, -, hsucceeded, houtput, hbindings, hall⟩ :=
    failing_statements_do_nothing limits limits tokens machine
  obtain ⟨hstmts, hkept, htext, hsplit, hfails⟩ : stmts.length = 5 ∧ kept.length = 3 ∧
      whole.events.output = "true\n" ∧ stmts = stmts.take 1 ++ second :: stmts.drop 2 ∧
      ((machine.run limits (stmts.take 1)).machine.execute limits second).1 =
        .error (.illegal plus) := by decide +kernel
  have hsecond := hatomic (stmts.take 1) second (stmts.drop 2) (.illegal plus) hsplit hfails
  refine ⟨hstmts, hkept, htext, hsecond.1, hsucceeded, houtput, hbindings, ?_⟩
  intro hwhole
  have hsame : kept = stmts := hall.mp hwhole
  rw [← hsame, hkept] at hstmts
  contradiction

end Machine

end Lumen
