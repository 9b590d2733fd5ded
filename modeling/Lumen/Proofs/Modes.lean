import Lumen.Proofs.Reporting
import Lumen.Proofs.StackUse

/-!
# The modes of a command

A command lists the tokens of a source, shows its statements, or evaluates them.
The modes come to their exit status in different ways: by the flag of the
reporter, by whether there are statements, and by the status of a run.  They
agree all the same.  A source with mistakes gets the same complaints from
showing and evaluating and nothing else, and what is shown of any other source
is what is evaluated, statement by statement.
-/

namespace Lumen

/-! ## What is written -/

namespace Transcript

theorem output_printed (texts : List String) :
    Transcript.output (texts.map Event.printed) = String.join texts := by
  rw [output, List.map_map]
  exact congrArg String.join (List.map_id texts)

theorem errors_printed (verbose : Bool) (texts : List String) :
    Transcript.errors verbose (texts.map Event.printed) = "" := by
  induction texts with
  | nil => rfl
  | cons text texts ih =>
      rw [errors, List.map_cons, List.map_cons, String.join_cons]
      exact String.empty_append.trans ih

end Transcript

namespace Command

variable {settings : Settings} {source : String}

/-! ## One mode at a time -/

/-- The flag of the reporter tells whether there are lexical mistakes. -/
theorem runSource_tokens (settings : Settings) (source : String) :
    runSource settings .tokens source =
      ⟨.exit (if (Scan.ofSource source).errors = [] then exitOk else exitData),
        (Scan.ofSource source).events ++
          ((Scan.ofSource source).tokens.map fun token => token.dump ++ "\n").map
            Event.printed⟩ := by
  have hstage : ∀ diagnostic ∈ (Scan.ofSource source).errors, diagnostic.stage ≠ .running := by
    intro diagnostic hmem
    rw [Scan.stage_errors hmem]
    decide
  have hreporter : (Session.start settings).reporter.recordAll (Scan.ofSource source).errors =
      ⟨(Scan.ofSource source).errors, !(Scan.ofSource source).errors.isEmpty, false⟩ :=
    Reporter.recordAll_mistakes hstage
  simp only [runSource, Session.tokens, hreporter, List.map_map]
  cases (Scan.ofSource source).errors <;> rfl

section Mistakes

variable (hsome : (Analysis.ofSource (.standard settings.maxDepth) source).errors ≠ [])
include hsome

/-- A source with mistakes is not shown. -/
theorem runSource_tree_of_mistakes :
    runSource settings .tree source =
      ⟨.exit exitData,
        (Analysis.ofSource (.standard settings.maxDepth) source).scan.events ++
          (Analysis.ofSource (.standard settings.maxDepth) source).program.events⟩ := by
  have hlimits : (Session.start settings).limits = .standard settings.maxDepth := rfl
  have hmistakes := List.isEmpty_eq_false_iff.mpr hsome
  simp only [runSource, Session.statements, hlimits, hmistakes, Bool.false_eq_true, if_false]

/-- Evaluation ends as showing does, with a note that nothing was run. -/
theorem runSource_evaluate_of_mistakes :
    runSource settings .evaluate source =
      ⟨.exit exitData, (runSource settings .tree source).events ++ [.noted .skipped]⟩ := by
  have hrun : (Session.start settings).run source = _ := Session.run_of_mistakes hsome
  rw [runSource_tree_of_mistakes hsome, runSource, hrun]
  rfl

end Mistakes

section NoMistakes

variable (hnone : (Analysis.ofSource (.standard settings.maxDepth) source).errors = [])
include hnone

/-- A source without mistakes is evaluated, and its failures decide the
status. -/
theorem runSource_evaluate_of_errors :
    runSource settings .evaluate source =
      ⟨.exit (if ((Session.start settings).execution source).failures = [] then exitOk
          else exitSoftware),
        (Analysis.ofSource (.standard settings.maxDepth) source).scan.events ++
          (Analysis.ofSource (.standard settings.maxDepth) source).program.events ++
          ((Session.start settings).execution source).events⟩ := by
  have hrun : (Session.start settings).run source = _ := Session.run_of_errors hnone
  rw [runSource, hrun]
  simp only [Execution.succeeded, List.isEmpty_iff]
  split <;> rfl

theorem events_tree_of_errors :
    (runSource settings .tree source).events =
      (Analysis.ofSource (.standard settings.maxDepth) source).scan.events ++
        (Analysis.ofSource (.standard settings.maxDepth) source).program.events ++
        (showStatements (some Limits.stackFrames)
          (Analysis.ofSource (.standard settings.maxDepth) source).program.statements).events := by
  have hlimits : (Session.start settings).limits = .standard settings.maxDepth := rfl
  simp only [runSource, Session.statements, hlimits, hnone, List.isEmpty_nil, if_true]
  rfl

end NoMistakes

/-- Statements that can be shown are shown one a line. -/
theorem events_showStatements {stack : Option Nat} {stmts : List Stmt}
    (hshown : ∀ stmt ∈ stmts, stmt.render stack = some stmt.text) :
    (showStatements stack stmts).events =
      (stmts.map fun stmt => stmt.text ++ "\n").map Event.printed := by
  induction stmts with
  | nil => rfl
  | cons stmt stmts ih =>
      obtain ⟨hfirst, hlater⟩ := List.forall_mem_cons.mp hshown
      rw [showStatements, hfirst]
      simp only [List.map_cons, ih hlater]

/-- Showing begins with the complaints of scanning, whatever comes of it. -/
theorem errors_tokens_prefix (settings : Settings) (source : String) (verbose : Bool) :
    ((runSource settings .tokens source).events.errors verbose).toList <+:
      ((runSource settings .tree source).events.errors verbose).toList := by
  have htokens : (runSource settings .tokens source).events.errors verbose =
      (Scan.ofSource source).events.errors verbose := by
    rw [runSource_tokens, Transcript.errors_append, Transcript.errors_printed, String.append_empty]
  have htree : ∃ later, (runSource settings .tree source).events =
      (Scan.ofSource source).events ++ later := by
    by_cases hnone : (Analysis.ofSource (.standard settings.maxDepth) source).errors = []
    · exact ⟨_, (events_tree_of_errors hnone).trans (List.append_assoc _ _ _)⟩
    · exact ⟨_, congrArg Outcome.events (runSource_tree_of_mistakes hnone)⟩
  obtain ⟨later, hlater⟩ := htree
  rw [htokens, hlater, Transcript.errors_append, String.toList_append]
  exact List.prefix_append _ _

/-- What is shown of a source without mistakes, and what its evaluation writes
and reports, goes by the same statements. -/
theorem tree_and_evaluation_of_errors
    (hnone : (Analysis.ofSource (.standard settings.maxDepth) source).errors = [])
    (hshown : (runSource settings .tree source).ending ≠ .overflow) :
    let limits := Limits.standard settings.maxDepth
    let stmts := (Analysis.ofSource limits source).program.statements
    let steps := Machine.start.trace limits stmts
    (runSource settings .tree source).ending = .exit exitOk ∧
      (∀ step ∈ steps, step.stmt.render (some Limits.stackFrames) = some step.stmt.text) ∧
      (runSource settings .tree source).events.output =
        String.join (steps.map fun step => step.stmt.text ++ "\n") ∧
      (runSource settings .evaluate source).events.output =
        Transcript.output (steps.flatMap Step.events) ∧
      (runSource settings .evaluate source).events.diagnostics =
        Transcript.diagnostics (steps.flatMap Step.events) := by
  intro limits stmts steps
  have hending := ending_tree_eq hnone
  have hall : stmts.all (fun stmt => (stmt.render (some Limits.stackFrames)).isSome) = true := by
    by_contra hsome
    exact hshown (hending.trans (if_neg hsome))
  have htext : ∀ stmt ∈ stmts, stmt.render (some Limits.stackFrames) = some stmt.text := by
    intro stmt hstmt
    have hsome := List.all_eq_true.mp hall stmt hstmt
    obtain ⟨shown, hrender⟩ := Option.isSome_iff_exists.mp hsome
    rw [hrender, Stmt.eq_text_of_render hrender]
  have hstmts : steps.map Step.stmt = stmts :=
    Machine.map_stmt_trace limits Machine.start stmts
  have hwritten : ∀ stmt ∈ stmts, stmt.Written :=
    fun stmt hstmt => Analysis.written_of_errors hnone hstmt
  have hevents : ((Session.start settings).execution source).events = steps.flatMap Step.events :=
    Machine.events_run hwritten Machine.start
  refine ⟨hending.trans (if_pos hall), ?_, ?_, ?_, ?_⟩
  · intro step hstep
    exact htext step.stmt (hstmts ▸ List.mem_map_of_mem hstep)
  · rw [events_tree_of_errors hnone, Transcript.output_append, Analysis.output_events,
      String.empty_append, events_showStatements htext, Transcript.output_printed]
    rw [← hstmts, List.map_map]
    rfl
  · rw [runSource_evaluate_of_errors hnone, Transcript.output_append, Analysis.output_events,
      String.empty_append, hevents]
  · rw [runSource_evaluate_of_errors hnone, Transcript.diagnostics_append,
      Analysis.diagnostics_events, hnone, List.nil_append, hevents]

/-- The three modes agree on what a mistake is.  Listing the tokens ends with
status 65 if and only if there are lexical mistakes, and lists all tokens in any
case.  Showing ends with status 65 if and only if evaluation does, and then both
complain in the same words and print nothing.  Otherwise, unless the stack is
exhausted, showing ends with status 0 and shows the statements that evaluation
executes, one after the other.  The complaints of listing begin those of
showing. -/
theorem modes_agree (settings : Settings) (source : String) :
    let limits := Limits.standard settings.maxDepth
    let scan := Scan.ofSource source
    let program := Program.ofTokens limits scan.tokens
    let steps := Machine.start.trace limits program.statements
    let tokens := runSource settings .tokens source
    let tree := runSource settings .tree source
    let evaluation := runSource settings .evaluate source
    tokens.ending = .exit (if scan.errors = [] then 0 else 65) ∧
      tokens.events.output = String.join (scan.tokens.map fun token => token.dump ++ "\n") ∧
      (∀ verbose, (tokens.events.errors verbose).toList <+: (tree.events.errors verbose).toList) ∧
      (evaluation.ending = .exit 65 ↔ scan.errors ≠ [] ∨ program.errors ≠ []) ∧
      (tree.ending = .exit 65 ↔ evaluation.ending = .exit 65) ∧
      (evaluation.ending = .exit 65 →
        tree.events.errors false = evaluation.events.errors false ∧
          tree.events.output = "" ∧ evaluation.events.output = "") ∧
      (tree.ending ≠ .overflow → evaluation.ending ≠ .exit 65 →
        tree.ending = .exit 0 ∧
          (∀ step ∈ steps, step.stmt.render (some Limits.stackFrames) = some step.stmt.text) ∧
          tree.events.output = String.join (steps.map fun step => step.stmt.text ++ "\n") ∧
          evaluation.events.output = Transcript.output (steps.flatMap Step.events) ∧
          evaluation.events.diagnostics = Transcript.diagnostics (steps.flatMap Step.events)) ∧
      (tree.ending ≠ .overflow → evaluation.ending = .exit 70 → tree.ending = .exit 0) := by
  intro limits scan program steps tokens tree evaluation
  have htokens : tokens = _ := runSource_tokens settings source
  have hdump : tokens.events.output =
      String.join (scan.tokens.map fun token => token.dump ++ "\n") := by
    rw [htokens, Transcript.output_append, Scan.events, Transcript.output_reported,
      Transcript.output_printed, String.empty_append]
  have hmistakes : (Analysis.ofSource limits source).errors ≠ [] ↔
      scan.errors ≠ [] ∨ program.errors ≠ [] := by
    rw [Analysis.errors, ne_eq, List.append_eq_nil_iff, Decidable.not_and_iff_or_not]
    rfl
  rw [← hmistakes]
  refine ⟨congrArg Outcome.ending htokens, hdump, errors_tokens_prefix settings source, ?_⟩
  by_cases hnone : (Analysis.ofSource limits source).errors = []
  · have hother : evaluation.ending ≠ .exit 65 := by
      have hending : evaluation.ending =
          .exit (if ((Session.start settings).execution source).failures = [] then exitOk
            else exitSoftware) :=
        congrArg Outcome.ending (runSource_evaluate_of_errors hnone)
      rw [hending]
      split <;> decide
    have htree : tree.ending ≠ .exit 65 := by
      have hending : tree.ending = _ := ending_tree_eq hnone
      rw [hending]
      split <;> decide
    have hboth : tree.ending ≠ .overflow → _ := tree_and_evaluation_of_errors hnone
    exact ⟨⟨fun hstatic => absurd hstatic hother, fun hsome => absurd hnone hsome⟩,
      ⟨fun hstatic => absurd hstatic htree, fun hstatic => absurd hstatic hother⟩,
      fun hstatic => absurd hstatic hother, fun hshown _ => hboth hshown,
      fun hshown _ => (hboth hshown).1⟩
  · have htree : tree = _ := runSource_tree_of_mistakes hnone
    have hevaluation : evaluation = ⟨.exit exitData, tree.events ++ [.noted .skipped]⟩ :=
      runSource_evaluate_of_mistakes hnone
    have houtput : tree.events.output = "" := by
      rw [htree]
      exact Analysis.output_events _
    have htexts : tree.events.errors false = evaluation.events.errors false := by
      rw [hevaluation, Transcript.errors_append]
      exact String.append_empty.symm
    have houtput' : evaluation.events.output = "" := by
      rw [hevaluation, Transcript.output_append, houtput]
      rfl
    have hstatic : evaluation.ending = .exit 65 := congrArg Outcome.ending hevaluation
    have hstatic' : tree.ending = .exit 65 := congrArg Outcome.ending htree
    have hdiffers : evaluation.ending ≠ .exit 70 := by
      rw [hstatic]
      decide
    exact ⟨⟨fun _ => hnone, fun _ => hstatic⟩, ⟨fun _ => hstatic, fun _ => hstatic'⟩,
      fun _ => ⟨htexts, houtput, houtput'⟩, fun _ hother => absurd hstatic hother,
      fun _ hfailed => absurd hfailed hdiffers⟩

/-- A variable that is not bound fails evaluation alone: the statements around
it run, and all of them are shown.  A mistake in a source is the same in both
modes. -/
theorem modes_agree_on_failures :
    let failing := "print true; print missing; print nil;"
    let mistaken := "print true; print;"
    let tree := runSource .standard .tree failing
    let evaluation := runSource .standard .evaluate failing
    (evaluation.ending = .exit 70 ∧ tree.ending = .exit 0 ∧
        tree.events.output = "(print true)\n(print missing)\n(print nil)\n" ∧
        evaluation.events.output = "true\nnil\n") ∧
      ((runSource .standard .evaluate mistaken).ending = .exit 65 ∧
        (runSource .standard .tree mistaken).ending = .exit 65 ∧
        (runSource .standard .tree mistaken).events.output = "") := by
  intro failing mistaken tree evaluation
  obtain ⟨-, -, -, -, -, -, hshown, hfailed⟩ := modes_agree .standard failing
  obtain ⟨-, -, -, -, hsame, hsilent, -, -⟩ := modes_agree .standard mistaken
  have htree : tree.ending ≠ .overflow := by decide +kernel
  have hevaluation : evaluation.ending = .exit 70 := by decide +kernel
  have hother : evaluation.ending ≠ .exit 65 := by
    rw [hevaluation]
    decide
  have hstatic : (runSource .standard .evaluate mistaken).ending = .exit 65 := by decide +kernel
  obtain ⟨-, -, htexts, houtput, -⟩ := hshown htree hother
  refine ⟨⟨hevaluation, hfailed htree hevaluation, ?_, ?_⟩, hstatic, hsame.mpr hstatic,
    (hsilent hstatic).2.1⟩
  · rw [htexts]
    decide +kernel
  · rw [houtput]
    decide +kernel

end Command

end Lumen
