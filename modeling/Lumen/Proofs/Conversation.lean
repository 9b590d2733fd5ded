import Mathlib.Data.List.TakeWhile
import Lumen.Repl
import Lumen.Proofs.Blame
import Lumen.Proofs.Memory

/-!
# Conversations

A conversation is a list of turns, one for each line in front of the first that
asks to leave.  A turn shows what the run of its line shows and then, if all
went well and the line ends with an expression, the value of that expression.
Nothing but the settings and the bindings goes from one turn to the next.  So
lines that leave the bindings alone (blank ones, listings, sources with
mistakes) can be taken out, and all other turns stay as they were.
-/

namespace Lumen

/-! ## The value that a run leaves -/

namespace Machine

variable {limits : Limits} {machine : Machine}

/-- Only an expression statement leaves a value. -/
theorem last_execute {stmt : Stmt} {value : Value} :
    (machine.execute limits stmt).2.last = some value ↔
      ∃ expr, stmt = .expression expr ∧ expr.evaluate limits machine.bindings = .ok value := by
  rw [execute, Stmt.effect_eq]
  cases stmt with
  | print expr =>
      simp only [Stmt.expr?]
      cases expr.evaluate limits machine.bindings <;>
        simp [Except.map, Stmt.effectOf, Effect.value?]
  | expression expr =>
      simp only [Stmt.expr?]
      cases hvalue : expr.evaluate limits machine.bindings <;>
        simp [Except.map, Stmt.effectOf, Effect.value?, hvalue]
  | declare name initializer =>
      cases initializer with
      | none => simp [Stmt.expr?, Stmt.effectOf, Effect.value?]
      | some expr =>
          simp only [Stmt.expr?]
          cases expr.evaluate limits machine.bindings <;>
            simp [Except.map, Stmt.effectOf, Effect.value?]

/-- A run leaves a value if and only if its last statement is an expression that
can be evaluated where the statements in front of it lead. -/
theorem last_run {stmts : List Stmt} (hwritten : ∀ stmt ∈ stmts, stmt.Written)
    (bindings : Bindings) {value : Value} :
    (run limits ⟨bindings, none⟩ stmts).machine.last = some value ↔
      ∃ earlier expr, stmts = earlier ++ [.expression expr] ∧
        expr.evaluate limits (after limits ⟨bindings, none⟩ earlier).bindings = .ok value := by
  rw [machine_run hwritten]
  rcases List.eq_nil_or_concat stmts with rfl | ⟨earlier, stmt, rfl⟩
  · simp [after]
  · rw [List.concat_eq_append, after_concat, last_execute]
    constructor
    · rintro ⟨expr, rfl, hvalue⟩
      exact ⟨earlier, expr, rfl, hvalue⟩
    · rintro ⟨earlier', expr, hstmts, hvalue⟩
      obtain ⟨rfl, hstmt⟩ := List.append_inj' hstmts rfl
      exact ⟨expr, (List.cons.inj hstmt).1, hvalue⟩

/-- Where no statement fails, an expression at the end has a value. -/
theorem exists_value_of_completes {earlier : List Stmt} {expr : Expr}
    (hcompletes : ∀ step ∈ machine.trace limits (earlier ++ [.expression expr]),
      step.completes = true) :
    ∃ value, expr.evaluate limits (machine.after limits earlier).bindings = .ok value := by
  rw [trace_concat] at hcompletes
  have hlast := hcompletes _ (List.mem_append_right _ List.mem_cons_self)
  cases hvalue : expr.evaluate limits (machine.after limits earlier).bindings with
  | ok value => exact ⟨value, rfl⟩
  | error fault =>
      simp [Step.completes, execute, Stmt.effect, hvalue, Except.isOk, Except.toBool] at hlast

end Machine

namespace Repl

variable {session : Session} {line : String}

/-! ## Turns -/

/-- Whether a line, without the blanks around it, is a word that leaves. -/
def leaves (line : String) : Bool :=
  Text.strip line == "exit" || Text.strip line == "quit"

/-- The session behind a line; a line that leaves changes nothing. -/
def follow (session : Session) (line : String) : Session :=
  (answer session line).2.getD session

def turns (session : Session) : List String → List Transcript
  | [] => []
  | line :: lines => (answer session line).1 :: turns (follow session line) lines

/-- The lines in front of the first that leaves. -/
def processed (lines : List String) : List String :=
  lines.takeWhile fun line => !leaves line

theorem leaves_iff : leaves line = true ↔ Text.strip line = "exit" ∨ Text.strip line = "quit" := by
  simp [leaves]

theorem processed_of_leaves (hleaves : leaves line = true) (lines : List String) :
    processed (line :: lines) = [] := by
  rw [processed, List.takeWhile_cons, hleaves]
  rfl

theorem processed_of_stays (hstays : leaves line = false) (lines : List String) :
    processed (line :: lines) = line :: processed lines := by
  rw [processed, List.takeWhile_cons, hstays]
  rfl

theorem request_of_leaves (hleaves : leaves line = true) : request line = .leave := by
  have hword := leaves_iff.mp hleaves
  have hsome : ¬ Text.strip line = "" := by
    rcases hword with hword | hword <;> rw [hword] <;> decide
  simp only [request, if_neg hsome, if_pos hword]

theorem request_ne_leave (hstays : leaves line = false) : request line ≠ .leave := by
  have hword := mt leaves_iff.mpr (Bool.eq_false_iff.mp hstays)
  simp only [request, if_neg hword]
  split
  · simp
  · split <;> simp

/-- A line that is no command is a source, blanks included. -/
theorem request_of_source (hstays : leaves line = false) (hsome : Text.strip line ≠ "")
    (hlisting : Text.strip line ≠ ":env") : request line = .run line := by
  have hword := mt leaves_iff.mpr (Bool.eq_false_iff.mp hstays)
  simp only [request, if_neg hword, if_neg hsome, if_neg hlisting]

/-- A source is the line as it stands, blanks and all. -/
theorem eq_of_request_run {source : String} (hrequest : request line = .run source) :
    source = line := by
  simp only [request] at hrequest
  repeat' split at hrequest
  all_goals cases hrequest
  rfl

theorem answer_of_leaves (session : Session) (hleaves : leaves line = true) :
    answer session line = ([.printed farewell], none) := by
  rw [answer, request_of_leaves hleaves]

/-- The session goes on with what the line has made of it. -/
theorem answer_snd (session : Session) (hstays : leaves line = false) :
    (answer session line).2 = some (follow session line) := by
  have hrequest := request_ne_leave hstays
  rw [follow, answer]
  cases hcase : request line with
  | leave => exact absurd hcase hrequest
  | nothing => rfl
  | listBindings => rfl
  | run source => rfl

/-- A conversation asks for every line and shows the turns of those that are
processed. -/
theorem converse_eq (session : Session) (lines : List String) :
    converse session lines =
      ((turns session (processed lines)).flatMap fun events => .printed prompt :: events) ++
        [.printed prompt,
          .printed (if lines.any leaves then farewell else "\n" ++ farewell)] := by
  induction lines generalizing session with
  | nil => rfl
  | cons line lines ih =>
      cases hleaves : leaves line with
      | true =>
          rw [converse, answer_of_leaves session hleaves, processed_of_leaves hleaves,
            List.any_cons, hleaves]
          rfl
      | false =>
          have hanswer : answer session line =
              ((answer session line).1, some (follow session line)) :=
            Prod.ext rfl (answer_snd session hleaves)
          rw [converse, hanswer, processed_of_stays hleaves, turns, List.flatMap_cons,
            List.any_cons, hleaves, Bool.false_or, List.append_assoc, ← ih]

/-- Later lines are answered by the session that the earlier ones leave. -/
theorem turns_append (session : Session) (before after : List String) :
    turns session (before ++ after) =
      turns session before ++ turns (before.foldl follow session) after := by
  induction before generalizing session with
  | nil => rfl
  | cons line before ih => rw [List.cons_append, turns, ih, turns]; rfl

theorem length_turns (session : Session) (lines : List String) :
    (turns session lines).length = lines.length := by
  induction lines generalizing session with
  | nil => rfl
  | cons line lines ih => rw [turns, List.length_cons, ih, List.length_cons]

/-- Every line is answered where the lines in front of it lead. -/
theorem getElem?_turns (session : Session) (before after : List String) (line : String) :
    (turns session (before ++ line :: after))[before.length]? =
      some (answer (before.foldl follow session) line).1 := by
  have hlength := length_turns session before
  rw [turns_append, ← hlength, List.getElem?_append_right (Nat.le_refl _), Nat.sub_self, turns]
  rfl

theorem settings_follow (session : Session) (line : String) :
    (follow session line).settings = session.settings := by
  rw [follow, answer]
  cases request line with
  | leave => rfl
  | nothing => rfl
  | listBindings => rfl
  | run source => exact session.settings_perform (.run source)

/-! ## Echoes -/

/-- The value that is shown behind what the run of a line shows: there is one if
and only if the line has no mistake, none of its statements fails and the last of
them is an expression, and it is the value of this expression where the
statements in front of it lead. -/
structure Echoed (session : Session) (line : String) (echoed : Option Value) : Prop where
  isSome_iff :
    echoed.isSome = true ↔
      (Analysis.ofSource session.limits line).errors = [] ∧
      (∀ step ∈ Machine.trace session.limits ⟨session.machine.bindings, none⟩
        (Analysis.ofSource session.limits line).program.statements, step.completes = true) ∧
      ∃ earlier expr, (Analysis.ofSource session.limits line).program.statements =
        earlier ++ [.expression expr]
  value : ∀ value earlier expr, echoed = some value →
    (Analysis.ofSource session.limits line).program.statements = earlier ++ [.expression expr] →
    expr.evaluate session.limits
      (Machine.after session.limits ⟨session.machine.bindings, none⟩ earlier).bindings = .ok value

def echoEvents (echoed : Option Value) : Transcript :=
  echoed.toList.map fun value => .printed (value.display ++ "\n")

/-- A line without mistakes echoes the value that its run leaves, unless a
statement failed. -/
theorem echoed_of_errors (hnone : (Analysis.ofSource session.limits line).errors = []) :
    Echoed session line
      (if (session.execution line).failures = [] then (session.execution line).machine.last
        else none) := by
  have hwritten : ∀ stmt ∈ (Analysis.ofSource session.limits line).program.statements,
      stmt.Written := Program.written_statements _ _
  have hfailures : (session.execution line).failures = [] ↔ _ :=
    Machine.failures_eq_nil_iff hwritten ⟨session.machine.bindings, none⟩
  have hlast : ∀ value, (session.execution line).machine.last = some value ↔ _ :=
    fun value => Machine.last_run hwritten session.machine.bindings
  constructor
  · constructor
    · intro hsome
      split at hsome
      next hcompletes =>
        obtain ⟨value, hvalue⟩ := Option.isSome_iff_exists.mp hsome
        obtain ⟨earlier, expr, hstmts, -⟩ := (hlast value).mp hvalue
        exact ⟨hnone, hfailures.mp hcompletes, earlier, expr, hstmts⟩
      next => cases hsome
    · rintro ⟨-, hcompletes, earlier, expr, hstmts⟩
      rw [if_pos (hfailures.mpr hcompletes)]
      rw [hstmts] at hcompletes
      obtain ⟨value, hvalue⟩ := Machine.exists_value_of_completes hcompletes
      exact Option.isSome_iff_exists.mpr ⟨value, (hlast value).mpr ⟨earlier, expr, hstmts, hvalue⟩⟩
  · intro value earlier expr hechoed hstmts
    split at hechoed
    next =>
      obtain ⟨earlier', expr', hstmts', hvalue⟩ := (hlast value).mp hechoed
      obtain ⟨rfl, hexpr⟩ := List.append_inj' (hstmts.symm.trans hstmts') rfl
      cases hexpr
      exact hvalue
    next => cases hechoed

/-- A line with a mistake echoes nothing. -/
theorem echoed_of_mistakes (hsome : (Analysis.ofSource session.limits line).errors ≠ []) :
    Echoed session line none where
  isSome_iff := by simp [hsome]
  value := by simp

/-- A line that is no command shows what its run shows, and its echo. -/
theorem exists_echoed (session : Session) (hstays : leaves line = false)
    (hsome : Text.strip line ≠ "") (hlisting : Text.strip line ≠ ":env") :
    ∃ echoed, (answer session line).1 = (session.run line).2.1 ++ echoEvents echoed ∧
      Echoed session line echoed := by
  have hanswer : (answer session line).1 =
      (session.run line).2.1 ++ echo (session.run line).1 (session.run line).2.2.machine.last := by
    rw [answer, request_of_source hstays hsome hlisting]
  by_cases hnone : (Analysis.ofSource session.limits line).errors = []
  · refine ⟨_, ?_, echoed_of_errors hnone⟩
    have hmachine : (session.run line).2.2.machine = (session.execution line).machine := by
      rw [Session.run_of_errors hnone]
    rw [hanswer, Session.status_run hnone, hmachine]
    split
    · cases (session.execution line).machine.last <;> rfl
    · rfl
  · refine ⟨none, ?_, echoed_of_mistakes hnone⟩
    rw [hanswer, Session.run_of_mistakes hnone]
    rfl

/-! ## Diagnostics -/

theorem mem_diagnostics_run {diagnostic : Diagnostic}
    (hmem : diagnostic ∈ (answer session line).1.diagnostics) :
    diagnostic ∈ (session.run line).2.1.diagnostics := by
  cases hrequest : request line with
  | run source =>
      obtain rfl := eq_of_request_run hrequest
      have hecho : (echo (session.run source).1 (session.run source).2.2.machine.last).diagnostics =
          [] := by
        cases (session.run source).1 <;> cases (session.run source).2.2.machine.last <;> rfl
      simp only [answer, hrequest] at hmem
      rwa [Transcript.diagnostics_append, hecho, List.append_nil] at hmem
  | _ =>
      simp only [answer, hrequest] at hmem
      cases hmem

/-- Every diagnostic stands on the first line, since each line is a source by
itself. -/
theorem line_eq_one_of_mem_turns {lines : List String}
    (hlines : ∀ line ∈ lines, '\n' ∉ line.toList) {events : Transcript}
    (hturn : events ∈ turns session lines) {diagnostic : Diagnostic}
    (hmem : diagnostic ∈ events.diagnostics) : diagnostic.line = 1 := by
  induction lines generalizing session with
  | nil => cases hturn
  | cons line lines ih =>
      obtain ⟨hfirst, hlater⟩ := List.forall_mem_cons.mp hlines
      rcases List.mem_cons.mp hturn with rfl | hturn
      · obtain ⟨hlow, hhigh⟩ := Session.onLine_run (mem_diagnostics_run hmem)
        rw [List.count_eq_zero_of_not_mem hfirst] at hhigh
        omega
      · exact ih hlater hturn

/-- Whatever a conversation reports, a turn reports. -/
theorem exists_turn {lines : List String} {diagnostic : Diagnostic}
    (hmem : diagnostic ∈ (converse session lines).diagnostics) :
    ∃ events ∈ turns session (processed lines), diagnostic ∈ events.diagnostics := by
  rw [converse_eq, Transcript.diagnostics_append] at hmem
  rcases List.mem_append.mp hmem with hturns | hclosing
  · obtain ⟨event, hevent, hreport⟩ := List.mem_filterMap.mp hturns
    obtain ⟨events, hturn, hevent⟩ := List.mem_flatMap.mp hevent
    rcases List.mem_cons.mp hevent with rfl | hevent
    · cases hreport
    · exact ⟨events, hturn, List.mem_filterMap.mpr ⟨event, hevent, hreport⟩⟩
  · cases hclosing

/-! ## Lines that can be taken out -/

/-- A line that leaves the bindings alone: it is blank, asks for a listing, or is
a source with mistakes.  The words that leave are no sources. -/
def Idle (limits : Limits) (line : String) : Prop :=
  Text.strip line = "" ∨ Text.strip line = ":env" ∨
    (leaves line = false ∧ (Analysis.ofSource limits line).errors ≠ [])

/-- Two sessions that go on in the same way. -/
structure Agree (first second : Session) : Prop where
  settings : first.settings = second.settings
  bindings : first.machine.bindings = second.machine.bindings

theorem Agree.trans {first second third : Session} (hfirst : Agree first second)
    (hsecond : Agree second third) : Agree first third :=
  ⟨hfirst.settings.trans hsecond.settings, hfirst.bindings.trans hsecond.bindings⟩

def keep {α : Type} (marks : List Bool) (items : List α) : List α :=
  ((items.zip marks).filter Prod.snd).map Prod.fst

instance (limits : Limits) (line : String) : Decidable (Idle limits line) :=
  inferInstanceAs (Decidable (_ ∨ _ ∨ _))

theorem leaves_of_idle {limits : Limits} (hidle : Idle limits line) : leaves line = false := by
  rcases hidle with hblank | hlisting | ⟨hstays, -⟩
  · simp [leaves, hblank]
  · simp [leaves, hlisting]
  · exact hstays

theorem limits_eq_of_settings {first second : Session}
    (hsettings : first.settings = second.settings) : first.limits = second.limits := by
  rw [Session.limits, Session.limits, hsettings]

/-- Sessions that agree answer alike, and agree afterwards. -/
theorem Agree.answer {first second : Session} (hagree : Agree first second) (line : String) :
    (answer first line).1 = (answer second line).1 ∧
      Agree (follow first line) (follow second line) := by
  obtain ⟨hsettings, hbindings⟩ := hagree
  rw [follow, follow, Repl.answer, Repl.answer]
  cases request line with
  | nothing => exact ⟨rfl, hsettings, hbindings⟩
  | leave => exact ⟨rfl, hsettings, hbindings⟩
  | listBindings => exact ⟨by rw [hbindings], hsettings, hbindings⟩
  | run source =>
      simp only [Session.run_eq_of_bindings hsettings hbindings source]
      exact ⟨trivial, rfl, rfl⟩

/-- An idle line leaves a session that goes on in the same way. -/
theorem agree_follow (hidle : Idle session.limits line) : Agree (follow session line) session := by
  refine ⟨settings_follow session line, ?_⟩
  rw [follow, answer]
  rcases hidle with hblank | hlisting | ⟨-, hsome⟩
  · simp only [request, hblank, if_true, Option.getD_some]
  · have hrequest : request line = .listBindings := by
      simp only [request, hlisting]
      rw [if_neg (by decide), if_neg (by decide), if_pos trivial]
    rw [hrequest]
    rfl
  · cases hrequest : request line with
    | run source =>
        obtain rfl := eq_of_request_run hrequest
        simp only [Session.machine_of_mistakes hsome, Option.getD_some]
    | _ => rfl

/-- What the other lines show and leave, if unmarked lines are idle and taken
out. -/
theorem turns_keep {first second : Session} (hagree : Agree first second) {marks : List Bool}
    {lines : List String} (hlength : marks.length = lines.length)
    (hidle : ∀ entry ∈ lines.zip marks, entry.2 = false → Idle first.limits entry.1) :
    turns second (processed (keep marks lines)) = keep marks (turns first (processed lines)) ∧
      Agree ((processed lines).foldl follow first)
        ((processed (keep marks lines)).foldl follow second) := by
  induction lines generalizing marks first second with
  | nil => exact ⟨rfl, hagree⟩
  | cons line lines ih =>
      cases marks with
      | nil => cases hlength
      | cons mark marks =>
          obtain ⟨hfirst, hlater⟩ := List.forall_mem_cons.mp hidle
          have hlimits : (follow first line).limits = first.limits :=
            limits_eq_of_settings (settings_follow first line)
          rw [← hlimits] at hlater
          cases mark with
          | false =>
              have hline : Idle first.limits line := hfirst rfl
              have hnext : Agree (follow first line) second := (agree_follow hline).trans hagree
              rw [processed_of_stays (leaves_of_idle hline)]
              exact ih hnext (Nat.succ.inj hlength) hlater
          | true =>
              have hkeep : keep (true :: marks) (line :: lines) = line :: keep marks lines := rfl
              obtain ⟨hanswer, hnext⟩ := hagree.answer line
              cases hleaves : leaves line with
              | true =>
                  rw [hkeep, processed_of_leaves hleaves, processed_of_leaves hleaves]
                  exact ⟨rfl, hagree⟩
              | false =>
                  obtain ⟨hturns, hfinal⟩ := ih hnext (Nat.succ.inj hlength) hlater
                  rw [hkeep, processed_of_stays hleaves, processed_of_stays hleaves, turns, turns,
                    hturns, ← hanswer]
                  exact ⟨rfl, hfinal⟩

/-- A conversation processes the lines in front of the first that leaves, and
shows a turn for each.  A line that is neither blank nor a listing shows what its
run shows, followed by an echo if and only if all went well and the line ends with
an expression.  All diagnostics are on the first line.  If any lines that are
blank, ask for a listing or have mistakes are taken out, the other lines show the
same and the bindings are the same in the end. -/
theorem conversation_survives_mistakes (settings : Settings) (lines : List String)
    (hlines : ∀ line ∈ lines, '\n' ∉ line.toList) :
    let start := Session.start settings
    let shown := turns start (processed lines)
    transcript settings lines =
        .printed banner :: (shown.flatMap fun events => .printed prompt :: events) ++
          [.printed prompt,
            .printed (if lines.any leaves then farewell else "\n" ++ farewell)] ∧
      (∀ before line after, processed lines = before ++ line :: after →
        Text.strip line ≠ "" → Text.strip line ≠ ":env" →
        let session := before.foldl follow start
        follow session line = (session.run line).2.2 ∧
          ∃ echoed, shown[before.length]? = some ((session.run line).2.1 ++ echoEvents echoed) ∧
            Echoed session line echoed) ∧
      (∀ diagnostic ∈ (transcript settings lines).diagnostics, diagnostic.line = 1) ∧
      ∀ marks : List Bool, marks.length = lines.length →
        (∀ entry ∈ lines.zip marks, entry.2 = false → Idle start.limits entry.1) →
        turns start (processed (keep marks lines)) = keep marks shown ∧
          ((processed (keep marks lines)).foldl follow start).machine.bindings =
            ((processed lines).foldl follow start).machine.bindings := by
  intro start shown
  refine ⟨?_, ?_, ?_, ?_⟩
  · rw [transcript, converse_eq, List.cons_append]
  · intro before line after hprocessed hsome hlisting session
    have hstays : leaves line = false := by
      have hmem : line ∈ processed lines := by
        rw [hprocessed]
        exact List.mem_append_right _ List.mem_cons_self
      simpa using List.mem_takeWhile_imp hmem
    obtain ⟨echoed, hanswer, hechoed⟩ := exists_echoed session hstays hsome hlisting
    refine ⟨?_, echoed, ?_, hechoed⟩
    · rw [follow, answer, request_of_source hstays hsome hlisting]
      rfl
    · rw [← hanswer, ← getElem?_turns start before after line, ← hprocessed]
  · intro diagnostic hmem
    have hconverse : diagnostic ∈ (converse start lines).diagnostics := hmem
    obtain ⟨events, hturn, hreport⟩ := exists_turn hconverse
    refine line_eq_one_of_mem_turns (fun line hline => ?_) hturn hreport
    exact hlines line ((List.takeWhile_sublist _).subset hline)
  · intro marks hlength hidle
    obtain ⟨hturns, hfinal⟩ := turns_keep ⟨rfl, rfl⟩ hlength hidle
    exact ⟨hturns, hfinal.bindings.symm⟩

/-- A conversation with a mistake, a listing, a failure in front of an expression
and a blank line, which goes on behind the line that leaves. -/
theorem conversation_survives_sample :
    let start := Session.start .standard
    let lines := ["var a = nil;", "print ((;", ":env", "a;", "print b; a;", "  ",
      "a; a == nil;", " exit", "print a;"]
    let marks := [true, false, false, true, true, false, true, true, true]
    (∀ line ∈ lines, '\n' ∉ line.toList) ∧
      (turns start (processed lines)).map Transcript.output =
        ["", "", "a = nil\n", "nil\n", "", "", "true\n"] ∧
      (transcript .standard lines).diagnostics.length = 2 ∧
      (∀ diagnostic ∈ (transcript .standard lines).diagnostics, diagnostic.line = 1) ∧
      processed (keep marks lines) = ["var a = nil;", "a;", "print b; a;", "a; a == nil;"] ∧
      turns start (processed (keep marks lines)) = keep marks (turns start (processed lines)) := by
  intro start lines marks
  have hlines : ∀ line ∈ lines, '\n' ∉ line.toList := by decide +kernel
  have hidle : ∀ entry ∈ lines.zip marks, entry.2 = false → Idle start.limits entry.1 := by
    decide +kernel
  obtain ⟨-, -, hfirst, hkept⟩ := conversation_survives_mistakes .standard lines hlines
  exact ⟨hlines, by decide +kernel, by decide +kernel, hfirst, by decide +kernel,
    (hkept marks rfl hidle).1⟩

end Repl

end Lumen
