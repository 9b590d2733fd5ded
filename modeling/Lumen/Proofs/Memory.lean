import Lumen.Proofs.Reporting
import Lumen.Proofs.Variants

/-!
# What a session remembers

Of all that happens in a session only the bindings matter to what comes later.
A run clears the reporter and the last value before it begins.  An evaluator
may also keep the depth of nesting in a counter that outlives a run; it takes
back every level that it enters, whether the level ends with a value or with a
fault, so the counter is back at zero when a call ends.  Evaluation with such a
counter is therefore evaluation under a load, and two sessions whose names have
the same values cannot be told apart by any further call.
-/

namespace Lumen

/-! ## Bindings are determined by their values -/

namespace Bindings

theorem lookup_eq_none_of_lt {entries : List (String × Value)} {name : String}
    (hless : ∀ entry ∈ entries, name < entry.1) : entries.lookup name = none := by
  apply List.lookup_eq_none_iff.mpr
  intro entry hentry
  exact bne_iff_ne.mpr (Std.ne_of_lt (hless entry hentry))

/-- A name in front of all others has no value in an ordered list. -/
theorem lookup_eq_none_of_ordered {key name : String} {value : Value}
    {entries : List (String × Value)} (hordered : Ordered ((key, value) :: entries))
    (hless : name < key) : ((key, value) :: entries).lookup name = none := by
  apply lookup_eq_none_of_lt
  intro entry hentry
  rcases List.mem_cons.mp hentry with rfl | hlater
  · exact hless
  · exact String.lt_trans hless ((List.pairwise_cons.mp hordered).1 entry hlater)

/-- Ordered entries are determined by the values that they give. -/
theorem entries_eq_of_lookup {first second : List (String × Value)} (hfirst : Ordered first)
    (hsecond : Ordered second) (hsame : ∀ name, first.lookup name = second.lookup name) :
    first = second := by
  induction first generalizing second with
  | nil =>
      cases second with
      | nil => rfl
      | cons entry second =>
          have hentry := hsame entry.1
          rw [lookup_entry, if_pos rfl] at hentry
          cases hentry
  | cons entry first ih =>
      obtain ⟨key, value⟩ := entry
      have hkey := hsame key
      rw [lookup_entry, if_pos rfl] at hkey
      cases second with
      | nil => cases hkey
      | cons entry' second =>
          obtain ⟨key', value'⟩ := entry'
          have hkey' := hsame key'
          rw [lookup_entry key' key', if_pos rfl] at hkey'
          -- Neither first name is in front of the other, as each has a value in both lists.
          have hequal : key = key' := by
            apply String.le_antisymm
            · apply String.not_lt.mp
              intro hless
              rw [lookup_eq_none_of_ordered hfirst hless] at hkey'
              cases hkey'
            · apply String.not_lt.mp
              intro hless
              rw [lookup_eq_none_of_ordered hsecond hless] at hkey
              cases hkey
          subst hequal
          rw [lookup_entry, if_pos rfl] at hkey
          obtain rfl := Option.some.inj hkey
          have hfirst' := List.pairwise_cons.mp hfirst
          have hsecond' := List.pairwise_cons.mp hsecond
          rw [ih hfirst'.2 hsecond'.2]
          intro name
          by_cases hname : name = key
          · subst hname
            rw [lookup_eq_none_of_lt hfirst'.1, lookup_eq_none_of_lt hsecond'.1]
          · have hlater := hsame name
            rwa [lookup_entry, lookup_entry, if_neg hname, if_neg hname] at hlater

/-- Bindings with the same value for every name are the same. -/
theorem eq_of_get? {first second : Bindings}
    (hsame : ∀ name, first.get? name = second.get? name) : first = second := by
  obtain ⟨entries, hordered⟩ := first
  obtain ⟨entries', hordered'⟩ := second
  obtain rfl := entries_eq_of_lookup hordered hordered' hsame
  rfl

end Bindings

/-! ## A depth counter that is kept -/

namespace Expr

variable {limits : Limits} {bindings : Bindings}

/-- Counts one more level while the parts of a nesting expression are evaluated,
and takes it back in the end, whatever the outcome. -/
def counting (limits : Limits) (frames counter : Nat) (expr : Expr)
    (inside : Nat → Except RuntimeFault Value × Nat) : Except RuntimeFault Value × Nat :=
  let entered := counter + 1
  let (outcome, left) :=
    if limits.depth < entered then (.error (.tooDeep expr.firstToken?), entered)
    else if !stackHolds limits.stack (frames + evaluateFrames) then (.error .overflow, entered)
    else inside entered
  (outcome, left - 1)

/-- Evaluates an operand of a chain, if the stack holds its frames. -/
def countingOperand (limits : Limits) (frames counter : Nat)
    (inside : Except RuntimeFault Value × Nat) : Except RuntimeFault Value × Nat :=
  if !stackHolds limits.stack frames then (.error .overflow, counter) else inside

/-- Evaluates an expression with a depth counter; gives the counter that is left
beside the outcome. -/
def evaluateCounting (limits : Limits) (bindings : Bindings) (frames counter : Nat) :
    Expr → Except RuntimeFault Value × Nat
  | literal value => (.ok (value.getD .nil), counter)
  | reference name => (bindings.value name, counter)
  | grouping inner paren =>
      counting limits frames counter (grouping inner paren) fun entered =>
        evaluateCounting limits bindings (frames + evaluateFrames) entered inner
  | unary operator operand =>
      counting limits frames counter (unary operator operand) fun entered =>
        match evaluateCounting limits bindings (frames + evaluateFrames) entered operand with
        | (.ok value, left) => (applyUnary operator value, left)
        | (.error fault, left) => (.error fault, left)
  | binary left operator right =>
      let frames' := frames + left.leftFrames evaluateFrames
      match countingOperand limits frames' counter
          (evaluateCounting limits bindings frames' counter left) with
      | (.error fault, after) => (.error fault, after)
      | (.ok value, after) =>
          match countingOperand limits (frames + evaluateFrames) after
              (evaluateCounting limits bindings (frames + evaluateFrames) after right) with
          | (.error fault, last) => (.error fault, last)
          | (.ok operand, last) => (applyBinary operator value operand, last)

/-- The counter is what it was, and the limit applies to the level that it
counts. -/
theorem counting_eq (frames counter : Nat) (expr : Expr)
    {inside : Nat → Except RuntimeFault Value × Nat} {outcome : Except RuntimeFault Value}
    (hinside : inside (counter + 1) = (outcome, counter + 1)) :
    counting limits frames counter expr inside =
      (within limits ⟨counter, frames⟩ expr outcome, counter) := by
  have hdepth : (!limits.holdsDepth (Load.deeper ⟨counter, frames⟩ evaluateFrames)) = true ↔
      limits.depth < (counter + 1 : Nat) := by
    rw [Limits.holdsDepth, Bool.not_eq_true', decide_eq_false_iff_not, Int.not_le]
    rfl
  have hframes : limits.holdsFrames (Load.deeper ⟨counter, frames⟩ evaluateFrames) =
      stackHolds limits.stack (frames + evaluateFrames) := rfl
  simp only [counting, within, hframes, hdepth, hinside]
  split
  · rfl
  · split <;> rfl

/-- An operand costs frames, and no level of the counter. -/
theorem countingOperand_eq {frames counter : Nat} {operand : Expr}
    (hoperand : evaluateCounting limits bindings frames counter operand =
      (evaluateAt limits bindings ⟨counter, frames⟩ operand, counter)) :
    countingOperand limits frames counter
        (evaluateCounting limits bindings frames counter operand) =
      (evaluateOperand limits bindings ⟨counter, frames⟩ operand, counter) := by
  rw [countingOperand, evaluateOperand, Limits.holdsFrames, hoperand]
  split <;> rfl

/-- Evaluation with a counter is evaluation under the load that the counter
tells, and it leaves the counter as it was. -/
theorem evaluateCounting_eq (expr : Expr) (frames counter : Nat) :
    evaluateCounting limits bindings frames counter expr =
      (evaluateAt limits bindings ⟨counter, frames⟩ expr, counter) := by
  induction expr generalizing frames counter with
  | binary left operator right ihLeft ihRight =>
      simp only [evaluateCounting, countingOperand_eq (ihLeft _ _), evaluateAt_binary,
        evaluateLeft, Load.sideways]
      cases evaluateOperand limits bindings
          ⟨counter, frames + left.leftFrames evaluateFrames⟩ left with
      | error fault => rfl
      | ok value =>
          simp only [countingOperand_eq (ihRight _ _), Except.bind, applyRight, Load.sideways]
          cases evaluateOperand limits bindings ⟨counter, frames + evaluateFrames⟩ right <;> rfl
  | grouping inner paren ih =>
      rw [evaluateCounting, evaluateAt_grouping]
      exact counting_eq frames counter (.grouping inner paren) (ih _ _)
  | literal value => rw [evaluateCounting, evaluateAt]
  | unary operator operand ih =>
      rw [evaluateCounting, evaluateAt_unary]
      apply counting_eq frames counter (.unary operator operand)
      simp only [ih, Load.deeper]
      cases evaluateAt limits bindings ⟨counter + 1, frames + evaluateFrames⟩ operand <;> rfl
  | reference name => rw [evaluateCounting, evaluateAt]

end Expr

def Stmt.effectCounting (limits : Limits) (bindings : Bindings) (counter : Nat) (stmt : Stmt) :
    Except RuntimeFault Effect × Nat :=
  match stmt.expr? with
  | none => (.ok (stmt.effectOf .nil), counter)
  | some expr =>
      let (outcome, left) := expr.evaluateCounting limits bindings 0 counter
      (outcome.map stmt.effectOf, left)

theorem Stmt.effectCounting_zero (limits : Limits) (bindings : Bindings) (stmt : Stmt) :
    stmt.effectCounting limits bindings 0 = (stmt.effect limits bindings, 0) := by
  rw [effectCounting, effect_eq]
  cases stmt.expr? with
  | none => rfl
  | some expr =>
      simp only [Expr.evaluateCounting_eq]
      rfl

namespace Machine

/-- Runs statements in order with a depth counter that goes from one to the next.
An exhausted stack sets it to zero. -/
def runCounting (limits : Limits) (machine : Machine) (counter : Nat) :
    List Stmt → Execution × Nat
  | [] => (⟨machine, [], none⟩, counter)
  | stmt :: stmts =>
      match stmt.effectCounting limits machine.bindings counter with
      | (.ok effect, left) =>
          let (later, last) :=
            runCounting limits ⟨effect.apply machine.bindings, effect.value?⟩ left stmts
          ({ later with events := effect.events ++ later.events }, last)
      | (.error fault, left) =>
          match stmt.failure fault with
          | .error kind => (⟨⟨machine.bindings, none⟩, [], some kind⟩, left)
          | .ok diagnostic =>
              let restored := if fault = .overflow then 0 else left
              let (later, last) := runCounting limits ⟨machine.bindings, none⟩ restored stmts
              ({ later with events := .reported diagnostic :: later.events }, last)

/-- A run that begins with the counter at zero leaves it at zero, and is the run
without a counter. -/
theorem runCounting_zero (limits : Limits) (machine : Machine) (stmts : List Stmt) :
    machine.runCounting limits 0 stmts = (machine.run limits stmts, 0) := by
  induction stmts generalizing machine with
  | nil => rfl
  | cons stmt stmts ih =>
      rw [runCounting, Stmt.effectCounting_zero, run, execute]
      cases stmt.effect limits machine.bindings with
      | ok effect => simp only [ih]
      | error fault =>
          cases hfailure : stmt.failure fault with
          | error kind => simp only [hfailure]
          | ok diagnostic => simp only [hfailure, ite_self, ih]

end Machine

/-! ## Sessions -/

namespace Session

/-- Runs a source with the depth counter that earlier runs have left. -/
def runCounting (session : Session) (counter : Nat) (source : String) :
    (Status × Transcript × Session) × Nat :=
  let cleared := { session with
    machine := { session.machine with last := none }
    reporter := .fresh }
  match cleared.statements source with
  | (none, events, next) => ((.staticError, events ++ [.noted .skipped], next), counter)
  | (some stmts, events, next) =>
      let (execution, left) := next.machine.runCounting next.limits counter stmts
      ((if execution.succeeded then .ok else .runtimeError, events ++ execution.events,
        { next with
          machine := execution.machine
          reporter := next.reporter.recordAll execution.failures }), left)

def performCounting (state : Session × Nat) : Call → Session × Nat
  | .run source =>
      let ((_, _, next), left) := state.1.runCounting state.2 source
      (next, left)
  | .tokens source => ((state.1.tokens source).2.2, state.2)
  | .statements source => ((state.1.statements source).2.2, state.2)

theorem runCounting_zero (session : Session) (source : String) :
    session.runCounting 0 source = (session.run source, 0) := by
  rw [runCounting, run]
  generalize Session.statements _ source = answer
  obtain ⟨_ | stmts, events, next⟩ := answer
  · rfl
  · simp only [Machine.runCounting_zero]

/-- The counter is back at zero after every call. -/
theorem performCounting_zero (session : Session) (call : Call) :
    performCounting (session, 0) call = (session.perform call, 0) := by
  cases call with
  | run source =>
      rw [performCounting, runCounting_zero]
      rfl
  | tokens source => rfl
  | statements source => rfl

/-- The counter is at zero behind any sequence of calls. -/
theorem foldl_performCounting_zero (session : Session) (calls : List Call) :
    calls.foldl performCounting (session, 0) = (calls.foldl perform session, 0) := by
  induction calls generalizing session with
  | nil => rfl
  | cons call calls ih => rw [List.foldl_cons, List.foldl_cons, performCounting_zero, ih]

theorem settings_perform (session : Session) (call : Call) :
    (session.perform call).settings = session.settings := by
  cases call with
  | run source =>
      by_cases hnone : (Analysis.ofSource session.limits source).errors = []
      · rw [perform, run_of_errors hnone]
      · rw [perform, run_of_mistakes hnone]
  | tokens source => rfl
  | statements source => rfl

theorem settings_foldl_perform (session : Session) (calls : List Call) :
    (calls.foldl perform session).settings = session.settings := by
  induction calls generalizing session with
  | nil => rfl
  | cons call calls ih => rw [List.foldl_cons, ih, settings_perform]

/-- A run begins with a cleared reporter and without a last value. -/
theorem run_eq_of_bindings {first second : Session} (hsettings : first.settings = second.settings)
    (hbindings : first.machine.bindings = second.machine.bindings) (source : String) :
    first.run source = second.run source := by
  obtain ⟨settings, ⟨bindings, last⟩, reporter⟩ := first
  obtain ⟨settings', ⟨bindings', last'⟩, reporter'⟩ := second
  obtain rfl : settings = settings' := hsettings
  obtain rfl : bindings = bindings' := hbindings
  rfl

/-- Two sessions with the same settings, whatever they went through, that have
the same values for all names give the same for every further call: a run has the
same status, writes the same and leaves the same session, and the same tokens and
statements are found.  A depth counter that the evaluator keeps from run to run
makes no difference to the sessions. -/
theorem calls_share_only_bindings (settings : Settings) (first second : List Call)
    (hvalues : ∀ name,
      (first.foldl perform (start settings)).machine.bindings.get? name =
        (second.foldl perform (start settings)).machine.bindings.get? name)
    (source : String) :
    let one := first.foldl performCounting (start settings, 0)
    let other := second.foldl performCounting (start settings, 0)
    one = (first.foldl perform (start settings), 0) ∧
      other = (second.foldl perform (start settings), 0) ∧
      one.1.runCounting one.2 source = other.1.runCounting other.2 source ∧
      one.1.run source = other.1.run source ∧
      (one.1.tokens source).1 = (other.1.tokens source).1 ∧
      (one.1.statements source).1 = (other.1.statements source).1 := by
  intro one other
  have hone : one = (first.foldl perform (start settings), 0) :=
    foldl_performCounting_zero (start settings) first
  have hother : other = (second.foldl perform (start settings), 0) :=
    foldl_performCounting_zero (start settings) second
  have hsettings : one.1.settings = other.1.settings := by
    rw [hone, hother, settings_foldl_perform, settings_foldl_perform]
  have hbindings : one.1.machine.bindings = other.1.machine.bindings := by
    rw [hone, hother]
    exact Bindings.eq_of_get? hvalues
  have hrun := run_eq_of_bindings hsettings hbindings source
  refine ⟨hone, hother, ?_, hrun, rfl, ?_⟩
  · rw [hone, hother, runCounting_zero, runCounting_zero]
    rw [hone, hother] at hrun
    rw [hrun]
  · rw [statements, statements, limits, limits, hsettings]

/-- One session has seen mistakes in nesting, an open string and an undefined
name, the other one nothing but declarations.  Their reporters differ, and they
give the same for `a;`. -/
theorem calls_share_only_bindings_failures :
    let settings : Settings := ⟨2, .warning, Nat.two_pos⟩
    let first : List Call := [.run "var a = nil;", .run "print ((a));", .tokens "print \"",
      .statements "var b = ;", .run "print !a; print (b);"]
    let second : List Call := [.run "var a = true;", .run "var a = -a;"]
    let one := first.foldl perform (start settings)
    let other := second.foldl perform (start settings)
    one.machine.bindings = other.machine.bindings ∧ one.reporter ≠ other.reporter ∧
      one.run "a;" = other.run "a;" ∧ (one.statements "a;").1 = (other.statements "a;").1 := by
  intro settings first second one other
  have hbindings : one.machine.bindings = other.machine.bindings := by decide +kernel
  have hreporter : one.reporter ≠ other.reporter := by decide +kernel
  have hvalues : ∀ name, one.machine.bindings.get? name = other.machine.bindings.get? name := by
    intro name
    rw [hbindings]
  obtain ⟨hone, hother, -, hrun, -, hstatements⟩ :=
    calls_share_only_bindings settings first second hvalues "a;"
  rw [hone, hother] at hrun hstatements
  exact ⟨hbindings, hreporter, hrun, hstatements⟩

end Session

end Lumen
