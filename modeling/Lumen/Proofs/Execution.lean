import Lumen.Proofs.Derivation
import Lumen.Proofs.Evaluation

/-!
# Runs of statements

A run of statements is the run of the first ones followed by the run of the
others on the machine that they leave.  Statements that come from a source
never stop a run: each one that fails is reported, and the report names one of
its tokens.
-/

namespace Lumen

/-! ## Statements that come from a source -/

/-- The expression of the statement, if it has one, has what a source gives. -/
def Stmt.Written (stmt : Stmt) : Prop :=
  ∀ expr ∈ stmt.expr?, expr.Written

/-- The grammar gives written trees. -/
theorem Grammar.Derivation.written_tree {phrase : Phrase} (derivation : Derivation phrase) :
    derivation.tree.Written := by
  induction derivation with
  | only _ single ih => exact ih
  | join _ left operator _ right ihLeft ihRight => exact ⟨ihLeft, ihRight⟩
  | sign operator hoperator operand ih => exact ⟨hoperator, ih⟩
  | plain primary ih => exact ih
  | literal => trivial
  | reference => trivial
  | group opening _ inner closing _ ih => exact ⟨rfl, ih⟩

theorem Grammar.Clause.written_tree (clause : Clause) : clause.tree.Written := by
  intro expr hexpr
  cases clause with
  | declareNil => cases hexpr
  | declareValue _ _ _ value =>
      obtain rfl := Option.some.inj hexpr
      exact value.written_tree
  | print _ value =>
      obtain rfl := Option.some.inj hexpr
      exact value.written_tree
  | evaluate value =>
      obtain rfl := Option.some.inj hexpr
      exact value.written_tree

namespace Stmt

variable {limits : Limits} {bindings : Bindings} {stmt : Stmt} {fault : RuntimeFault}

/-- What a statement does with the value of its expression. -/
def effectOf : Stmt → Value → Effect
  | print _, value => .print (value.display ++ "\n")
  | expression _, value => .yield value
  | declare name _, value => .bind name.lexeme value

/-- A declaration without an expression binds nil. -/
theorem effect_eq (limits : Limits) (bindings : Bindings) (stmt : Stmt) :
    stmt.effect limits bindings =
      match stmt.expr? with
      | some expr => (expr.evaluate limits bindings).map stmt.effectOf
      | none => .ok (stmt.effectOf .nil) := by
  cases stmt with
  | print value =>
      simp only [effect, expr?]
      cases value.evaluate limits bindings <;> rfl
  | expression value =>
      simp only [effect, expr?]
      cases value.evaluate limits bindings <;> rfl
  | declare name initializer =>
      cases initializer with
      | none => rfl
      | some value =>
          simp only [effect, expr?]
          cases value.evaluate limits bindings <;> rfl

/-- A statement fails with its expression. -/
theorem exists_expr_of_effect (herror : stmt.effect limits bindings = .error fault) :
    ∃ expr ∈ stmt.expr?, expr.evaluate limits bindings = .error fault := by
  rw [effect_eq] at herror
  cases hexpr : stmt.expr? with
  | none => simp [hexpr] at herror
  | some expr =>
      refine ⟨expr, rfl, ?_⟩
      cases hvalue : expr.evaluate limits bindings with
      | ok result => simp [hexpr, hvalue, Except.map] at herror
      | error found => simpa [hexpr, hvalue, Except.map] using herror

/-- A statement that fails has a token to blame. -/
theorem isSome_firstToken? (hwritten : stmt.Written)
    (herror : stmt.effect limits bindings = .error fault) : stmt.firstToken?.isSome = true := by
  obtain ⟨expr, hexpr, hvalue⟩ := exists_expr_of_effect herror
  have hliteral : ∀ value, expr ≠ .literal value := by
    rintro value rfl
    rw [Expr.evaluate, Expr.evaluateAt] at hvalue
    cases hvalue
  have htoken := Expr.isSome_firstToken? (hwritten expr hexpr) hliteral
  cases stmt with
  | print value =>
      obtain rfl := Option.some.inj hexpr
      exact htoken
  | expression value =>
      obtain rfl := Option.some.inj hexpr
      exact htoken
  | declare name initializer => rfl

/-- The report of a failure names a token and stands on its line. -/
theorem exists_failure (hwritten : stmt.Written)
    (herror : stmt.effect limits bindings = .error fault) :
    ∃ token message, stmt.failure fault = .ok (.about .running token message) := by
  obtain ⟨expr, hexpr, hvalue⟩ := exists_expr_of_effect herror
  have hplaced := Expr.placedFault_evaluateAt (hwritten expr hexpr) .empty fault hvalue
  cases fault with
  | illegal operator => exact ⟨operator, _, rfl⟩
  | undefined name => exact ⟨name, _, rfl⟩
  | tooDeep token =>
      obtain ⟨found, rfl⟩ := Option.isSome_iff_exists.mp hplaced
      exact ⟨found, _, rfl⟩
  | overflow =>
      obtain ⟨found, hfound⟩ := Option.isSome_iff_exists.mp (isSome_firstToken? hwritten herror)
      exact ⟨found, _, by rw [failure, hfound]; rfl⟩
  | unknownOperator kind => exact hplaced.elim

end Stmt

/-! ## Runs in succession -/

theorem Effect.filterMap_events (effect : Effect) :
    effect.events.filterMap Event.diagnostic? = [] := by
  cases effect <;> rfl

/-- Goes on with another run, unless the first one was cut short. -/
def Execution.andThen (execution : Execution) (next : Machine → Execution) : Execution :=
  match execution.aborted with
  | some _ => execution
  | none => { next execution.machine with
      events := execution.events ++ (next execution.machine).events }

namespace Machine

variable {limits : Limits}

theorem run_cons (machine : Machine) (stmt : Stmt) (stmts : List Stmt) :
    machine.run limits (stmt :: stmts) =
      (machine.run limits [stmt]).andThen fun next => next.run limits stmts := by
  rw [run, run]
  cases machine.execute limits stmt with
  | mk outcome next =>
      cases outcome with
      | ok events => simp [run, Execution.andThen]
      | error fault =>
          cases hfailure : stmt.failure fault with
          | error kind => simp [hfailure, Execution.andThen]
          | ok diagnostic => simp [hfailure, run, Execution.andThen]

/-- Statements may be run in two goes, unless the first one is cut short. -/
theorem run_append (machine : Machine) (first second : List Stmt) :
    machine.run limits (first ++ second) =
      (machine.run limits first).andThen fun next => next.run limits second := by
  induction first generalizing machine with
  | nil => simp [run, Execution.andThen]
  | cons stmt first ih =>
      -- Both sides stop at the first statement that ends the run, wherever it stands.
      rw [List.cons_append, run_cons, run_cons machine stmt first]
      cases haborted : (machine.run limits [stmt]).aborted with
      | some kind => simp [Execution.andThen, haborted]
      | none =>
          simp only [Execution.andThen, haborted, ih]
          cases haborted' : ((machine.run limits [stmt]).machine.run limits first).aborted with
          | some kind => simp [haborted']
          | none => simp

theorem aborted_run_singleton (limits : Limits) {stmt : Stmt} (hwritten : stmt.Written)
    (machine : Machine) : (machine.run limits [stmt]).aborted = none := by
  rw [run, execute]
  cases heffect : stmt.effect limits machine.bindings with
  | ok effect => rfl
  | error fault =>
      obtain ⟨token, message, hfailure⟩ := Stmt.exists_failure hwritten heffect
      simp only [hfailure]
      rfl

/-- Nothing in a program that comes from a source ends its run. -/
theorem aborted_run {stmts : List Stmt} (hwritten : ∀ stmt ∈ stmts, stmt.Written)
    (machine : Machine) : (machine.run limits stmts).aborted = none := by
  induction stmts generalizing machine with
  | nil => rfl
  | cons stmt stmts ih =>
      have hfirst := aborted_run_singleton limits (hwritten stmt List.mem_cons_self) machine
      rw [run_cons, Execution.andThen, hfirst]
      exact ih (fun other hother => hwritten other (List.mem_cons_of_mem _ hother)) _

/-- The value that earlier statements left is never looked at. -/
theorem run_last (limits : Limits) (bindings : Bindings) (last last' : Option Value)
    (stmts : List Stmt) :
    (run limits ⟨bindings, last⟩ stmts).events = (run limits ⟨bindings, last'⟩ stmts).events ∧
      (run limits ⟨bindings, last⟩ stmts).machine.bindings =
        (run limits ⟨bindings, last'⟩ stmts).machine.bindings := by
  cases stmts with
  | nil => exact ⟨rfl, rfl⟩
  | cons stmt stmts => exact ⟨rfl, rfl⟩

end Machine

end Lumen
