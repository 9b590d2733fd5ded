import Lumen.Scan
import Lumen.Proofs.Acceptance
import Lumen.Proofs.Execution

/-!
# Evaluation without limits

What expressions and statements mean where nothing limits nesting.  An
expression that leaves both limits room evaluates to its meaning.  The depth
limit has room for as many brackets and prefix operators as stand around one
another, and the stack for the frames that the deepest point needs.

Reading counts one level more than evaluating, since it enters the outermost
expression as well.  So whatever was read under a depth limit means the same
under every evaluation limit that is at most one less.
-/

namespace Lumen

theorem stackHolds_max (stack : Option Nat) (frames few many : Nat) :
    stackHolds stack (frames + max few many) =
      (stackHolds stack (frames + few) && stackHolds stack (frames + many)) := by
  cases stack with
  | none => rfl
  | some limit =>
      rw [Bool.eq_iff_iff]
      simp only [stackHolds, Bool.and_eq_true, decide_eq_true_eq]
      omega

/-- What the levels of nesting cost an activity in frames. -/
structure FrameCosts where
  grouping : Nat
  unary : Nat
  /-- An operand of a chain. -/
  operand : Nat
  deriving DecidableEq, Repr

namespace Expr

/-- The frames that an activity needs at the deepest point of an expression. -/
def stackUse (costs : FrameCosts) : Expr → Nat
  | binary left _ right =>
      max (left.leftFrames costs.operand + left.stackUse costs)
        (costs.operand + right.stackUse costs)
  | grouping inner _ => costs.grouping + inner.stackUse costs
  | literal _ => 0
  | unary _ operand => costs.unary + operand.stackUse costs
  | reference _ => 0

def evaluationCosts : FrameCosts := ⟨evaluateFrames, evaluateFrames, evaluateFrames⟩

/-- The value of an expression, operands from left to right. -/
def meaning (bindings : Bindings) : Expr → Except RuntimeFault Value
  | binary left operator right =>
      (left.meaning bindings).bind fun value =>
        (right.meaning bindings).bind (applyBinary operator value)
  | grouping inner _ => inner.meaning bindings
  | literal value => .ok (value.getD .nil)
  | unary operator operand => (operand.meaning bindings).bind (applyUnary operator)
  | reference name => bindings.value name

variable {limits : Limits} {bindings : Bindings} {load : Load}

theorem within_eq {expr : Expr} {inside : Except RuntimeFault Value}
    (hdepth : (load.depth + 1 : Int) ≤ limits.depth)
    (hframes : stackHolds limits.stack (load.frames + evaluateFrames) = true) :
    within limits load expr inside = inside := by
  have hdepth' : limits.holdsDepth (load.deeper evaluateFrames) = true := decide_eq_true hdepth
  have hframes' : limits.holdsFrames (load.deeper evaluateFrames) = true := hframes
  simp only [within, hdepth', hframes', Bool.not_true, Bool.false_eq_true, if_false]

/-- An operand with room for its frames evaluates to its meaning. -/
theorem evaluateOperand_eq_meaning {operand : Expr} {cost : Nat}
    (hframes : stackHolds limits.stack
      (load.frames + (cost + operand.stackUse evaluationCosts)) = true)
    (hoperand :
      stackHolds limits.stack (load.frames + cost + operand.stackUse evaluationCosts) = true →
        evaluateAt limits bindings (load.sideways cost) operand = operand.meaning bindings) :
    evaluateOperand limits bindings (load.sideways cost) operand = operand.meaning bindings := by
  rw [← Nat.add_assoc] at hframes
  have hroom : limits.holdsFrames (load.sideways cost) = true :=
    stackHolds_mono (Nat.le_add_right _ _) hframes
  rw [evaluateOperand_of_holds hroom, hoperand hframes]

/-- An expression with room in both limits evaluates to its meaning. -/
theorem evaluateAt_eq_meaning (expr : Expr) (load : Load)
    (hdepth : (load.depth + expr.nesting : Int) ≤ limits.depth)
    (hframes :
      stackHolds limits.stack (load.frames + expr.stackUse evaluationCosts) = true) :
    evaluateAt limits bindings load expr = expr.meaning bindings := by
  induction expr generalizing load with
  | binary left operator right ihLeft ihRight =>
      rw [stackUse, stackHolds_max, Bool.and_eq_true] at hframes
      simp only [nesting] at hdepth
      have hleft : evaluateLeft limits bindings load left = left.meaning bindings :=
        evaluateOperand_eq_meaning hframes.1
          (ihLeft (load.sideways _) (by simp only [Load.sideways]; omega))
      have hright : evaluateOperand limits bindings (load.sideways evaluateFrames) right =
          right.meaning bindings :=
        evaluateOperand_eq_meaning hframes.2
          (ihRight (load.sideways _) (by simp only [Load.sideways]; omega))
      rw [evaluateAt_binary, hleft, meaning]
      apply congrArg
      funext value
      rw [applyRight, hright]
  | grouping inner paren ih =>
      simp only [nesting, stackUse] at hdepth hframes
      have hinner := ih (load.deeper evaluateFrames)
        (by simp only [Load.deeper]; omega)
        (stackHolds_mono (by simp only [Load.deeper, evaluationCosts]; omega) hframes)
      have hroom : stackHolds limits.stack (load.frames + evaluateFrames) = true :=
        stackHolds_mono (by simp only [evaluationCosts]; omega) hframes
      rw [evaluateAt_grouping, within_eq (by omega) hroom, hinner, meaning]
  | literal value => rw [evaluateAt, meaning]
  | unary operator operand ih =>
      simp only [nesting, stackUse] at hdepth hframes
      have hoperand := ih (load.deeper evaluateFrames)
        (by simp only [Load.deeper]; omega)
        (stackHolds_mono (by simp only [Load.deeper, evaluationCosts]; omega) hframes)
      have hroom : stackHolds limits.stack (load.frames + evaluateFrames) = true :=
        stackHolds_mono (by simp only [evaluationCosts]; omega) hframes
      rw [evaluateAt_unary, within_eq (by omega) hroom, hoperand, meaning]
  | reference name => rw [evaluateAt, meaning]

/-- An expression that nothing encloses evaluates to its meaning, if the limits
leave it room. -/
theorem evaluate_eq_meaning (expr : Expr) (hdepth : (expr.nesting : Int) ≤ limits.depth)
    (hframes : stackHolds limits.stack (expr.stackUse evaluationCosts) = true) :
    expr.evaluate limits bindings = expr.meaning bindings := by
  apply evaluateAt_eq_meaning
  · simpa [Load.empty] using hdepth
  · simpa [Load.empty] using hframes

end Expr

/-! ## Faults that limits cause -/

/-- The fault is that of a limit and not of the program. -/
def RuntimeFault.isLimit : RuntimeFault → Bool
  | tooDeep _ => true
  | overflow => true
  | illegal _ => false
  | undefined _ => false
  | unknownOperator _ => false

theorem isLimit_applyBinary {operator : Token} {left right : Value} {fault : RuntimeFault}
    (herror : applyBinary operator left right = .error fault) : fault.isLimit = false := by
  rw [applyBinary] at herror
  split at herror
  · cases herror
    rfl
  · cases herror

theorem isLimit_applyUnary {operator : Token} {operand : Value} {fault : RuntimeFault}
    (herror : applyUnary operator operand = .error fault) : fault.isLimit = false := by
  rw [applyUnary] at herror
  split at herror
  · cases herror
  · cases herror
    rfl

/-- No fault of a meaning is that of a limit. -/
theorem Expr.isLimit_meaning {bindings : Bindings} {expr : Expr} {fault : RuntimeFault}
    (herror : expr.meaning bindings = .error fault) : fault.isLimit = false := by
  induction expr with
  | binary left operator right ihLeft ihRight =>
      rw [meaning] at herror
      cases hleft : left.meaning bindings with
      | error found =>
          rw [hleft] at herror
          cases herror
          exact ihLeft hleft
      | ok value =>
          cases hright : right.meaning bindings with
          | error found =>
              rw [hleft, hright] at herror
              cases herror
              exact ihRight hright
          | ok operand =>
              rw [hleft, hright] at herror
              exact isLimit_applyBinary herror
  | grouping inner paren ih => exact ih herror
  | literal value => cases herror
  | unary operator operand ih =>
      rw [meaning] at herror
      cases hoperand : operand.meaning bindings with
      | error found =>
          rw [hoperand] at herror
          cases herror
          exact ih hoperand
      | ok value =>
          rw [hoperand] at herror
          exact isLimit_applyUnary herror
  | reference name =>
      rw [meaning, Bindings.value] at herror
      split at herror
      · cases herror
      · cases herror
        rfl

theorem illegalMessage_ne : RuntimeFault.illegalMessage ≠ tooDeepMessage := by
  decide

theorem head?_toList_append {text : String} {c : Char} (hfirst : text.toList.head? = some c)
    (more : String) : (text ++ more).toList.head? = some c := by
  rw [String.toList_append, List.head?_append, hfirst, Option.some_or]

/-- The two messages differ in their first letter. -/
theorem undefinedMessage_ne (name : String) :
    RuntimeFault.undefinedMessage name ≠ tooDeepMessage := by
  intro hmessage
  have hletter : "Undefined variable '".toList.head? = some 'U' := by decide
  have hfirst : (RuntimeFault.undefinedMessage name).toList.head? = some 'U' :=
    head?_toList_append (head?_toList_append hletter name) _
  rw [hmessage] at hfirst
  exact absurd hfirst (by decide)

/-- Only the faults of limits complain about nesting. -/
theorem Stmt.message_failure_ne {stmt : Stmt} {fault : RuntimeFault} {diagnostic : Diagnostic}
    (hfault : fault.isLimit = false) (hfailure : stmt.failure fault = .ok diagnostic) :
    diagnostic.message ≠ tooDeepMessage := by
  cases fault with
  | illegal operator =>
      obtain rfl := Except.ok.inj hfailure
      exact illegalMessage_ne
  | undefined name =>
      obtain rfl := Except.ok.inj hfailure
      exact undefinedMessage_ne name.lexeme
  | tooDeep token => cases hfault
  | overflow => cases hfault
  | unknownOperator kind => cases hfailure

/-! ## Statements and runs -/

/-- What a statement does; a declaration without an expression binds nil. -/
def Stmt.meaning (bindings : Bindings) (stmt : Stmt) : Except RuntimeFault Effect :=
  match stmt.expr? with
  | some expr => (expr.meaning bindings).map stmt.effectOf
  | none => .ok (stmt.effectOf .nil)

/-- A statement does what it means, if the limits leave its expression room. -/
theorem Stmt.effect_eq_meaning {limits : Limits} {bindings : Bindings} {stmt : Stmt}
    (hdepth : ∀ expr ∈ stmt.expr?, (expr.nesting : Int) ≤ limits.depth)
    (hframes : ∀ expr ∈ stmt.expr?,
      stackHolds limits.stack (expr.stackUse Expr.evaluationCosts) = true) :
    stmt.effect limits bindings = stmt.meaning bindings := by
  rw [effect_eq, meaning]
  cases hexpr : stmt.expr? with
  | none => rfl
  | some expr =>
      have hvalue : expr.evaluate limits bindings = expr.meaning bindings :=
        expr.evaluate_eq_meaning (hdepth expr hexpr) (hframes expr hexpr)
      simp only [hvalue]

theorem Stmt.isLimit_meaning {bindings : Bindings} {stmt : Stmt} {fault : RuntimeFault}
    (herror : stmt.meaning bindings = .error fault) : fault.isLimit = false := by
  rw [meaning] at herror
  cases hexpr : stmt.expr? with
  | none =>
      rw [hexpr] at herror
      cases herror
  | some expr =>
      rw [hexpr] at herror
      cases hvalue : expr.meaning bindings with
      | ok value =>
          simp only [hvalue] at herror
          cases herror
      | error found =>
          simp only [hvalue] at herror
          cases herror
          exact Expr.isLimit_meaning hvalue

namespace Machine

/-- Runs statements in order, given what each one does under some bindings. -/
def runBy (effect : Bindings → Stmt → Except RuntimeFault Effect) (machine : Machine) :
    List Stmt → Execution
  | [] => ⟨machine, [], none⟩
  | stmt :: stmts =>
      match effect machine.bindings stmt with
      | .ok done =>
          let later := runBy effect ⟨done.apply machine.bindings, done.value?⟩ stmts
          { later with events := done.events ++ later.events }
      | .error fault =>
          match stmt.failure fault with
          | .error kind => ⟨⟨machine.bindings, none⟩, [], some kind⟩
          | .ok diagnostic =>
              let later := runBy effect ⟨machine.bindings, none⟩ stmts
              { later with events := .reported diagnostic :: later.events }

/-- A run under limits does what each statement does under these limits. -/
theorem run_eq_runBy (limits : Limits) (machine : Machine) (stmts : List Stmt) :
    machine.run limits stmts =
      machine.runBy (fun bindings stmt => stmt.effect limits bindings) stmts := by
  induction stmts generalizing machine with
  | nil => rfl
  | cons stmt stmts ih =>
      rw [run, runBy, execute]
      cases stmt.effect limits machine.bindings with
      | ok done => simp only [ih]
      | error fault =>
          cases hfailure : stmt.failure fault with
          | error kind => simp only [hfailure]
          | ok diagnostic => simp only [hfailure, ih]

theorem runBy_congr {first second : Bindings → Stmt → Except RuntimeFault Effect}
    {stmts : List Stmt}
    (hsame : ∀ stmt ∈ stmts, ∀ bindings, first bindings stmt = second bindings stmt)
    (machine : Machine) : machine.runBy first stmts = machine.runBy second stmts := by
  induction stmts generalizing machine with
  | nil => rfl
  | cons stmt stmts ih =>
      have hlater := ih fun other hother => hsame other (List.mem_cons_of_mem _ hother)
      rw [runBy, runBy, hsame stmt List.mem_cons_self]
      simp only [hlater]

/-- Without limits nothing is said to nest too deeply. -/
theorem message_runBy_meaning_ne (machine : Machine) (stmts : List Stmt) :
    ∀ diagnostic ∈ (machine.runBy (fun bindings stmt => stmt.meaning bindings) stmts).failures,
      diagnostic.message ≠ tooDeepMessage := by
  induction stmts generalizing machine with
  | nil =>
      intro diagnostic hmem
      cases hmem
  | cons stmt stmts ih =>
      intro diagnostic hmem
      rw [runBy] at hmem
      cases hmeaning : stmt.meaning machine.bindings with
      | ok done =>
          simp only [hmeaning, Execution.failures, Transcript.diagnostics,
            List.filterMap_append, done.filterMap_events, List.nil_append] at hmem
          exact ih _ diagnostic hmem
      | error fault =>
          cases hfailure : stmt.failure fault with
          | error kind =>
              simp only [hmeaning, hfailure] at hmem
              cases hmem
          | ok found =>
              simp only [hmeaning, hfailure, Execution.failures, Transcript.diagnostics,
                List.filterMap_cons, Event.diagnostic?] at hmem
              rcases List.mem_cons.mp hmem with rfl | hlater
              · exact Stmt.message_failure_ne (Stmt.isLimit_meaning hmeaning) hfailure
              · exact ih _ diagnostic hlater

/-- Statements with room in both limits run as they mean. -/
theorem run_eq_runBy_meaning {limits : Limits} {stmts : List Stmt}
    (hdepth : ∀ stmt ∈ stmts, ∀ expr ∈ stmt.expr?, (expr.nesting : Int) ≤ limits.depth)
    (hframes : ∀ stmt ∈ stmts, ∀ expr ∈ stmt.expr?,
      stackHolds limits.stack (expr.stackUse Expr.evaluationCosts) = true)
    (machine : Machine) :
    machine.run limits stmts =
      machine.runBy (fun bindings stmt => stmt.meaning bindings) stmts := by
  rw [run_eq_runBy]
  apply runBy_congr
  intro stmt hstmt bindings
  exact Stmt.effect_eq_meaning (hdepth stmt hstmt) (hframes stmt hstmt)

end Machine

/-! ## The limits of reading and of evaluating -/

/-- What is read nests below the depth limit of reading. -/
theorem Expr.nesting_le_of_ofTokens {depth : Int} {tokens : List Token} {expr : Expr}
    (haccepted : Expr.ofTokens (.withoutStack depth) tokens = .ok expr) :
    (expr.nesting : Int) ≤ depth - 1 := by
  obtain ⟨hadmits, derivation, -, -, hfits⟩ := Expr.ofTokens_eq_ok_iff.mp haccepted
  exact (Expr.fits_outermost_iff depth expr).mp ⟨hadmits, hfits⟩

theorem Program.nesting_le_of_strict {depth : Int} {tokens : List Token} {stmts : List Stmt}
    (haccepted : Program.strict (.withoutStack depth) tokens = .ok stmts) :
    ∀ stmt ∈ stmts, ∀ expr ∈ stmt.expr?, (expr.nesting : Int) ≤ depth - 1 := by
  obtain ⟨clauses, -, -, hfits⟩ := Program.strict_eq_ok_iff.mp haccepted
  intro stmt hstmt
  exact (Stmt.fits_withoutStack_iff depth stmt).mp (hfits stmt hstmt)

/-- What was read under a depth limit, as an expression or as a program, never
nests too deeply for an evaluation limit that is at most one less: it does what
it would do without a limit. -/
theorem evaluation_limit_agrees (tokens : List Token) (reading evaluating : Int)
    (hlimits : reading - 1 ≤ evaluating) :
    (∀ expr, Expr.ofTokens (.withoutStack reading) tokens = .ok expr → ∀ bindings,
      expr.evaluate (.withoutStack evaluating) bindings = expr.meaning bindings ∧
        ∀ token, expr.evaluate (.withoutStack evaluating) bindings ≠ .error (.tooDeep token)) ∧
    (∀ stmts, Program.strict (.withoutStack reading) tokens = .ok stmts →
      ∀ machine : Machine,
        machine.run (.withoutStack evaluating) stmts =
            machine.runBy (fun bindings stmt => stmt.meaning bindings) stmts ∧
          ∀ diagnostic ∈ (machine.run (.withoutStack evaluating) stmts).failures,
            diagnostic.message ≠ tooDeepMessage) := by
  constructor
  · intro expr haccepted bindings
    have hnesting := Expr.nesting_le_of_ofTokens haccepted
    have hvalue : expr.evaluate (.withoutStack evaluating) bindings = expr.meaning bindings := by
      apply Expr.evaluate_eq_meaning
      · exact Int.le_trans hnesting hlimits
      · rfl
    refine ⟨hvalue, ?_⟩
    intro token herror
    have hlimit := Expr.isLimit_meaning (hvalue ▸ herror)
    cases hlimit
  · intro stmts haccepted machine
    have hnesting := Program.nesting_le_of_strict haccepted
    have hrun : machine.run (.withoutStack evaluating) stmts =
        machine.runBy (fun bindings stmt => stmt.meaning bindings) stmts := by
      apply Machine.run_eq_runBy_meaning
      · intro stmt hstmt expr hexpr
        exact Int.le_trans (hnesting stmt hstmt expr hexpr) hlimits
      · intro stmt _ expr _
        rfl
    refine ⟨hrun, ?_⟩
    rw [hrun]
    exact machine.message_runBy_meaning_ne stmts

/-- Two levels of nesting: read under a limit of three, the statement prints
under a limit of two and fails under a limit of one. -/
theorem evaluation_limit_agrees_print :
    let tokens := (Scan.ofSource "print !(x == nil);").tokens
    let stmts := (Program.ofTokens (.withoutStack 3) tokens).statements
    let machine : Machine := ⟨Bindings.empty.define "x" .nil, none⟩
    (3 : Int) - 1 ≤ 2 ∧ Program.strict (.withoutStack 3) tokens = .ok stmts ∧
      machine.run (.withoutStack 2) stmts =
        machine.runBy (fun bindings stmt => stmt.meaning bindings) stmts ∧
      (machine.run (.withoutStack 2) stmts).events = [.printed "false\n"] ∧
      (machine.run (.withoutStack 1) stmts).failures.map Diagnostic.message =
        [tooDeepMessage] := by
  intro tokens stmts machine
  have hlimits : (3 : Int) - 1 ≤ 2 := by decide
  have haccepted : Program.strict (.withoutStack 3) tokens = .ok stmts :=
    Program.strict_eq_ok_iff_errors.mpr ⟨by decide +kernel, rfl⟩
  have hagrees := (evaluation_limit_agrees tokens 3 2 hlimits).2 stmts haccepted machine
  exact ⟨hlimits, haccepted, hagrees.1, by decide +kernel, by decide +kernel⟩

end Lumen
