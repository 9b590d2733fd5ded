import Lumen.Proofs.Crash
import Lumen.Proofs.Meaning

/-!
# The order of evaluation

Evaluating walks down the left operands of a chain and applies the operators on
the way back.  A plain recursion evaluates the left operand, then the right one,
and then applies the operator.  The two agree on every tree, in the value as well
as in the fault.

The fault is always the one that comes first.  Evaluating a tree is a sequence of
acts: a bracket or a prefix operator is entered in front of its part, and a node
gets its value behind its parts.  Whether an act fails depends on its node and its
level of nesting, and not on what happens before; the first act that fails is the
one that is reported.
-/

namespace Lumen

namespace Expr

/-! ## Evaluation by recursion -/

/-- Evaluates an expression below a number of brackets and prefix operators, by
recursion over its parts. -/
def evaluatePlainly (limit : Int) (bindings : Bindings) (depth : Nat) :
    Expr → Except RuntimeFault Value
  | binary left operator right => do
      let first ← left.evaluatePlainly limit bindings depth
      let second ← right.evaluatePlainly limit bindings depth
      match Operator.binary operator.kind first second with
      | .invalid => throw (.illegal operator)
      | value => return value
  | grouping inner paren =>
      if limit < (depth + 1 : Nat) then throw (.tooDeep (grouping inner paren).firstToken?)
      else inner.evaluatePlainly limit bindings (depth + 1)
  | literal value => return value.getD .nil
  | unary operator operand =>
      if limit < (depth + 1 : Nat) then throw (.tooDeep (unary operator operand).firstToken?)
      else do
        let value ← operand.evaluatePlainly limit bindings (depth + 1)
        match Operator.unary? operator.kind value with
        | some result => return result
        | none => throw (.unknownOperator operator.kind)
  | reference name =>
      match bindings.get? name.lexeme with
      | some value => return value
      | none => throw (.undefined name)

variable {limit : Int} {bindings : Bindings}

/-- Refuses an expression at a level of nesting beyond the limit. -/
def refusing (limit : Int) (level : Nat) (expr : Expr) (inside : Except RuntimeFault Value) :
    Except RuntimeFault Value :=
  if limit < level then .error (.tooDeep expr.firstToken?) else inside

theorem evaluatePlainly_binary (left : Expr) (operator : Token) (right : Expr) (depth : Nat) :
    (binary left operator right).evaluatePlainly limit bindings depth =
      (left.evaluatePlainly limit bindings depth).bind fun first =>
        (right.evaluatePlainly limit bindings depth).bind (applyBinary operator first) :=
  rfl

theorem evaluatePlainly_grouping (inner : Expr) (paren : Option Token) (depth : Nat) :
    (grouping inner paren).evaluatePlainly limit bindings depth =
      refusing limit (depth + 1) (grouping inner paren)
        (inner.evaluatePlainly limit bindings (depth + 1)) :=
  rfl

theorem evaluatePlainly_unary (operator : Token) (operand : Expr) (depth : Nat) :
    (unary operator operand).evaluatePlainly limit bindings depth =
      refusing limit (depth + 1) (unary operator operand)
        ((operand.evaluatePlainly limit bindings (depth + 1)).bind (applyUnary operator)) :=
  rfl

/-- Without a stack limit, only the depth can refuse an expression. -/
theorem within_withoutStack (load : Load) (expr : Expr) (inside : Except RuntimeFault Value) :
    within (.withoutStack limit) load expr inside =
      refusing limit (load.depth + 1) expr inside := by
  have hdepth : (Limits.withoutStack limit).holdsDepth (load.deeper evaluateFrames) =
      !decide (limit < (load.depth + 1 : Nat)) := by
    rw [← decide_not]
    exact decide_eq_decide.mpr Int.not_lt.symm
  have hframes : (Limits.withoutStack limit).holdsFrames (load.deeper evaluateFrames) = true := rfl
  simp only [within, refusing, hdepth, hframes, Bool.not_not, decide_eq_true_eq, Bool.not_true,
    Bool.false_eq_true, if_false]

/-- Without a stack to exhaust, the loop computes what the recursion does. -/
theorem evaluateAt_eq_evaluatePlainly (expr : Expr) (load : Load) :
    evaluateAt (.withoutStack limit) bindings load expr =
      expr.evaluatePlainly limit bindings load.depth := by
  induction expr generalizing load with
  | binary left operator right ihLeft ihRight =>
      -- There is always room for the frames of an operand.
      have hleft : evaluateLeft (.withoutStack limit) bindings load left =
          left.evaluatePlainly limit bindings load.depth := by
        rw [evaluateLeft, evaluateOperand_of_holds rfl, ihLeft]
        rfl
      rw [evaluateAt_binary, hleft, evaluatePlainly_binary]
      apply congrArg
      funext value
      rw [applyRight, evaluateOperand_of_holds rfl, ihRight]
      rfl
  | grouping inner paren ih =>
      rw [evaluateAt_grouping, within_withoutStack, ih, evaluatePlainly_grouping]
      rfl
  | literal value => rw [evaluateAt]; rfl
  | unary operator operand ih =>
      rw [evaluateAt_unary, within_withoutStack, ih, evaluatePlainly_unary]
      rfl
  | reference name => rw [evaluateAt]; rfl

theorem of_refusing_eq_ok {level : Nat} {expr : Expr} {inside : Except RuntimeFault Value}
    {value : Value} (hvalue : refusing limit level expr inside = .ok value) :
    (level : Int) ≤ limit ∧ inside = .ok value := by
  rw [refusing] at hvalue
  split at hvalue
  · cases hvalue
  · next hlevel => exact ⟨Int.not_lt.mp hlevel, hvalue⟩

/-- A limit takes values away and never changes one. -/
theorem meaning_of_evaluatePlainly {expr : Expr} {depth : Nat} {value : Value}
    (hvalue : expr.evaluatePlainly limit bindings depth = .ok value) :
    expr.meaning bindings = .ok value := by
  induction expr generalizing depth value with
  | binary left operator right ihLeft ihRight =>
      rw [evaluatePlainly_binary] at hvalue
      obtain ⟨first, hfirst, hrest⟩ := exists_of_bind hvalue
      obtain ⟨second, hsecond, hresult⟩ := exists_of_bind hrest
      rw [meaning, ihLeft hfirst, ihRight hsecond]
      exact hresult
  | grouping inner paren ih => exact ih (of_refusing_eq_ok hvalue).2
  | literal found => exact hvalue
  | unary operator operand ih =>
      rw [evaluatePlainly_unary] at hvalue
      obtain ⟨found, hfound, hresult⟩ := exists_of_bind (of_refusing_eq_ok hvalue).2
      rw [meaning, ih hfound]
      exact hresult
  | reference name => exact hvalue

/-! ## Acts in order -/

/-- Something that evaluation does with a node of a tree. -/
inductive Act where
  /-- Opens a bracket or a prefix operator as the given level of nesting. -/
  | enter (level : Nat) (node : Expr)
  /-- Gets the value of a node from those of its parts. -/
  | finish (node : Expr)
  deriving DecidableEq

/-- The acts of evaluating an expression below a number of brackets and prefix
operators. -/
def acts (depth : Nat) : Expr → List Act
  | binary left operator right =>
      left.acts depth ++ right.acts depth ++ [.finish (binary left operator right)]
  | grouping inner paren =>
      .enter (depth + 1) (grouping inner paren) ::
        (inner.acts (depth + 1) ++ [.finish (grouping inner paren)])
  | literal value => [.finish (literal value)]
  | unary operator operand =>
      .enter (depth + 1) (unary operator operand) ::
        (operand.acts (depth + 1) ++ [.finish (unary operator operand)])
  | reference name => [.finish (reference name)]

/-- The fault of a node that has no value although all its parts have one. -/
def ownFault? (bindings : Bindings) (node : Expr) : Option RuntimeFault :=
  if node.children.all fun part => (part.meaning bindings).isOk then
    match node.meaning bindings with
    | .ok _ => none
    | .error fault => some fault
  else none

def Act.fault? (limit : Int) (bindings : Bindings) : Act → Option RuntimeFault
  | enter level node => if limit < level then some (.tooDeep node.firstToken?) else none
  | finish node => node.ownFault? bindings

/-- The outcome is a fault if and only if an act fails, and then that of the first
such act. -/
def FirstFault (limit : Int) (bindings : Bindings) (acts : List Act)
    (outcome : Except RuntimeFault Value) : Prop :=
  ∀ fault, outcome = .error fault ↔ acts.findSome? (Act.fault? limit bindings) = some fault

section FirstFault

variable {acts acts' : List Act} {outcome : Except RuntimeFault Value}

/-- The acts of a later step count only if none of the earlier ones fails. -/
theorem FirstFault.bind {next : Value → Except RuntimeFault Value}
    (houtcome : FirstFault limit bindings acts outcome)
    (hnext : ∀ value, outcome = .ok value → FirstFault limit bindings acts' (next value)) :
    FirstFault limit bindings (acts ++ acts') (outcome.bind next) := by
  intro fault
  rw [List.findSome?_append]
  cases houtcome' : outcome with
  | error found =>
      rw [(houtcome found).mp houtcome', Option.some_or]
      simp [Except.bind]
  | ok value =>
      have hnone : acts.findSome? (Act.fault? limit bindings) = none := by
        apply Option.eq_none_iff_forall_ne_some.mpr
        intro found hfound
        rw [← houtcome, houtcome'] at hfound
        cases hfound
      rw [hnone, Option.none_or]
      exact hnext value houtcome' fault

/-- Entering comes before everything inside. -/
theorem FirstFault.refusing (houtcome : FirstFault limit bindings acts outcome) (level : Nat)
    (node : Expr) :
    FirstFault limit bindings (.enter level node :: acts)
      (Expr.refusing limit level node outcome) := by
  intro fault
  rw [Expr.refusing, List.findSome?_cons, Act.fault?]
  by_cases hlevel : limit < level
  · simp [hlevel]
  · simpa [hlevel] using houtcome fault

/-- A node whose parts have values fails by itself, if it fails. -/
theorem firstFault_finish (node : Expr)
    (hparts : ∀ part ∈ node.children, ∃ value, part.meaning bindings = .ok value) :
    FirstFault limit bindings [.finish node] (node.meaning bindings) := by
  have hall : (node.children.all fun part => (part.meaning bindings).isOk) = true := by
    rw [List.all_eq_true]
    intro part hpart
    obtain ⟨value, hvalue⟩ := hparts part hpart
    rw [hvalue]
    rfl
  intro fault
  rw [List.findSome?_singleton, Act.fault?, ownFault?, if_pos hall]
  cases node.meaning bindings <;> simp

end FirstFault

/-- The recursion fails with the first act that fails, if any does. -/
theorem firstFault_evaluatePlainly (expr : Expr) (depth : Nat) :
    FirstFault limit bindings (expr.acts depth)
      (expr.evaluatePlainly limit bindings depth) := by
  induction expr generalizing depth with
  | binary left operator right ihLeft ihRight =>
      rw [evaluatePlainly_binary, acts, List.append_assoc]
      apply (ihLeft depth).bind
      intro first hfirst
      apply (ihRight depth).bind
      intro second hsecond
      have hleft := meaning_of_evaluatePlainly hfirst
      have hright := meaning_of_evaluatePlainly hsecond
      have hmeaning : (binary left operator right).meaning bindings =
          applyBinary operator first second := by
        rw [meaning, hleft, hright]
        rfl
      rw [← hmeaning]
      apply firstFault_finish
      simp [children, hleft, hright]
  | grouping inner paren ih =>
      rw [evaluatePlainly_grouping, acts]
      apply FirstFault.refusing
      have hinner : (inner.evaluatePlainly limit bindings (depth + 1)).bind .ok =
          inner.evaluatePlainly limit bindings (depth + 1) := by
        cases inner.evaluatePlainly limit bindings (depth + 1) <;> rfl
      rw [← hinner]
      apply (ih (depth + 1)).bind
      intro value hvalue
      have hvalue' := meaning_of_evaluatePlainly hvalue
      have hmeaning : (grouping inner paren).meaning bindings = .ok value := hvalue'
      rw [← hmeaning]
      apply firstFault_finish
      simp [children, hvalue']
  | literal value => exact firstFault_finish (literal value) (by simp [children])
  | unary operator operand ih =>
      rw [evaluatePlainly_unary, acts]
      apply FirstFault.refusing
      apply (ih (depth + 1)).bind
      intro value hvalue
      have hoperand := meaning_of_evaluatePlainly hvalue
      have hmeaning : (unary operator operand).meaning bindings = applyUnary operator value := by
        rw [meaning, hoperand]
        rfl
      rw [← hmeaning]
      apply firstFault_finish
      simp [children, hoperand]
  | reference name => exact firstFault_finish (reference name) (by simp [children])

/-- Evaluation gives what plain recursion gives, whatever the shape of the tree,
and the fault of the first act that fails if there is one. -/
theorem evaluation_is_left_to_right (limit : Int) (bindings : Bindings) (expr : Expr) :
    expr.evaluate (.withoutStack limit) bindings = expr.evaluatePlainly limit bindings 0 ∧
      ∀ fault, expr.evaluate (.withoutStack limit) bindings = .error fault ↔
        (expr.acts 0).findSome? (Act.fault? limit bindings) = some fault := by
  have hplain : expr.evaluate (.withoutStack limit) bindings =
      expr.evaluatePlainly limit bindings 0 := evaluateAt_eq_evaluatePlainly expr .empty
  refine ⟨hplain, ?_⟩
  rw [hplain]
  exact firstFault_evaluatePlainly expr 0

end Expr

end Lumen
