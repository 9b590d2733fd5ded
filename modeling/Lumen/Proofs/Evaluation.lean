import Lumen.Execution

/-!
# Evaluation by structure

The loop over the left operands of a chain computes what the structure of the
expression says: the left operand first, then the right one, then the operator.
With this, facts about evaluation are inductions over expressions.

Trees that come from a source carry the tokens of their brackets and use the
prefix operators of the language.  Whatever goes wrong with their evaluation
can be blamed on a token.
-/

namespace Lumen

theorem stackHolds_mono {stack : Option Nat} {few many : Nat} (hle : few ≤ many)
    (hholds : stackHolds stack many = true) : stackHolds stack few = true := by
  cases stack with
  | none => rfl
  | some limit =>
      simp only [stackHolds, decide_eq_true_eq] at hholds ⊢
      exact Nat.le_trans hle hholds

namespace Expr

variable {limits : Limits} {bindings : Bindings} {load : Load}

/-! ## One equation per kind of expression -/

/-- Evaluates the parts of a nesting expression, if the limits leave room. -/
def within (limits : Limits) (load : Load) (expr : Expr) (inside : Except RuntimeFault Value) :
    Except RuntimeFault Value :=
  if !limits.holdsDepth (load.deeper evaluateFrames) then .error (.tooDeep expr.firstToken?)
  else if !limits.holdsFrames (load.deeper evaluateFrames) then .error .overflow
  else inside

/-- Frames that an expression costs as the left operand of an operator.  The
loop walks through a chain, which pays for its own leftmost operand. -/
def leftFrames (cost : Nat) : Expr → Nat
  | binary _ _ _ => 0
  | _ => cost

def evaluateLeft (limits : Limits) (bindings : Bindings) (load : Load) (left : Expr) :
    Except RuntimeFault Value :=
  evaluateOperand limits bindings (load.sideways (left.leftFrames evaluateFrames)) left

/-- Applies an operator with its right operand to the value of the left one. -/
def applyRight (limits : Limits) (bindings : Bindings) (load : Load) (operator : Token)
    (right : Expr) (left : Value) : Except RuntimeFault Value :=
  (evaluateOperand limits bindings (load.sideways evaluateFrames) right).bind
    (applyBinary operator left)

/-- A bracket evaluates to what is in it, one level deeper. -/
theorem evaluateAt_grouping (inner : Expr) (paren : Option Token) :
    evaluateAt limits bindings load (.grouping inner paren) =
      within limits load (.grouping inner paren)
        (evaluateAt limits bindings (load.deeper evaluateFrames) inner) := by
  rw [evaluateAt, within]

/-- A prefix operator is applied to its operand, which is evaluated one level
deeper. -/
theorem evaluateAt_unary (operator : Token) (operand : Expr) :
    evaluateAt limits bindings load (.unary operator operand) =
      within limits load (.unary operator operand)
        ((evaluateAt limits bindings (load.deeper evaluateFrames) operand).bind
          (applyUnary operator)) := by
  rw [evaluateAt, within]
  cases evaluateAt limits bindings (load.deeper evaluateFrames) operand <;> rfl

theorem evaluateOperand_of_holds (hframes : limits.holdsFrames load = true) (operand : Expr) :
    evaluateOperand limits bindings load operand = evaluateAt limits bindings load operand := by
  rw [evaluateOperand, hframes]
  rfl

theorem evaluateOperand_overflow (hframes : limits.holdsFrames load = false) (operand : Expr) :
    evaluateOperand limits bindings load operand = .error .overflow := by
  rw [evaluateOperand, hframes]
  rfl

/-- The first operator that waits is applied, and the others wait for its
value. -/
theorem evaluateOnto_cons (left : Value) (operator : Token) (right : Expr)
    (pending : List (Token × Expr)) :
    evaluateOnto limits bindings load left ((operator, right) :: pending) =
      (applyRight limits bindings load operator right left).bind fun value =>
        evaluateOnto limits bindings load value pending := by
  rw [evaluateOnto, applyRight]
  cases evaluateOperand limits bindings (load.sideways evaluateFrames) right with
  | error fault => rfl
  | ok value =>
      simp only [Except.bind]
      cases applyBinary operator left value <;> rfl

theorem bind_bind (outcome : Except RuntimeFault Value)
    (first second : Value → Except RuntimeFault Value) :
    (outcome.bind first).bind second = outcome.bind fun value => (first value).bind second := by
  cases outcome <;> rfl

theorem evaluateChain_operand {expr : Expr}
    (hoperand : ∀ left operator right, expr ≠ .binary left operator right)
    (pending : List (Token × Expr)) :
    evaluateChain limits bindings load expr pending =
      (evaluateOperand limits bindings (load.sideways evaluateFrames) expr).bind fun value =>
        evaluateOnto limits bindings load value pending := by
  rw [evaluateChain]
  · cases evaluateOperand limits bindings (load.sideways evaluateFrames) expr <;> rfl
  · exact hoperand

/-- Where the stack is exhausted already, the leftmost operand finds out. -/
theorem evaluateChain_overflow (hframes : limits.holdsFrames load = false) (expr : Expr)
    (pending : List (Token × Expr)) :
    evaluateChain limits bindings load expr pending = .error .overflow := by
  have hfull : limits.holdsFrames (load.sideways evaluateFrames) = false := by
    rw [Bool.eq_false_iff] at hframes ⊢
    exact fun hholds => hframes (stackHolds_mono (Nat.le_add_right _ _) hholds)
  have hleftmost : ∀ {operand : Expr},
      (∀ left operator right, operand ≠ .binary left operator right) → ∀ pending,
        evaluateChain limits bindings load operand pending = .error .overflow := by
    intro operand hoperand pending
    rw [evaluateChain_operand hoperand, evaluateOperand_overflow hfull]
    rfl
  induction expr generalizing pending with
  | binary left operator right ihLeft => rw [evaluateChain, ihLeft]
  | grouping inner paren => exact hleftmost (by simp) pending
  | literal value => exact hleftmost (by simp) pending
  | unary operator operand => exact hleftmost (by simp) pending
  | reference name => exact hleftmost (by simp) pending

/-- A chain costs nothing as a left operand. -/
theorem evaluateLeft_binary (left : Expr) (operator : Token) (right : Expr) :
    evaluateLeft limits bindings load (.binary left operator right) =
      evaluateAt limits bindings load (.binary left operator right) := by
  rw [evaluateLeft]
  change evaluateOperand limits bindings load _ = _
  cases hframes : limits.holdsFrames load with
  | true => exact evaluateOperand_of_holds hframes _
  | false => rw [evaluateOperand_overflow hframes, evaluateAt, evaluateChain_overflow hframes]

/-- Walking down the left operands first changes nothing. -/
theorem evaluateChain_eq (expr : Expr) (pending : List (Token × Expr)) :
    evaluateChain limits bindings load expr pending =
      (evaluateLeft limits bindings load expr).bind fun value =>
        evaluateOnto limits bindings load value pending := by
  induction expr generalizing pending with
  | binary left operator right ihLeft =>
      -- The operator waits behind those that wait already, or by itself.
      have hstep : ∀ value, evaluateOnto limits bindings load value ((operator, right) :: pending) =
          (evaluateOnto limits bindings load value [(operator, right)]).bind fun result =>
            evaluateOnto limits bindings load result pending := by
        intro value
        rw [evaluateOnto_cons, evaluateOnto_cons, bind_bind]
        apply congrArg
        funext result
        rw [evaluateOnto]
        rfl
      calc evaluateChain limits bindings load (.binary left operator right) pending
          = (evaluateLeft limits bindings load left).bind fun value =>
              evaluateOnto limits bindings load value ((operator, right) :: pending) := by
            rw [evaluateChain, ihLeft]
        _ = ((evaluateLeft limits bindings load left).bind fun value =>
              evaluateOnto limits bindings load value [(operator, right)]).bind fun result =>
                evaluateOnto limits bindings load result pending := by
            rw [bind_bind]
            simp only [hstep]
        _ = (evaluateLeft limits bindings load (.binary left operator right)).bind fun result =>
              evaluateOnto limits bindings load result pending := by
            rw [evaluateLeft_binary, evaluateAt, ihLeft]
  | grouping inner paren => exact evaluateChain_operand (by simp) pending
  | literal value => exact evaluateChain_operand (by simp) pending
  | unary operator operand => exact evaluateChain_operand (by simp) pending
  | reference name => exact evaluateChain_operand (by simp) pending

/-- A binary expression evaluates its left operand, then its right one, and
then applies the operator. -/
theorem evaluateAt_binary (left : Expr) (operator : Token) (right : Expr) :
    evaluateAt limits bindings load (.binary left operator right) =
      (evaluateLeft limits bindings load left).bind
        (applyRight limits bindings load operator right) := by
  rw [evaluateAt, evaluateChain_eq]
  apply congrArg
  funext value
  rw [evaluateOnto_cons]
  cases applyRight limits bindings load operator right value with
  | error fault => rfl
  | ok result => exact evaluateOnto.eq_1 ..

/-! ## Faults of trees that come from a source -/

/-- The tree has what a source always gives: brackets have their token, and the
prefix operators are those of the language. -/
def Written : Expr → Prop
  | binary left _ right => left.Written ∧ right.Written
  | grouping inner paren => paren.isSome = true ∧ inner.Written
  | literal _ => True
  | unary operator operand => operator.kind ∈ [Kind.bang, Kind.minus] ∧ operand.Written
  | reference _ => True

theorem firstToken?_of_ownToken? {expr : Expr} {token : Token}
    (htoken : expr.ownToken? = some token) : expr.firstToken? = some token := by
  rw [firstToken?, tokenOnStack?, htoken]

/-- Every written expression but a literal has a token to blame. -/
theorem isSome_firstToken? {expr : Expr} (hwritten : expr.Written)
    (hliteral : ∀ value, expr ≠ .literal value) : expr.firstToken?.isSome = true := by
  have hown : expr.ownToken?.isSome = true := by
    cases expr with
    | binary left operator right => rfl
    | grouping inner paren => exact hwritten.1
    | literal value => exact absurd rfl (hliteral value)
    | unary operator operand => rfl
    | reference name => rfl
  obtain ⟨token, htoken⟩ := Option.isSome_iff_exists.mp hown
  rw [firstToken?_of_ownToken? htoken]
  rfl

end Expr

/-- The fault names a token, or leaves it to the statement to name one. -/
def RuntimeFault.Placed : RuntimeFault → Prop
  | illegal _ => True
  | undefined _ => True
  | tooDeep token => token.isSome = true
  | overflow => True
  | unknownOperator _ => False

def PlacedFault (outcome : Except RuntimeFault Value) : Prop :=
  ∀ fault, outcome = .error fault → fault.Placed

theorem PlacedFault.ok (value : Value) : PlacedFault (.ok value) := by
  intro fault herror
  cases herror

theorem PlacedFault.error {fault : RuntimeFault} (hplaced : fault.Placed) :
    PlacedFault (.error fault) := by
  intro other herror
  cases herror
  exact hplaced

theorem PlacedFault.bind {outcome : Except RuntimeFault Value}
    {next : Value → Except RuntimeFault Value} (houtcome : PlacedFault outcome)
    (hnext : ∀ value, PlacedFault (next value)) : PlacedFault (outcome.bind next) := by
  cases outcome with
  | error fault => exact houtcome
  | ok value => exact hnext value

theorem placedFault_applyBinary (operator : Token) (left right : Value) :
    PlacedFault (applyBinary operator left right) := by
  rw [applyBinary]
  split
  · exact .error trivial
  · exact .ok _

/-- The prefix operators of the language are defined for every operand. -/
theorem placedFault_applyUnary {operator : Token}
    (hoperator : operator.kind ∈ [Kind.bang, Kind.minus]) (operand : Value) :
    PlacedFault (applyUnary operator operand) := by
  have hknown : (Operator.unary? operator.kind operand).isSome = true := by
    simp only [List.mem_cons, List.not_mem_nil, or_false] at hoperator
    rcases hoperator with hkind | hkind
    · rw [hkind]
      rfl
    · rw [hkind]
      cases operand <;> rfl
  obtain ⟨value, hvalue⟩ := Option.isSome_iff_exists.mp hknown
  rw [applyUnary, hvalue]
  exact .ok value

namespace Expr

variable {limits : Limits} {bindings : Bindings}

theorem placedFault_within {load : Load} {expr : Expr} {inside : Except RuntimeFault Value}
    (htoken : expr.firstToken?.isSome = true) (hinside : PlacedFault inside) :
    PlacedFault (within limits load expr inside) := by
  rw [within]
  split
  · exact .error htoken
  · split
    · exact .error trivial
    · exact hinside

theorem placedFault_evaluateOperand {load : Load} {operand : Expr}
    (hoperand : PlacedFault (evaluateAt limits bindings load operand)) :
    PlacedFault (evaluateOperand limits bindings load operand) := by
  rw [evaluateOperand]
  split
  · exact .error trivial
  · exact hoperand

/-- Whatever goes wrong with a written expression can be blamed on a token. -/
theorem placedFault_evaluateAt {expr : Expr} (hwritten : expr.Written) (load : Load) :
    PlacedFault (evaluateAt limits bindings load expr) := by
  induction expr generalizing load with
  | binary left operator right ihLeft ihRight =>
      rw [evaluateAt_binary]
      apply (placedFault_evaluateOperand (ihLeft hwritten.1 _)).bind
      intro value
      exact (placedFault_evaluateOperand (ihRight hwritten.2 _)).bind
        (placedFault_applyBinary operator value)
  | grouping inner paren ih =>
      rw [evaluateAt_grouping]
      exact placedFault_within (isSome_firstToken? hwritten (by simp)) (ih hwritten.2 _)
  | literal value =>
      rw [evaluateAt]
      exact .ok _
  | unary operator operand ih =>
      rw [evaluateAt_unary]
      apply placedFault_within (isSome_firstToken? hwritten (by simp))
      exact (ih hwritten.2 _).bind (placedFault_applyUnary hwritten.1)
  | reference name =>
      rw [evaluateAt, Bindings.value]
      split
      · exact .ok _
      · exact .error trivial

end Expr

end Lumen
