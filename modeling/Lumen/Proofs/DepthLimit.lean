import Lumen.Proofs.EvaluationOrder
import Lumen.Proofs.Memory

/-!
# What the depth limit changes

An expression that nests within the depth limit evaluates as it does without one.
An expression that nests deeper has no value: every bracket and every prefix
operator is entered unless something fails before.  So either evaluation fails for
a reason of its own before it gets that deep, or it stops at the leftmost of the
nodes that the limit excludes while it admits those around them.
-/

namespace Lumen

namespace Expr

variable {limit : Nat} {bindings : Bindings}

/-- The brackets and prefix operators below exactly so many others, from left to
right. -/
def nestedAt : Nat → Expr → List Expr
  | level, binary left _ right => left.nestedAt level ++ right.nestedAt level
  | 0, grouping inner paren => [grouping inner paren]
  | level + 1, grouping inner _ => inner.nestedAt level
  | _, literal _ => []
  | 0, unary operator operand => [unary operator operand]
  | level + 1, unary _ operand => operand.nestedAt level
  | _, reference _ => []

theorem nestedAt_eq_nil {expr : Expr} {level : Nat} (hnesting : expr.nesting ≤ level) :
    expr.nestedAt level = [] := by
  induction expr generalizing level with
  | binary left operator right ihLeft ihRight =>
      rw [nesting] at hnesting
      rw [nestedAt, ihLeft (by omega), ihRight (by omega), List.append_nil]
  | grouping inner paren ih =>
      obtain ⟨level, rfl⟩ := Nat.exists_eq_add_of_le' (Nat.le_trans (Nat.le_add_left 1 _) hnesting)
      exact ih (Nat.le_of_succ_le_succ hnesting)
  | literal value => simp [nestedAt]
  | unary operator operand ih =>
      obtain ⟨level, rfl⟩ := Nat.exists_eq_add_of_le' (Nat.le_trans (Nat.le_add_left 1 _) hnesting)
      exact ih (Nat.le_of_succ_le_succ hnesting)
  | reference name => simp [nestedAt]

/-- Only what nests within the limit has a value. -/
theorem nesting_le_of_evaluatePlainly {expr : Expr} {depth : Nat} {value : Value}
    (hdepth : depth ≤ limit) (hvalue : expr.evaluatePlainly limit bindings depth = .ok value) :
    depth + expr.nesting ≤ limit := by
  induction expr generalizing depth value with
  | binary left operator right ihLeft ihRight =>
      rw [evaluatePlainly_binary] at hvalue
      obtain ⟨first, hfirst, hrest⟩ := exists_of_bind hvalue
      obtain ⟨second, hsecond, -⟩ := exists_of_bind hrest
      have hleft := ihLeft hdepth hfirst
      have hright := ihRight hdepth hsecond
      rw [nesting]
      omega
  | grouping inner paren ih =>
      obtain ⟨hlevel, hinner⟩ := of_refusing_eq_ok hvalue
      have hnesting := ih (Int.ofNat_le.mp hlevel) hinner
      rw [nesting]
      omega
  | literal found => exact hdepth
  | unary operator operand ih =>
      obtain ⟨hlevel, hinside⟩ := of_refusing_eq_ok hvalue
      obtain ⟨found, hoperand, -⟩ := exists_of_bind hinside
      have hnesting := ih (Int.ofNat_le.mp hlevel) hoperand
      rw [nesting]
      omega
  | reference name => exact hdepth

/-- The outcome is the one without a limit, or the first of some nodes is refused. -/
def RefusedOr (nodes : List Expr) (unlimited outcome : Except RuntimeFault Value) : Prop :=
  outcome = unlimited ∨
    ∃ node later, nodes = node :: later ∧ outcome = .error (.tooDeep node.firstToken?)

theorem RefusedOr.bind {nodes nodes' : List Expr} {unlimited outcome : Except RuntimeFault Value}
    {unlimitedNext next : Value → Except RuntimeFault Value}
    (houtcome : RefusedOr nodes unlimited outcome)
    (hnext : ∀ value, outcome = .ok value →
      nodes = [] ∧ RefusedOr nodes' (unlimitedNext value) (next value)) :
    RefusedOr (nodes ++ nodes') (unlimited.bind unlimitedNext) (outcome.bind next) := by
  rcases houtcome with rfl | ⟨node, later, rfl, rfl⟩
  · cases houtcome : outcome with
    | error fault => exact .inl rfl
    | ok value =>
        obtain ⟨rfl, hrefused⟩ := hnext value houtcome
        exact hrefused
  · exact .inr ⟨node, later ++ nodes', rfl, rfl⟩

/-- A node with no room below the limit is refused. -/
theorem refusing_of_full {depth : Nat} (hfull : depth = limit) (expr : Expr)
    (inside : Except RuntimeFault Value) :
    refusing limit (depth + 1) expr inside = .error (.tooDeep expr.firstToken?) :=
  if_pos (by omega)

theorem refusing_of_room {depth room : Nat} (hroom : depth + (room + 1) = limit) (expr : Expr)
    (inside : Except RuntimeFault Value) : refusing limit (depth + 1) expr inside = inside :=
  if_neg (by omega)

/-- Under a limit a tree means what it means without one, unless a node lies
just beyond the limit: then the first such node is refused. -/
theorem refusedOr_evaluatePlainly (expr : Expr) {depth room : Nat} (hroom : depth + room = limit) :
    RefusedOr (expr.nestedAt room) (expr.meaning bindings)
      (expr.evaluatePlainly limit bindings depth) := by
  induction expr generalizing depth room with
  | binary left operator right ihLeft ihRight =>
      rw [nestedAt, meaning, evaluatePlainly_binary]
      apply (ihLeft hroom).bind
      intro first hfirst
      -- A left operand with a value has been entered completely.
      have hleft := nesting_le_of_evaluatePlainly (by omega) hfirst
      refine ⟨nestedAt_eq_nil (by omega), ?_⟩
      rw [← List.append_nil (right.nestedAt room)]
      apply (ihRight hroom).bind
      intro second hsecond
      have hright := nesting_le_of_evaluatePlainly (by omega) hsecond
      exact ⟨nestedAt_eq_nil (by omega), .inl rfl⟩
  | grouping inner paren ih =>
      rw [evaluatePlainly_grouping]
      cases room with
      | zero => exact .inr ⟨_, [], rfl, refusing_of_full hroom _ _⟩
      | succ room =>
          rw [refusing_of_room hroom]
          exact ih (by omega)
  | literal value => exact .inl rfl
  | unary operator operand ih =>
      rw [evaluatePlainly_unary]
      cases room with
      | zero => exact .inr ⟨_, [], rfl, refusing_of_full hroom _ _⟩
      | succ room =>
          rw [refusing_of_room hroom, nestedAt, ← List.append_nil (operand.nestedAt room)]
          apply (ih (by omega)).bind
          intro value hvalue
          have hoperand := nesting_le_of_evaluatePlainly (by omega) hvalue
          exact ⟨nestedAt_eq_nil (by omega), .inl rfl⟩
  | reference name => exact .inl rfl

/-- With a depth limit evaluation gives what it gives without one, as long as the
expression nests within the limit.  Otherwise it fails, with the fault that it has
without a limit or because of the leftmost node below exactly as many others as
the limit admits; the fault names the first token of that node, if it has one.
The depth counter is at zero again in the end. -/
theorem depth_limit_exact (limit : Nat) (bindings : Bindings) (expr : Expr) :
    let outcome := expr.evaluate (.withoutStack limit) bindings
    expr.evaluateCounting (.withoutStack limit) bindings 0 0 = (outcome, 0) ∧
      (expr.nesting ≤ limit → outcome = expr.meaning bindings) ∧
      (limit < expr.nesting → ∃ fault, outcome = .error fault ∧
        (expr.meaning bindings = .error fault ∨
          ∃ node later, expr.nestedAt limit = node :: later ∧
            fault = .tooDeep (node.walk.findSome? ownToken?))) := by
  intro outcome
  have hplain : outcome = expr.evaluatePlainly limit bindings 0 :=
    evaluateAt_eq_evaluatePlainly expr .empty
  refine ⟨evaluateCounting_eq expr 0 0, ?_, ?_⟩
  · intro hnesting
    exact expr.evaluate_eq_meaning (Int.ofNat_le.mpr hnesting) rfl
  · intro hnesting
    have hrefused : RefusedOr (expr.nestedAt limit) (expr.meaning bindings) outcome := by
      rw [hplain]
      exact refusedOr_evaluatePlainly expr (Nat.zero_add limit)
    cases houtcome : outcome with
    | ok value =>
        have hwithin := nesting_le_of_evaluatePlainly (Nat.zero_le limit)
          (hplain.symm.trans houtcome)
        omega
    | error fault =>
        refine ⟨fault, rfl, ?_⟩
        rw [houtcome] at hrefused
        rcases hrefused with hmeaning | ⟨node, later, hnodes, hfault⟩
        · exact .inl hmeaning.symm
        · refine .inr ⟨node, later, hnodes, ?_⟩
          rw [← firstToken?_eq]
          exact Except.error.inj hfault

/-- `!x == (((nil)))`: three levels are enough.  With two, the third bracket is refused if
`x` is bound, and otherwise the name fails before it. -/
theorem depth_limit_exact_brackets :
    let opening : Token := ⟨.leftParen, "(", none, 1⟩
    let name : Token := ⟨.identifier, "x", none, 1⟩
    let expr : Expr := .binary (.unary ⟨.bang, "!", none, 1⟩ (.reference name))
      ⟨.equalEqual, "==", none, 1⟩ (.grouping (.grouping (.grouping (.literal (some .nil))
        (some opening)) none) (some opening))
    let bound := Bindings.ofList [("x", .boolean true)]
    expr.evaluate (.withoutStack 3) bound = expr.meaning bound ∧
      expr.evaluate (.withoutStack 2) bound = .error (.tooDeep (some opening)) ∧
      expr.evaluate (.withoutStack 2) .empty = .error (.undefined name) ∧
      expr.meaning .empty = .error (.undefined name) := by
  intro opening name expr bound
  obtain ⟨-, hwithin, -⟩ := depth_limit_exact 3 bound expr
  obtain ⟨-, -, hbeyond⟩ := depth_limit_exact 2 bound expr
  obtain ⟨fault, hfault, hcause⟩ := hbeyond (by decide)
  have hrefused : fault = .tooDeep (some opening) := by
    rcases hcause with hmeaning | ⟨node, later, hnodes, hnode⟩
    · have hvalue : expr.meaning bound = .ok (.boolean false) := by decide +kernel
      rw [hvalue] at hmeaning
      contradiction
    · cases hnodes
      exact hnode.trans (by decide +kernel)
  rw [← hrefused]
  exact ⟨hwithin (by decide), hfault, by decide +kernel, by decide +kernel⟩

end Expr

end Lumen
