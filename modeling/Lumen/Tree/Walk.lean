import Lumen.Tree.Expr

/-!
# Walking a tree

A walk lists an expression and everything below it, parents first and parts
from left to right.  It keeps the parts still to visit on a stack of its own,
so its depth does not matter.
-/

namespace Lumen

namespace Expr

def stackWeight : List Expr → Nat
  | [] => 0
  | expr :: stack => expr.weight + stackWeight stack

theorem stackWeight_append (left right : List Expr) :
    stackWeight (left ++ right) = stackWeight left + stackWeight right := by
  induction left with
  | nil => simp [stackWeight]
  | cons expr left ih => simp [stackWeight, ih, Nat.add_assoc]

/-- The parts of an expression weigh less than the expression, so a walk
ends. -/
theorem stackWeight_children_lt (expr : Expr) :
    stackWeight expr.children < expr.weight := by
  cases expr <;> simp only [children, stackWeight, weight] <;> omega

/-- Visits the expressions on a stack. -/
def walkStack : List Expr → List Expr
  | [] => []
  | expr :: stack => expr :: walkStack (expr.children ++ stack)
termination_by stack => stackWeight stack
decreasing_by
  rw [stackWeight_append, stackWeight]
  have hchildren := stackWeight_children_lt expr
  omega

/-- An expression and everything below it. -/
def walk (expr : Expr) : List Expr :=
  walkStack [expr]

theorem walkStack_append (first second : List Expr) :
    walkStack (first ++ second) = walkStack first ++ walkStack second := by
  fun_induction walkStack first with
  | case1 => rfl
  | case2 expr stack ih =>
      rw [List.cons_append, walkStack, ← List.append_assoc, ih, List.cons_append]

/-- The expressions on a stack are walked one after the other. -/
theorem walkStack_eq (stack : List Expr) : walkStack stack = stack.flatMap walk := by
  induction stack with
  | nil => rw [walkStack, List.flatMap_nil]
  | cons expr stack ih =>
      rw [List.flatMap_cons, ← ih]
      exact walkStack_append [expr] stack

/-- A walk goes through the parts of an expression behind the expression itself. -/
theorem walk_eq (expr : Expr) : expr.walk = expr :: expr.children.flatMap walk := by
  rw [← walkStack_eq, walk, walkStack, List.append_nil]

def ownToken? : Expr → Option Token
  | binary _ operator _ => some operator
  | grouping _ paren => paren
  | literal _ => none
  | unary operator _ => some operator
  | reference name => some name

/-- The first token that a visit of the expressions on a stack meets.  Nothing
behind it is visited. -/
def tokenOnStack? : List Expr → Option Token
  | [] => none
  | expr :: stack =>
      match expr.ownToken? with
      | some token => some token
      | none => tokenOnStack? (expr.children ++ stack)
termination_by stack => stackWeight stack
decreasing_by
  rw [stackWeight_append, stackWeight]
  have hchildren := stackWeight_children_lt expr
  omega

theorem tokenOnStack?_eq (stack : List Expr) :
    tokenOnStack? stack = (walkStack stack).findSome? ownToken? := by
  fun_induction tokenOnStack? stack with
  | case1 => simp [walkStack]
  | case2 expr stack token htoken => simp [walkStack, htoken]
  | case3 expr stack hnone ih => simp [walkStack, hnone, ih]

/-- The first token that a walk meets. -/
def firstToken? (expr : Expr) : Option Token :=
  tokenOnStack? [expr]

theorem firstToken?_eq (expr : Expr) :
    expr.firstToken? = expr.walk.findSome? ownToken? :=
  tokenOnStack?_eq [expr]

end Expr

/-- The token that a failure of the whole statement is blamed on. -/
def Stmt.firstToken? : Stmt → Option Token
  | .print value => value.firstToken?
  | .expression value => value.firstToken?
  | .declare name _ => some name

end Lumen
