import Lumen.Tree.Render
import Lumen.Proofs.Meaning

/-!
# Rendering by structure

The loop over the left operands of a chain writes what the structure of the
tree says.  A tree is shown if and only if the stack holds the frames that its
deepest point needs, and then its text is that of the structure.
-/

namespace Lumen

namespace Expr

/-- The text of an expression: fully parenthesized, the operator in front. -/
def text : Expr → String
  | binary left operator right =>
      "(" ++ operator.lexeme ++ " " ++ left.text ++ " " ++ right.text ++ ")"
  | grouping inner _ => "(group " ++ inner.text ++ ")"
  | literal value => value.elim "nil" Value.display
  | unary operator operand => "(" ++ operator.lexeme ++ " " ++ operand.text ++ ")"
  | reference name => name.lexeme

def renderingCosts : FrameCosts := ⟨renderNested, renderNested, renderSideways⟩

variable {stack : Option Nat} {frames : Nat}

/-! ## One equation per kind of expression -/

def renderLeft (stack : Option Nat) (frames : Nat) (left : Expr) : Option String :=
  renderPart stack (frames + left.leftFrames renderSideways) left

/-- Attaches an operator with its right operand to the text of the left one. -/
def attach (stack : Option Nat) (frames : Nat) (operator : Token) (right : Expr)
    (left : String) : Option String :=
  (renderPart stack (frames + renderSideways) right).map fun shown =>
    "(" ++ operator.lexeme ++ " " ++ left ++ " " ++ shown ++ ")"

theorem renderOnto_cons (left : String) (operator : Token) (right : Expr)
    (pending : List (Token × Expr)) :
    renderOnto stack frames left ((operator, right) :: pending) =
      (attach stack frames operator right left).bind fun shown =>
        renderOnto stack frames shown pending := by
  rw [renderOnto, attach]
  cases renderPart stack (frames + renderSideways) right <;> rfl

theorem renderChain_operand {expr : Expr}
    (hoperand : ∀ left operator right, expr ≠ .binary left operator right)
    (pending : List (Token × Expr)) :
    renderChain stack frames expr pending =
      (renderPart stack (frames + renderSideways) expr).bind fun shown =>
        renderOnto stack frames shown pending := by
  rw [renderChain]
  · cases renderPart stack (frames + renderSideways) expr <;> rfl
  · exact hoperand

/-- Where the stack is exhausted already, not even the leftmost operand is
shown. -/
theorem renderChain_overflow (hframes : ¬ stackHolds stack frames = true) (expr : Expr)
    (pending : List (Token × Expr)) : renderChain stack frames expr pending = none := by
  have hfull : ¬ stackHolds stack (frames + renderSideways) = true :=
    fun hholds => hframes (stackHolds_mono (Nat.le_add_right _ _) hholds)
  have hleftmost : ∀ {operand : Expr},
      (∀ left operator right, operand ≠ .binary left operator right) → ∀ pending,
        renderChain stack frames operand pending = none := by
    intro operand hoperand pending
    rw [renderChain_operand hoperand, renderPart, if_neg hfull]
    rfl
  induction expr generalizing pending with
  | binary left operator right ihLeft => rw [renderChain, ihLeft]
  | grouping inner paren => exact hleftmost (by simp) pending
  | literal value => exact hleftmost (by simp) pending
  | unary operator operand => exact hleftmost (by simp) pending
  | reference name => exact hleftmost (by simp) pending

/-- A chain costs nothing as a left operand. -/
theorem renderLeft_binary (left : Expr) (operator : Token) (right : Expr) :
    renderLeft stack frames (.binary left operator right) =
      renderAt stack frames (.binary left operator right) := by
  rw [renderLeft]
  change renderPart stack frames _ = _
  rw [renderPart]
  split
  · rfl
  · next hframes => rw [renderAt, renderChain_overflow hframes]

/-- Walking down the left operands first changes nothing. -/
theorem renderChain_eq (expr : Expr) (pending : List (Token × Expr)) :
    renderChain stack frames expr pending =
      (renderLeft stack frames expr).bind fun shown =>
        renderOnto stack frames shown pending := by
  induction expr generalizing pending with
  | binary left operator right ihLeft =>
      have hstep : ∀ shown, renderOnto stack frames shown ((operator, right) :: pending) =
          (renderOnto stack frames shown [(operator, right)]).bind fun joined =>
            renderOnto stack frames joined pending := by
        intro shown
        rw [renderOnto_cons, renderOnto_cons, Option.bind_assoc]
        apply congrArg
        funext joined
        rw [renderOnto]
        rfl
      calc renderChain stack frames (.binary left operator right) pending
          = (renderLeft stack frames left).bind fun shown =>
              renderOnto stack frames shown ((operator, right) :: pending) := by
            rw [renderChain, ihLeft]
        _ = ((renderLeft stack frames left).bind fun shown =>
              renderOnto stack frames shown [(operator, right)]).bind fun joined =>
                renderOnto stack frames joined pending := by
            rw [Option.bind_assoc]
            simp only [hstep]
        _ = (renderLeft stack frames (.binary left operator right)).bind fun joined =>
              renderOnto stack frames joined pending := by
            rw [renderLeft_binary, renderAt, ihLeft]
  | grouping inner paren => exact renderChain_operand (by simp) pending
  | literal value => exact renderChain_operand (by simp) pending
  | unary operator operand => exact renderChain_operand (by simp) pending
  | reference name => exact renderChain_operand (by simp) pending

/-- A binary expression is shown as its left operand, to which the operator
attaches the right one. -/
theorem renderAt_binary (left : Expr) (operator : Token) (right : Expr) :
    renderAt stack frames (.binary left operator right) =
      (renderLeft stack frames left).bind (attach stack frames operator right) := by
  rw [renderAt, renderChain_eq]
  apply congrArg
  funext shown
  rw [renderOnto_cons]
  cases attach stack frames operator right shown with
  | none => rfl
  | some joined => exact renderOnto.eq_1 ..

/-! ## What the stack allows -/

/-- A part that costs frames is shown if the stack holds these and those of its
own deepest point. -/
theorem renderPart_eq {inner : Expr} (cost : Nat)
    (hinner : stackHolds stack (frames + cost) = true →
      renderAt stack (frames + cost) inner =
        if stackHolds stack (frames + cost + inner.stackUse renderingCosts) then some inner.text
        else none) :
    renderPart stack (frames + cost) inner =
      if stackHolds stack (frames + (cost + inner.stackUse renderingCosts)) then some inner.text
      else none := by
  rw [renderPart, ← Nat.add_assoc]
  by_cases hroom : stackHolds stack (frames + cost) = true
  · rw [if_pos hroom, hinner hroom]
  · have hdeep : ¬ stackHolds stack (frames + cost + inner.stackUse renderingCosts) = true :=
      fun hholds => hroom (stackHolds_mono (Nat.le_add_right _ _) hholds)
    rw [if_neg hroom, if_neg hdeep]

/-- The text of an expression, if the stack holds the frames of its deepest
point. -/
theorem renderAt_eq (expr : Expr) (frames : Nat) (hframes : stackHolds stack frames = true) :
    renderAt stack frames expr =
      if stackHolds stack (frames + expr.stackUse renderingCosts) then some expr.text
      else none := by
  induction expr generalizing frames with
  | binary left operator right ihLeft ihRight =>
      have hcost : renderingCosts.operand = renderSideways := rfl
      rw [renderAt_binary, renderLeft, renderPart_eq _ (ihLeft _), stackUse, hcost, stackHolds_max,
        text]
      by_cases hleft : stackHolds stack
          (frames + (left.leftFrames renderSideways + left.stackUse renderingCosts)) = true
      · rw [if_pos hleft, hleft, Bool.true_and, Option.bind_some, attach,
          renderPart_eq _ (ihRight _), apply_ite (Option.map _)]
        rfl
      · rw [if_neg hleft, Bool.eq_false_iff.mpr hleft, Bool.false_and]
        rfl
  | grouping inner paren ih =>
      rw [renderAt, renderPart_eq _ (ih _), stackUse, text, apply_ite (Option.map _)]
      rfl
  | literal value =>
      rw [renderAt, stackUse, Nat.add_zero, if_pos hframes, text]
  | unary operator operand ih =>
      rw [renderAt, renderPart_eq _ (ih _), stackUse, text, apply_ite (Option.map _)]
      rfl
  | reference name =>
      rw [renderAt, stackUse, Nat.add_zero, if_pos hframes, text]

/-- Nothing stands above the outermost expression, and no stack is too small
for that. -/
theorem render_eq (stack : Option Nat) (expr : Expr) :
    expr.render stack =
      if stackHolds stack (expr.stackUse renderingCosts) then some expr.text else none := by
  have hempty : stackHolds stack 0 = true := by
    cases stack with
    | none => rfl
    | some limit => exact decide_eq_true (Nat.zero_le limit)
  rw [render, renderAt_eq expr 0 hempty, Nat.zero_add]

/-- An expression that is shown is shown as its text. -/
theorem eq_text_of_render {expr : Expr} {shown : String}
    (hshown : expr.render stack = some shown) : shown = expr.text := by
  rw [render_eq] at hshown
  split at hshown
  · exact (Option.some.inj hshown).symm
  · cases hshown

end Expr

def Stmt.text : Stmt → String
  | print value => "(print " ++ value.text ++ ")"
  | expression value => "(; " ++ value.text ++ ")"
  | declare name none => "(var " ++ name.lexeme ++ ")"
  | declare name (some value) => "(var " ++ name.lexeme ++ " " ++ value.text ++ ")"

/-- A statement that is shown is shown as its text. -/
theorem Stmt.eq_text_of_render {stack : Option Nat} {stmt : Stmt} {shown : String}
    (hshown : stmt.render stack = some shown) : shown = stmt.text := by
  have hexpr : ∀ {expr : Expr} {wrap : String → String},
      (expr.render stack).map wrap = some shown → shown = wrap expr.text := by
    intro expr wrap hmap
    obtain ⟨inner, hinner, rfl⟩ := Option.map_eq_some_iff.mp hmap
    rw [Expr.eq_text_of_render hinner]
  cases stmt with
  | print value => exact hexpr hshown
  | expression value => exact hexpr hshown
  | declare name initializer =>
      cases initializer with
      | none => exact (Option.some.inj hshown).symm
      | some value => exact hexpr hshown

/-- A statement is shown if and only if its expression is. -/
theorem Stmt.isSome_render_iff (stack : Option Nat) (stmt : Stmt) :
    (stmt.render stack).isSome = true ↔
      ∀ expr ∈ stmt.expr?, stackHolds stack (expr.stackUse Expr.renderingCosts) = true := by
  have hshown : ∀ expr : Expr, (expr.render stack).isSome =
      stackHolds stack (expr.stackUse Expr.renderingCosts) := by
    intro expr
    rw [Expr.render_eq]
    split
    · next hholds => rw [hholds, Option.isSome_some]
    · next hholds => rw [Bool.eq_false_iff.mpr hholds, Option.isSome_none]
  cases stmt with
  | print value => simp [render, expr?, hshown]
  | expression value => simp [render, expr?, hshown]
  | declare name initializer =>
      cases initializer with
      | none => simp [render, expr?]
      | some value => simp [render, expr?, hshown]

end Lumen
