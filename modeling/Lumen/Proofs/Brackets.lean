import Mathlib.Combinatorics.Enumerative.DyckWord
import Lumen.Proofs.Preorder
import Lumen.Proofs.Rendering

/-!
# Brackets of rendered trees

Where no text of an operator, a name or a value contains a bracket, the brackets
of a rendered tree are those of its structure: a pair around every operator with
its operands and around every grouping, and none around values and names.
-/

namespace Lumen

def bracket? (c : Char) : Option DyckStep :=
  if c = '(' then some .U else if c = ')' then some .D else none

def brackets (text : String) : List DyckStep :=
  text.toList.filterMap bracket?

theorem brackets_append (first second : String) :
    brackets (first ++ second) = brackets first ++ brackets second := by
  rw [brackets, String.toList_append, List.filterMap_append]
  rfl

theorem brackets_eq_nil {text : String} (hplain : '(' ∉ text.toList ∧ ')' ∉ text.toList) :
    brackets text = [] := by
  apply List.filterMap_eq_nil_iff.mpr
  intro c hmem
  have hopen : c ≠ '(' := fun hc => hplain.1 (hc ▸ hmem)
  have hclose : c ≠ ')' := fun hc => hplain.2 (hc ▸ hmem)
  rw [bracket?, if_neg hopen, if_neg hclose]

namespace Expr

/-- Whether an expression stands in brackets of its own. -/
def isBracketed : Expr → Bool
  | binary _ _ _ => true
  | grouping _ _ => true
  | literal _ => false
  | unary _ _ => true
  | reference _ => false

/-- What an expression itself adds to its text: its operator, its name or the
text of its value. -/
def ownText? : Expr → Option String
  | binary _ operator _ => some operator.lexeme
  | grouping _ _ => none
  | literal value => some (value.elim "nil" Value.display)
  | unary operator _ => some operator.lexeme
  | reference name => some name.lexeme

/-- Nothing that the expressions of a tree add to its text contains a bracket. -/
def IsPlain (expr : Expr) : Prop :=
  ∀ part ∈ expr.walk, ∀ own ∈ part.ownText?, '(' ∉ own.toList ∧ ')' ∉ own.toList

instance (expr : Expr) : Decidable expr.IsPlain :=
  inferInstanceAs (Decidable (∀ part ∈ expr.walk, ∀ own ∈ part.ownText?,
    '(' ∉ own.toList ∧ ')' ∉ own.toList))

/-- The brackets that the structure of a tree asks for. -/
def outline : Expr → DyckWord
  | binary left _ right => (left.outline + right.outline).nest
  | grouping inner _ => inner.outline.nest
  | literal _ => 0
  | unary _ operand => operand.outline.nest
  | reference _ => 0

/-- The outline has as many pairs as expressions that stand in brackets of their
own. -/
theorem semilength_outline (expr : Expr) :
    expr.outline.semilength = expr.walk.countP isBracketed := by
  rw [walk_eq_preorder]
  induction expr with
  | binary left operator right ihLeft ihRight =>
      rw [outline, DyckWord.semilength_nest, DyckWord.semilength_add, ihLeft, ihRight, preorder,
        List.countP_cons_of_pos rfl, List.countP_append]
  | grouping inner paren ih =>
      rw [outline, DyckWord.semilength_nest, ih, preorder, List.countP_cons_of_pos rfl]
  | literal value => rfl
  | unary operator operand ih =>
      rw [outline, DyckWord.semilength_nest, ih, preorder, List.countP_cons_of_pos rfl]
  | reference name => rfl

/-! ## Plain trees -/

variable {expr : Expr}

theorem IsPlain.own (hplain : expr.IsPlain) {own : String} (hown : expr.ownText? = some own) :
    brackets own = [] := by
  refine brackets_eq_nil (hplain expr ?_ own hown)
  rw [walk_eq]
  exact List.mem_cons_self

theorem IsPlain.of_child (hplain : expr.IsPlain) {child : Expr} (hchild : child ∈ expr.children) :
    child.IsPlain := by
  intro part hpart own hown
  refine hplain part ?_ own hown
  rw [walk_eq]
  exact List.mem_cons_of_mem _ (List.mem_flatMap_of_mem hchild hpart)

/-- Every pair of brackets is written around the texts of the parts, and nothing
that stands between them is a bracket. -/
theorem brackets_text (hplain : expr.IsPlain) : brackets expr.text = expr.outline.toList := by
  have hopen : brackets "(" = [.U] := by decide
  have hclose : brackets ")" = [.D] := by decide
  have hspace : brackets " " = [] := by decide
  induction expr with
  | binary left operator right ihLeft ihRight =>
      have hleft := ihLeft (hplain.of_child (by simp [children]))
      have hright := ihRight (hplain.of_child (by simp [children]))
      calc brackets (binary left operator right).text
          = [.U] ++ left.outline.toList ++ right.outline.toList ++ [.D] := by
            simp only [text, brackets_append, hopen, hclose, hspace, hplain.own rfl, hleft,
              hright, List.append_nil]
        _ = [.U] ++ (left.outline.toList ++ right.outline.toList) ++ [.D] := by
            rw [List.append_assoc [DyckStep.U]]
        _ = (left.outline + right.outline).nest.toList := rfl
  | grouping inner paren ih =>
      have hinner := ih (hplain.of_child (by simp [children]))
      have hgroup : brackets "(group " = [.U] := by decide
      simp only [text, brackets_append, hgroup, hclose, hinner]
      rfl
  | literal value => exact hplain.own rfl
  | unary operator operand ih =>
      have hoperand := ih (hplain.of_child (by simp [children]))
      simp only [text, brackets_append, hopen, hclose, hspace, hplain.own rfl, hoperand,
        List.append_nil]
      rfl
  | reference name => exact hplain.own rfl

/-- Without a stack limit every tree is shown, and as the structure of the tree
says; under a limit nothing else is ever shown.  If the tree is plain, the
brackets of its text are balanced, and there are as many pairs as the walk meets
operators and groupings. -/
theorem rendering_follows_structure (expr : Expr) :
    expr.render none = some expr.text ∧
      (∀ stack shown, expr.render stack = some shown → shown = expr.text) ∧
      (expr.IsPlain → ∃ word : DyckWord,
        brackets expr.text = word.toList ∧ word.semilength = expr.walk.countP isBracketed) := by
  refine ⟨render_eq none expr, fun _ _ hshown => eq_text_of_render hshown, ?_⟩
  intro hplain
  exact ⟨expr.outline, brackets_text hplain, expr.semilength_outline⟩

/-- In `-1 + (2 * x) - y` there are operands in brackets on the left and on the
right. -/
theorem rendering_follows_structure_mixed :
    let minus : Token := ⟨.minus, "-", none, 1⟩
    let name (lexeme : String) : Expr := .reference ⟨.identifier, lexeme, none, 1⟩
    let number (value : Float) : Expr := .literal (some (.number value))
    let product : Expr := .binary (number 2) ⟨.star, "*", none, 1⟩ (name "x")
    let sum : Expr :=
      .binary (.unary minus (number 1)) ⟨.plus, "+", none, 1⟩ (.grouping product none)
    let expr : Expr := .binary sum minus (name "y")
    expr.IsPlain ∧
      expr.render none = some "(- (+ (- 1) (group (* 2 x))) y)" ∧
      ∃ word : DyckWord,
        brackets "(- (+ (- 1) (group (* 2 x))) y)" = word.toList ∧ word.semilength = 5 := by
  intro minus name number product sum expr
  obtain ⟨hplain, htext, hcount⟩ : expr.IsPlain ∧
      expr.text = "(- (+ (- 1) (group (* 2 x))) y)" ∧ expr.walk.countP isBracketed = 5 := by
    decide +kernel
  obtain ⟨hshown, -, hbrackets⟩ := rendering_follows_structure expr
  rw [htext] at hshown hbrackets
  rw [hcount] at hbrackets
  exact ⟨hplain, hshown, hbrackets hplain⟩

end Expr

end Lumen
