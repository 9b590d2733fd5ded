import Lumen.Tree.Expr

/-!
# The grammar and its derivations

The grammar of the language by itself, without a reader.  A derivation is a
tree of applied rules; it yields the tokens at its leaves and denotes a syntax
tree.  The layers are

    equality    -> comparison ( ( "!=" | "==" ) comparison )*
    comparison  -> term ( ( ">" | ">=" | "<" | "<=" ) term )*
    term        -> factor ( ( "-" | "+" ) factor )*
    factor      -> unary ( ( "/" | "*" ) unary )*
    unary       -> ( "!" | "-" ) unary | primary
    primary     -> NUMBER | STRING | "true" | "false" | "nil" | IDENTIFIER
                 | "(" equality ")"

A syntax tree forgets the tokens of literals and of closing brackets, so it
does not determine its derivation.  Together with the yield it does.
-/

namespace Lumen

namespace Expr

def tokenCount : Expr → Nat
  | binary left _ right => left.tokenCount + (right.tokenCount + 1)
  | grouping inner _ => inner.tokenCount + 2
  | literal _ => 1
  | unary _ operand => operand.tokenCount + 1
  | reference _ => 1

/-- The greatest number of brackets and prefix operators around a part. -/
def nesting : Expr → Nat
  | binary left _ right => max left.nesting right.nesting
  | grouping inner _ => inner.nesting + 1
  | literal _ => 0
  | unary _ operand => operand.nesting + 1
  | reference _ => 0

end Expr

def Stmt.expr? : Stmt → Option Expr
  | .print value => some value
  | .expression value => some value
  | .declare _ initializer => initializer

/-- The height of the layer that an operator joins; other kinds lie beyond all
layers. -/
def Kind.looseness : Kind → Nat
  | .slash | .star => 1
  | .minus | .plus => 2
  | .greater | .greaterEqual | .less | .lessEqual => 3
  | .bangEqual | .equalEqual => 4
  | _ => 5

namespace Grammar

/-- The phrase classes of expressions, the loosest first. -/
inductive Phrase where
  | equality | comparison | term | factor | unary | primary
  deriving DecidableEq, Repr

/-- The binary layers: a phrase class, its operators and the class of its
operands. -/
inductive Layer : Phrase → List Kind → Phrase → Prop
  | equality : Layer .equality [.bangEqual, .equalEqual] .comparison
  | comparison : Layer .comparison [.greater, .greaterEqual, .less, .lessEqual] .term
  | term : Layer .term [.minus, .plus] .factor
  | factor : Layer .factor [.slash, .star] .unary

theorem Layer.unique {phrase operand operand' : Phrase} {operators operators' : List Kind}
    (first : Layer phrase operators operand) (second : Layer phrase operators' operand') :
    operators = operators' ∧ operand = operand' := by
  cases first <;> cases second <;> exact ⟨rfl, rfl⟩

/-- How many binary layers lie within a phrase class. -/
def Phrase.height : Phrase → Nat
  | equality => 4
  | comparison => 3
  | term => 2
  | factor => 1
  | unary => 0
  | primary => 0

theorem Layer.height_eq {phrase operand : Phrase} {operators : List Kind}
    (layer : Layer phrase operators operand) : phrase.height = operand.height + 1 := by
  cases layer <;> rfl

theorem Layer.mem_iff {phrase operand : Phrase} {operators : List Kind}
    (layer : Layer phrase operators operand) (kind : Kind) :
    kind ∈ operators ↔ kind.looseness = phrase.height := by
  cases layer <;> cases kind <;> simp [Kind.looseness, Phrase.height]

/-- Derivations of a phrase class.  The chains of a binary layer grow to the
left. -/
inductive Derivation : Phrase → Type
  | only {phrase operand : Phrase} {operators : List Kind}
      (layer : Layer phrase operators operand) (single : Derivation operand) :
      Derivation phrase
  | join {phrase operand : Phrase} {operators : List Kind}
      (layer : Layer phrase operators operand) (left : Derivation phrase) (operator : Token)
      (hoperator : operator.kind ∈ operators) (right : Derivation operand) :
      Derivation phrase
  | sign (operator : Token) (hoperator : operator.kind ∈ [Kind.bang, Kind.minus])
      (operand : Derivation .unary) : Derivation .unary
  | plain (primary : Derivation .primary) : Derivation .unary
  | literal (token : Token)
      (htoken : token.kind ∈ [Kind.number, Kind.string, Kind.trueWord, Kind.falseWord,
        Kind.nilWord]) : Derivation .primary
  | reference (name : Token) (hname : name.kind = .identifier) : Derivation .primary
  | group (opening : Token) (hopening : opening.kind = .leftParen)
      (inner : Derivation .equality) (closing : Token) (hclosing : closing.kind = .rightParen) :
      Derivation .primary

namespace Derivation

def yield : {phrase : Phrase} → Derivation phrase → List Token
  | _, only _ single => single.yield
  | _, join _ left operator _ right => left.yield ++ operator :: right.yield
  | _, sign operator _ operand => operator :: operand.yield
  | _, plain primary => primary.yield
  | _, literal token _ => [token]
  | _, reference name _ => [name]
  | _, group opening _ inner closing _ => opening :: (inner.yield ++ [closing])

/-- The syntax tree that the grammar assigns. -/
def tree : {phrase : Phrase} → Derivation phrase → Expr
  | _, only _ single => single.tree
  | _, join _ left operator _ right => .binary left.tree operator right.tree
  | _, sign operator _ operand => .unary operator operand.tree
  | _, plain primary => primary.tree
  | _, literal token _ => .literal token.literal
  | _, reference name _ => .reference name
  | _, group opening _ inner _ _ => .grouping inner.tree (some opening)

/-- A derivation has as many tokens as its tree is written with. -/
theorem length_yield {phrase : Phrase} (derivation : Derivation phrase) :
    derivation.yield.length = derivation.tree.tokenCount := by
  induction derivation with
  | only _ single ih => exact ih
  | join _ left operator _ right ihLeft ihRight =>
      simp [yield, tree, Expr.tokenCount, ihLeft, ihRight]
  | sign operator _ operand ih => simp [yield, tree, Expr.tokenCount, ih]
  | plain primary ih => exact ih
  | literal => rfl
  | reference => rfl
  | group opening _ inner closing _ ih => simp [yield, tree, Expr.tokenCount, ih]

/-- A phrase has a first token, and no statement begins with it. -/
theorem exists_first {phrase : Phrase} (derivation : Derivation phrase) :
    ∃ first more, derivation.yield = first :: more ∧ first.kind.startsStatement = false := by
  induction derivation with
  | only _ single ih => exact ih
  | join _ left operator _ right ihLeft _ =>
      obtain ⟨first, more, hyield, hfirst⟩ := ihLeft
      exact ⟨first, more ++ operator :: right.yield, by simp [yield, hyield], hfirst⟩
  | sign operator hoperator operand =>
      refine ⟨operator, operand.yield, rfl, ?_⟩
      simp only [List.mem_cons, List.not_mem_nil, or_false] at hoperator
      rcases hoperator with hkind | hkind <;> rw [hkind] <;> rfl
  | plain primary ih => exact ih
  | literal token htoken =>
      refine ⟨token, [], rfl, ?_⟩
      simp only [List.mem_cons, List.not_mem_nil, or_false] at htoken
      rcases htoken with hkind | hkind | hkind | hkind | hkind <;> rw [hkind] <;> rfl
  | reference name hname => exact ⟨name, [], rfl, by rw [hname]; rfl⟩
  | group opening hopening inner closing =>
      exact ⟨opening, inner.yield ++ [closing], rfl, by rw [hopening]; rfl⟩

/-- A phrase of a binary layer is a single operand, or joins a shorter chain and
an operand. -/
theorem layer_cases {phrase operand : Phrase} {operators : List Kind}
    (layer : Layer phrase operators operand) (derivation : Derivation phrase) :
    (∃ single, derivation = .only layer single) ∨
      ∃ left operator hoperator right, derivation = .join layer left operator hoperator right := by
  cases derivation with
  | only layer' single =>
      obtain ⟨rfl, rfl⟩ := layer.unique layer'
      exact .inl ⟨single, rfl⟩
  | join layer' left operator hoperator right =>
      obtain ⟨rfl, rfl⟩ := layer.unique layer'
      exact .inr ⟨left, operator, hoperator, right, rfl⟩
  | sign => cases layer
  | plain => cases layer
  | literal => cases layer
  | reference => cases layer
  | group => cases layer

theorem unary_cases (derivation : Derivation .unary) :
    (∃ operator hoperator operand, derivation = .sign operator hoperator operand) ∨
      ∃ primary, derivation = .plain primary := by
  cases derivation with
  | only layer => cases layer
  | join layer => cases layer
  | sign operator hoperator operand => exact .inl ⟨operator, hoperator, operand, rfl⟩
  | plain primary => exact .inr ⟨primary, rfl⟩

theorem primary_cases (derivation : Derivation .primary) :
    (∃ token htoken, derivation = .literal token htoken) ∨
      (∃ name hname, derivation = .reference name hname) ∨
      ∃ opening hopening inner closing hclosing,
        derivation = .group opening hopening inner closing hclosing := by
  cases derivation with
  | only layer => cases layer
  | join layer => cases layer
  | literal token htoken => exact .inl ⟨token, htoken, rfl⟩
  | reference name hname => exact .inr (.inl ⟨name, hname, rfl⟩)
  | group opening hopening inner closing hclosing =>
      exact .inr (.inr ⟨opening, hopening, inner, closing, hclosing, rfl⟩)

/-- Only an operator of the phrase's own layer or of a tighter one can stand at
the root of its tree. -/
theorem looseness_le_of_tree {phrase : Phrase} (derivation : Derivation phrase)
    {left right : Expr} {operator : Token}
    (htree : derivation.tree = .binary left operator right) :
    operator.kind.looseness ≤ phrase.height := by
  induction derivation with
  | only layer single ih =>
      have hsingle := ih htree
      have hheight := layer.height_eq
      omega
  | join layer _ found hfound _ =>
      simp only [tree, Expr.binary.injEq] at htree
      obtain ⟨-, rfl, -⟩ := htree
      exact Nat.le_of_eq ((layer.mem_iff found.kind).mp hfound)
  | sign => simp [tree] at htree
  | plain primary ih => exact ih htree
  | literal => simp [tree] at htree
  | reference => simp [tree] at htree
  | group => simp [tree] at htree

/-- A chain and a single operand of one layer denote different trees: the
operator would have to belong to two layers. -/
theorem tree_only_ne_tree_join {phrase operand : Phrase} {operators : List Kind}
    (layer : Layer phrase operators operand) (single right : Derivation operand)
    (left : Derivation phrase) (operator : Token) (hoperator : operator.kind ∈ operators) :
    (only layer single).tree ≠ (join layer left operator hoperator right).tree := by
  intro htree
  have hsingle := single.looseness_le_of_tree htree
  have hown := (layer.mem_iff operator.kind).mp hoperator
  have hheight := layer.height_eq
  omega

theorem tree_sign_ne_tree_plain (operator : Token)
    (hoperator : operator.kind ∈ [Kind.bang, Kind.minus]) (operand : Derivation .unary)
    (primary : Derivation .primary) :
    (sign operator hoperator operand).tree ≠ (plain primary).tree := by
  obtain ⟨token, htoken, rfl⟩ | ⟨name, hname, rfl⟩ |
    ⟨opening, hopening, inner, closing, hclosing, rfl⟩ := primary.primary_cases
  · simp [tree]
  · simp [tree]
  · simp [tree]

/-- A syntax tree and a yield determine the derivation. -/
theorem eq_of_tree_of_yield {phrase : Phrase} (first second : Derivation phrase)
    (htree : first.tree = second.tree) (hyield : first.yield = second.yield) :
    first = second := by
  induction first with
  | only layer single ih =>
      obtain ⟨single', rfl⟩ | ⟨left', operator', hoperator', right', rfl⟩ :=
        second.layer_cases layer
      · rw [ih single' htree hyield]
      · exact absurd htree (tree_only_ne_tree_join layer single right' left' operator' hoperator')
  | join layer left operator hoperator right ihLeft ihRight =>
      obtain ⟨single', rfl⟩ | ⟨left', operator', hoperator', right', rfl⟩ :=
        second.layer_cases layer
      · exact absurd htree.symm (tree_only_ne_tree_join layer single' right left operator hoperator)
      · simp only [tree, Expr.binary.injEq] at htree
        obtain ⟨hleft, rfl, hright⟩ := htree
        -- Equal trees are written with equally many tokens, which splits the yield.
        have hlength : left.yield.length = left'.yield.length := by
          rw [length_yield, length_yield, hleft]
        obtain ⟨hleftYield, hrest⟩ := List.append_inj hyield hlength
        rw [ihLeft left' hleft hleftYield, ihRight right' hright (List.cons.inj hrest).2]
  | sign operator hoperator operand ih =>
      obtain ⟨operator', hoperator', operand', rfl⟩ | ⟨primary', rfl⟩ := second.unary_cases
      · simp only [tree, Expr.unary.injEq] at htree
        obtain ⟨rfl, hoperand⟩ := htree
        rw [ih operand' hoperand (List.cons.inj hyield).2]
      · exact absurd htree (tree_sign_ne_tree_plain operator hoperator operand primary')
  | plain primary ih =>
      obtain ⟨operator', hoperator', operand', rfl⟩ | ⟨primary', rfl⟩ := second.unary_cases
      · exact absurd htree.symm (tree_sign_ne_tree_plain operator' hoperator' operand' primary)
      · rw [ih primary' htree hyield]
  | literal token htoken =>
      obtain ⟨token', htoken', rfl⟩ | ⟨name', hname', rfl⟩ |
        ⟨opening', hopening', inner', closing', hclosing', rfl⟩ := second.primary_cases
      · obtain rfl := (List.cons.inj hyield).1
        rfl
      · simp [tree] at htree
      · simp [tree] at htree
  | reference name hname =>
      obtain ⟨token', htoken', rfl⟩ | ⟨name', hname', rfl⟩ |
        ⟨opening', hopening', inner', closing', hclosing', rfl⟩ := second.primary_cases
      · simp [tree] at htree
      · obtain rfl := (List.cons.inj hyield).1
        rfl
      · simp [tree] at htree
  | group opening hopening inner closing hclosing ih =>
      obtain ⟨token', htoken', rfl⟩ | ⟨name', hname', rfl⟩ |
        ⟨opening', hopening', inner', closing', hclosing', rfl⟩ := second.primary_cases
      · simp [tree] at htree
      · simp [tree] at htree
      · simp only [tree, Expr.grouping.injEq] at htree
        obtain ⟨rfl, hbody⟩ := List.cons.inj hyield
        obtain ⟨hinner, hclose⟩ := List.append_inj' hbody rfl
        obtain rfl := (List.cons.inj hclose).1
        rw [ih inner' htree.1 hinner]

theorem eq_of_tree_of_yield_append {phrase : Phrase} (first second : Derivation phrase)
    {closing closing' : Token} (htree : first.tree = second.tree)
    (hyield : first.yield ++ [closing] = second.yield ++ [closing']) :
    first = second ∧ closing = closing' := by
  obtain ⟨hbody, hclose⟩ := List.append_inj' hyield rfl
  exact ⟨first.eq_of_tree_of_yield second htree hbody, (List.cons.inj hclose).1⟩

end Derivation

/-- Derivations of declarations and statements. -/
inductive Clause where
  | declareNil (word name semicolon : Token) (hword : word.kind = .varWord)
      (hname : name.kind = .identifier) (hsemicolon : semicolon.kind = .semicolon)
  | declareValue (word name equal : Token) (value : Derivation .equality) (semicolon : Token)
      (hword : word.kind = .varWord) (hname : name.kind = .identifier)
      (hequal : equal.kind = .equal) (hsemicolon : semicolon.kind = .semicolon)
  | print (word : Token) (value : Derivation .equality) (semicolon : Token)
      (hword : word.kind = .printWord) (hsemicolon : semicolon.kind = .semicolon)
  | evaluate (value : Derivation .equality) (semicolon : Token)
      (hsemicolon : semicolon.kind = .semicolon)

namespace Clause

def yield : Clause → List Token
  | declareNil word name semicolon _ _ _ => [word, name, semicolon]
  | declareValue word name equal value semicolon _ _ _ _ =>
      word :: name :: equal :: (value.yield ++ [semicolon])
  | print word value semicolon _ _ => word :: (value.yield ++ [semicolon])
  | evaluate value semicolon _ => value.yield ++ [semicolon]

def tree : Clause → Stmt
  | declareNil _ name _ _ _ _ => .declare name none
  | declareValue _ name _ value _ _ _ _ _ => .declare name (some value.tree)
  | print _ value _ _ _ => .print value.tree
  | evaluate value _ _ => .expression value.tree

/-- A statement and a yield determine the derivation. -/
theorem eq_of_tree_of_yield (first second : Clause) (htree : first.tree = second.tree)
    (hyield : first.yield = second.yield) : first = second := by
  cases first with
  | declareNil word name semicolon _ _ _ =>
      cases second with
      | declareNil =>
          simp only [yield, List.cons.injEq, and_true] at hyield
          obtain ⟨rfl, rfl, rfl⟩ := hyield
          rfl
      | declareValue => simp [tree] at htree
      | print => simp [tree] at htree
      | evaluate => simp [tree] at htree
  | declareValue word name equal value semicolon _ _ _ _ =>
      cases second with
      | declareNil => simp [tree] at htree
      | declareValue word' name' equal' value' semicolon' _ _ _ _ =>
          simp only [tree, Stmt.declare.injEq, Option.some.injEq] at htree
          simp only [yield, List.cons.injEq] at hyield
          obtain ⟨rfl, rfl, rfl, hbody⟩ := hyield
          obtain ⟨rfl, rfl⟩ := value.eq_of_tree_of_yield_append value' htree.2 hbody
          rfl
      | print => simp [tree] at htree
      | evaluate => simp [tree] at htree
  | print word value semicolon _ _ =>
      cases second with
      | declareNil => simp [tree] at htree
      | declareValue => simp [tree] at htree
      | print word' value' semicolon' _ _ =>
          simp only [tree, Stmt.print.injEq] at htree
          simp only [yield, List.cons.injEq] at hyield
          obtain ⟨rfl, hbody⟩ := hyield
          obtain ⟨rfl, rfl⟩ := value.eq_of_tree_of_yield_append value' htree hbody
          rfl
      | evaluate => simp [tree] at htree
  | evaluate value semicolon _ =>
      cases second with
      | declareNil => simp [tree] at htree
      | declareValue => simp [tree] at htree
      | print => simp [tree] at htree
      | evaluate value' semicolon' _ =>
          simp only [tree, Stmt.expression.injEq] at htree
          obtain ⟨rfl, rfl⟩ := value.eq_of_tree_of_yield_append value' htree hyield
          rfl

end Clause

end Grammar

end Lumen
