import Lumen.Proofs.Acceptance
import Lumen.Proofs.Execution
import Lumen.Proofs.Pieces

/-!
# Moving a program down

A program that stands some lines further down in its source is scanned, read
and run as it was before.  The lines of its tokens and of the diagnostics about
it grow by the number of lines that it was moved; nothing else changes.
-/

namespace Lumen

/-! ## What moves -/

/-- The token some lines further down. -/
def Token.shift (lines : Int) (token : Token) : Token :=
  { token with line := token.line + lines }

def Piece.shift (lines : Int) (piece : Piece) : Piece :=
  { piece with line := piece.line + lines }

/-- The diagnostic some lines further down, together with its token. -/
def Diagnostic.shift (lines : Int) (diagnostic : Diagnostic) : Diagnostic :=
  { diagnostic with
    line := diagnostic.line + lines
    token := diagnostic.token.map (Token.shift lines) }

def Event.shift (lines : Int) : Event → Event
  | reported diagnostic => reported (diagnostic.shift lines)
  | event => event

def Expr.shift (lines : Int) : Expr → Expr
  | binary left operator right =>
      binary (left.shift lines) (operator.shift lines) (right.shift lines)
  | grouping inner paren => grouping (inner.shift lines) (paren.map (Token.shift lines))
  | literal value => literal value
  | unary operator operand => unary (operator.shift lines) (operand.shift lines)
  | reference name => reference (name.shift lines)

def Stmt.shift (lines : Int) : Stmt → Stmt
  | print value => print (value.shift lines)
  | expression value => expression (value.shift lines)
  | declare name initializer =>
      declare (name.shift lines) (initializer.map (Expr.shift lines))

def RuntimeFault.shift (lines : Int) : RuntimeFault → RuntimeFault
  | illegal operator => illegal (operator.shift lines)
  | undefined name => undefined (name.shift lines)
  | tooDeep token => tooDeep (token.map (Token.shift lines))
  | overflow => overflow
  | unknownOperator kind => unknownOperator kind

def Execution.shift (lines : Int) (execution : Execution) : Execution :=
  { execution with events := execution.events.map (Event.shift lines) }

/-! ## Scanning -/

/-- A text that begins some lines further down has its pieces there. -/
theorem Scan.pieces_shift (line lines : Int) (text : List Char) :
    pieces (line + lines) text = (pieces line text).map (Piece.shift lines) := by
  induction line, text using pieces.induct with
  | case1 line => rw [pieces, pieces, List.map_nil]
  | case2 line first rest shape length hclassify text ih =>
      rw [pieces, pieces]
      simp only [hclassify, List.map_cons]
      rw [← ih, Int.add_right_comm]
      rfl

theorem Piece.token?_shift (lines : Int) (piece : Piece) :
    (piece.shift lines).token? = piece.token?.map (Token.shift lines) := by
  cases piece with
  | mk shape text line => cases shape <;> rfl

theorem Piece.diagnostic?_shift (lines : Int) (piece : Piece) :
    (piece.shift lines).diagnostic? = piece.diagnostic?.map (Diagnostic.shift lines) := by
  cases piece with
  | mk shape text line =>
      cases shape with
      | blank => rfl
      | comment => rfl
      | token kind literal => rfl
      | fault cause =>
          have hline : (Piece.shift lines ⟨.fault cause, text, line⟩).faultLine cause =
              (⟨.fault cause, text, line⟩ : Piece).faultLine cause + lines := by
            cases cause with
            | unexpected c => rfl
            | unterminatedString => rfl
            | unterminatedComment => exact Int.add_right_comm line lines (Scan.lineCount text)
          simp only [diagnostic?, shift, Option.map_some, Diagnostic.shift] at hline ⊢
          rw [hline, Option.map_none]

/-! ## Reading -/

namespace Grammar

def Derivation.shift (lines : Int) : {phrase : Phrase} → Derivation phrase → Derivation phrase
  | _, only layer single => only layer (single.shift lines)
  | _, join layer left operator hoperator right =>
      join layer (left.shift lines) (operator.shift lines) hoperator (right.shift lines)
  | _, sign operator hoperator operand =>
      sign (operator.shift lines) hoperator (operand.shift lines)
  | _, plain primary => plain (primary.shift lines)
  | _, literal token htoken => literal (token.shift lines) htoken
  | _, reference name hname => reference (name.shift lines) hname
  | _, group opening hopening inner closing hclosing =>
      group (opening.shift lines) hopening (inner.shift lines) (closing.shift lines) hclosing

namespace Derivation

variable {phrase : Phrase} (lines : Int)

/-- The tokens of a derivation move with it. -/
theorem yield_shift (derivation : Derivation phrase) :
    (derivation.shift lines).yield = derivation.yield.map (Token.shift lines) := by
  induction derivation with
  | only _ single ih => exact ih
  | join _ left operator _ right ihLeft ihRight => simp [shift, yield, ihLeft, ihRight]
  | sign operator _ operand ih => simp [shift, yield, ih]
  | plain primary ih => exact ih
  | literal => rfl
  | reference => rfl
  | group opening _ inner closing _ ih => simp [shift, yield, ih]

/-- The tree of a derivation moves with it. -/
theorem tree_shift (derivation : Derivation phrase) :
    (derivation.shift lines).tree = derivation.tree.shift lines := by
  induction derivation with
  | only _ single ih => exact ih
  | join _ left operator _ right ihLeft ihRight =>
      simp [shift, tree, Expr.shift, ihLeft, ihRight]
  | sign operator _ operand ih => simp [shift, tree, Expr.shift, ih]
  | plain primary ih => exact ih
  | literal => rfl
  | reference => rfl
  | group opening _ inner closing _ ih => simp [shift, tree, Expr.shift, ih]

end Derivation

def Clause.shift (lines : Int) : Clause → Clause
  | declareNil word name semicolon hword hname hsemicolon =>
      declareNil (word.shift lines) (name.shift lines) (semicolon.shift lines) hword hname
        hsemicolon
  | declareValue word name equal value semicolon hword hname hequal hsemicolon =>
      declareValue (word.shift lines) (name.shift lines) (equal.shift lines)
        (value.shift lines) (semicolon.shift lines) hword hname hequal hsemicolon
  | print word value semicolon hword hsemicolon =>
      print (word.shift lines) (value.shift lines) (semicolon.shift lines) hword hsemicolon
  | evaluate value semicolon hsemicolon =>
      evaluate (value.shift lines) (semicolon.shift lines) hsemicolon

theorem Clause.yield_shift (lines : Int) (clause : Clause) :
    (clause.shift lines).yield = clause.yield.map (Token.shift lines) := by
  cases clause with
  | declareNil => rfl
  | declareValue => simp [shift, yield, Derivation.yield_shift]
  | print => simp [shift, yield, Derivation.yield_shift]
  | evaluate => simp [shift, yield, Derivation.yield_shift]

theorem Clause.tree_shift (lines : Int) (clause : Clause) :
    (clause.shift lines).tree = clause.tree.shift lines := by
  cases clause with
  | declareNil => rfl
  | declareValue => simp [shift, tree, Stmt.shift, Derivation.tree_shift]
  | print => simp [shift, tree, Stmt.shift, Derivation.tree_shift]
  | evaluate => simp [shift, tree, Stmt.shift, Derivation.tree_shift]

end Grammar

/-- The limits do not ask for lines. -/
theorem Expr.fits_shift_iff (lines : Int) {limits : Limits} (expr : Expr) (load : Load) :
    (expr.shift lines).Fits limits load ↔ expr.Fits limits load := by
  induction expr generalizing load with
  | binary left operator right ihLeft ihRight => simp [shift, Fits, ihLeft, ihRight]
  | grouping inner paren ih => simp [shift, Fits, ih]
  | literal value => rfl
  | unary operator operand ih => simp [shift, Fits, ih]
  | reference name => rfl

theorem Stmt.expr?_shift (lines : Int) (stmt : Stmt) :
    (stmt.shift lines).expr? = stmt.expr?.map (Expr.shift lines) := by
  cases stmt <;> rfl

theorem Stmt.fits_shift_iff (lines : Int) {limits : Limits} (stmt : Stmt) :
    (stmt.shift lines).Fits limits ↔ stmt.Fits limits := by
  simp only [Fits, expr?_shift]
  cases stmt.expr? with
  | none => simp
  | some expr => simp [Expr.fits_shift_iff]

/-! ## Evaluating -/

namespace Expr

theorem ownToken?_shift (lines : Int) (expr : Expr) :
    (expr.shift lines).ownToken? = expr.ownToken?.map (Token.shift lines) := by
  cases expr <;> rfl

theorem children_shift (lines : Int) (expr : Expr) :
    (expr.shift lines).children = expr.children.map (shift lines) := by
  cases expr <;> rfl

/-- The first token of a tree moves with it. -/
theorem tokenOnStack?_shift (lines : Int) (stack : List Expr) :
    tokenOnStack? (stack.map (shift lines)) =
      (tokenOnStack? stack).map (Token.shift lines) := by
  fun_induction tokenOnStack? stack with
  | case1 => rw [List.map_nil, tokenOnStack?, Option.map_none]
  | case2 expr stack token htoken =>
      rw [List.map_cons, tokenOnStack?, ownToken?_shift, htoken]
      rfl
  | case3 expr stack hnone ih =>
      rw [List.map_append, ← children_shift] at ih
      rw [List.map_cons, tokenOnStack?, ownToken?_shift, hnone]
      exact ih

theorem firstToken?_shift (lines : Int) (expr : Expr) :
    (expr.shift lines).firstToken? = expr.firstToken?.map (Token.shift lines) :=
  tokenOnStack?_shift lines [expr]

end Expr

/-- The outcome of evaluating the same some lines further down. -/
def shiftFault (lines : Int) (outcome : Except RuntimeFault Value) : Except RuntimeFault Value :=
  outcome.mapError (RuntimeFault.shift lines)

theorem shiftFault_bind (lines : Int) (outcome : Except RuntimeFault Value)
    (next : Value → Except RuntimeFault Value) :
    shiftFault lines (outcome.bind next) =
      (shiftFault lines outcome).bind fun value => shiftFault lines (next value) := by
  cases outcome <;> rfl

theorem Bindings.value_shift (lines : Int) (bindings : Bindings) (name : Token) :
    bindings.value (name.shift lines) = shiftFault lines (bindings.value name) := by
  simp only [value, Token.shift]
  cases bindings.get? name.lexeme <;> rfl

/-- An operator gives the same value, or is blamed on its new line. -/
theorem applyBinary_shift (lines : Int) (operator : Token) (left right : Value) :
    applyBinary (operator.shift lines) left right =
      shiftFault lines (applyBinary operator left right) := by
  simp only [applyBinary, Token.shift]
  cases Operator.binary operator.kind left right <;> rfl

theorem applyUnary_shift (lines : Int) (operator : Token) (operand : Value) :
    applyUnary (operator.shift lines) operand =
      shiftFault lines (applyUnary operator operand) := by
  simp only [applyUnary, Token.shift]
  cases Operator.unary? operator.kind operand <;> rfl

namespace Expr

variable {limits : Limits} {bindings : Bindings}

/-- Nesting that is too deep is blamed on the new line. -/
theorem within_shift (lines : Int) (load : Load) (expr : Expr)
    (inside : Except RuntimeFault Value) :
    within limits load (expr.shift lines) (shiftFault lines inside) =
      shiftFault lines (within limits load expr inside) := by
  simp only [within, firstToken?_shift]
  split
  · rfl
  · split <;> rfl

theorem leftFrames_shift (cost : Nat) (lines : Int) (expr : Expr) :
    (expr.shift lines).leftFrames cost = expr.leftFrames cost := by
  cases expr <;> rfl

/-- An operand has the frames that it had, and moves otherwise. -/
theorem evaluateOperand_shift {lines : Int} {operand : Expr} {load : Load}
    (hoperand : evaluateAt limits bindings load (operand.shift lines) =
      shiftFault lines (evaluateAt limits bindings load operand)) :
    evaluateOperand limits bindings load (operand.shift lines) =
      shiftFault lines (evaluateOperand limits bindings load operand) := by
  rw [evaluateOperand, evaluateOperand, hoperand]
  split <;> rfl

/-- Tokens on other lines lead to the same values, and to faults on those
lines. -/
theorem evaluateAt_shift (lines : Int) (expr : Expr) (load : Load) :
    evaluateAt limits bindings load (expr.shift lines) =
      shiftFault lines (evaluateAt limits bindings load expr) := by
  induction expr generalizing load with
  | binary left operator right ihLeft ihRight =>
      have hleft : evaluateLeft limits bindings load (left.shift lines) =
          shiftFault lines (evaluateLeft limits bindings load left) := by
        rw [evaluateLeft, leftFrames_shift]
        exact evaluateOperand_shift (ihLeft _)
      rw [shift, evaluateAt_binary, evaluateAt_binary, shiftFault_bind, hleft]
      apply congrArg
      funext value
      rw [applyRight, applyRight, evaluateOperand_shift (ihRight _), shiftFault_bind]
      apply congrArg
      funext result
      exact applyBinary_shift lines operator value result
  | grouping inner paren ih =>
      rw [evaluateAt_grouping, ← within_shift, ← ih, shift, evaluateAt_grouping]
  | literal value =>
      rw [shift, evaluateAt]
      rfl
  | unary operator operand ih =>
      have happly : applyUnary (operator.shift lines) = fun value =>
          shiftFault lines (applyUnary operator value) :=
        funext (applyUnary_shift lines operator)
      rw [evaluateAt_unary, ← within_shift, shiftFault_bind, ← ih, shift, evaluateAt_unary,
        happly]
  | reference name =>
      rw [shift, evaluateAt, evaluateAt]
      exact bindings.value_shift lines name

end Expr

/-! ## Running -/

theorem Stmt.effectOf_shift (lines : Int) (stmt : Stmt) :
    (stmt.shift lines).effectOf = stmt.effectOf := by
  cases stmt <;> rfl

/-- A statement does the same, or fails with the fault on its new line. -/
theorem Stmt.effect_shift (lines : Int) {limits : Limits} {bindings : Bindings} (stmt : Stmt) :
    (stmt.shift lines).effect limits bindings =
      (stmt.effect limits bindings).mapError (RuntimeFault.shift lines) := by
  rw [effect_eq, effect_eq, expr?_shift, effectOf_shift]
  cases stmt.expr? with
  | none => rfl
  | some expr =>
      simp only [Option.map_some, Expr.evaluate, Expr.evaluateAt_shift]
      cases Expr.evaluateAt limits bindings .empty expr <;> rfl

theorem Stmt.firstToken?_shift (lines : Int) (stmt : Stmt) :
    (stmt.shift lines).firstToken? = stmt.firstToken?.map (Token.shift lines) := by
  cases stmt with
  | print value => exact value.firstToken?_shift lines
  | expression value => exact value.firstToken?_shift lines
  | declare name initializer => rfl

theorem tooDeepDiagnostic_shift (lines : Int) {token : Option Token}
    (htoken : token.isSome = true) :
    RuntimeFault.tooDeepDiagnostic (token.map (Token.shift lines)) =
      (RuntimeFault.tooDeepDiagnostic token).shift lines := by
  cases token with
  | none => cases htoken
  | some found => rfl

/-- A report without a token names line zero and would not move, but a program
that comes from a source has none. -/
theorem Stmt.failure_shift (lines : Int) {limits : Limits} {bindings : Bindings} {stmt : Stmt}
    {fault : RuntimeFault} (hwritten : stmt.Written)
    (herror : stmt.effect limits bindings = .error fault) :
    (stmt.shift lines).failure (fault.shift lines) =
      (stmt.failure fault).map (Diagnostic.shift lines) := by
  obtain ⟨expr, hexpr, hvalue⟩ := exists_expr_of_effect herror
  -- Nesting and an exhausted stack are the two faults that may lack a token.
  cases fault with
  | illegal operator => rfl
  | undefined name => rfl
  | tooDeep token =>
      have hplaced := Expr.placedFault_evaluateAt (hwritten expr hexpr) .empty _ hvalue
      exact congrArg Except.ok (tooDeepDiagnostic_shift lines hplaced)
  | overflow =>
      have htoken := isSome_firstToken? hwritten herror
      rw [RuntimeFault.shift, failure, failure, firstToken?_shift,
        tooDeepDiagnostic_shift lines htoken]
      rfl
  | unknownOperator kind => rfl

theorem Effect.events_shift (lines : Int) (effect : Effect) :
    effect.events.map (Event.shift lines) = effect.events := by
  cases effect <;> rfl

theorem Execution.andThen_shift (lines : Int) (execution : Execution)
    (next : Machine → Execution) :
    (execution.andThen next).shift lines =
      (execution.shift lines).andThen fun machine => (next machine).shift lines := by
  cases haborted : execution.aborted with
  | none => simp [andThen, shift, haborted]
  | some kind => simp [andThen, shift, haborted]

/-- A statement runs as before, but for the lines of its diagnostics. -/
theorem Machine.run_singleton_shift (lines : Int) {limits : Limits} {stmt : Stmt}
    (hwritten : stmt.Written) (machine : Machine) :
    machine.run limits [stmt.shift lines] = (machine.run limits [stmt]).shift lines := by
  rw [run, run, execute, execute, Stmt.effect_shift]
  cases heffect : stmt.effect limits machine.bindings with
  | ok effect => simp [Except.mapError, run, Execution.shift, Effect.events_shift]
  | error fault =>
      obtain ⟨token, message, hfailure⟩ := Stmt.exists_failure hwritten heffect
      have hshifted := Stmt.failure_shift lines hwritten heffect
      rw [hfailure] at hshifted
      simp only [Except.mapError, hshifted, hfailure]
      rfl

/-- Statements some lines further down run as before, but for the lines of their
diagnostics. -/
theorem Machine.run_shift (lines : Int) {limits : Limits} {stmts : List Stmt}
    (hwritten : ∀ stmt ∈ stmts, stmt.Written) (machine : Machine) :
    machine.run limits (stmts.map (Stmt.shift lines)) =
      (machine.run limits stmts).shift lines := by
  induction stmts generalizing machine with
  | nil => rfl
  | cons stmt stmts ih =>
      have hlater := ih fun other hother => hwritten other (List.mem_cons_of_mem _ hother)
      rw [List.map_cons, run_cons, run_cons machine stmt stmts, Execution.andThen_shift,
        run_singleton_shift lines (hwritten stmt List.mem_cons_self)]
      simp only [hlater]

/-- The output does not show lines. -/
theorem Transcript.output_shift (lines : Int) (transcript : Transcript) :
    Transcript.output (transcript.map (Event.shift lines)) = transcript.output := by
  have hevent : Event.output ∘ Event.shift lines = Event.output := by
    funext event
    cases event <;> rfl
  rw [output, output, List.map_map, hevent]

theorem Transcript.diagnostics_shift (lines : Int) (transcript : Transcript) :
    Transcript.diagnostics (transcript.map (Event.shift lines)) =
      transcript.diagnostics.map (Diagnostic.shift lines) := by
  rw [diagnostics, diagnostics, List.filterMap_map, List.map_filterMap]
  congr 1
  funext event
  cases event <;> rfl

end Lumen
