import Lumen.Command.Script
import Lumen.Proofs.Rendering
import Lumen.Proofs.Spelling

/-!
# The stack behind the depth limit

Reading, evaluating and rendering use the stack at different rates.  Reading
pays for brackets and hardly for prefix operators, and it does not pay for the
operands of a chain at all; evaluating and rendering pay for all of them.  Four
chains can stand around one another without a bracket, one of each layer, so
the frames of what was read grow by four operands and a bracket with each level
of nesting.

A depth limit therefore keeps evaluation off the end of the stack exactly up to
66, and rendering exactly up to 83.
-/

namespace Lumen

open Grammar

/-! ## What reading admits -/

def Grammar.readingCosts : FrameCosts := ⟨groupFrames, unaryFrames, 0⟩

theorem Limits.admits_iff (limits : Limits) (load : Load) :
    limits.admits load = true ↔
      (load.depth : Int) ≤ limits.depth ∧ stackHolds limits.stack load.frames = true := by
  rw [Limits.admits, Bool.and_eq_true, Limits.holdsDepth, decide_eq_true_iff]
  rfl

/-- A part that is within the limits under one more level of nesting. -/
theorem Expr.fits_deeper_iff {limits : Limits} {load : Load} {inner : Expr} (cost : Nat)
    (hinner : limits.admits (load.deeper cost) = true ∧ inner.Fits limits (load.deeper cost) ↔
      ((load.deeper cost).depth : Int) + inner.nesting ≤ limits.depth ∧
        stackHolds limits.stack
          ((load.deeper cost).frames + inner.stackUse readingCosts) = true) :
    limits.admits load = true ∧
        limits.admits (load.deeper cost) = true ∧ inner.Fits limits (load.deeper cost) ↔
      (load.depth : Int) + (inner.nesting + 1 : Nat) ≤ limits.depth ∧
        stackHolds limits.stack (load.frames + (cost + inner.stackUse readingCosts)) = true := by
  rw [hinner, Limits.admits_iff, ← Nat.add_assoc]
  simp only [Load.deeper]
  constructor
  · rintro ⟨-, hdepth, hframes⟩
    exact ⟨by omega, hframes⟩
  · rintro ⟨hdepth, hframes⟩
    have hroom : stackHolds limits.stack load.frames = true := stackHolds_mono (by omega) hframes
    exact ⟨⟨by omega, hroom⟩, by omega, hframes⟩

theorem Expr.leftFrames_zero (expr : Expr) : expr.leftFrames 0 = 0 := by
  cases expr <;> rfl

/-- An expression is within the limits if and only if its deepest point is. -/
theorem Expr.fits_iff (limits : Limits) (expr : Expr) (load : Load) :
    limits.admits load = true ∧ expr.Fits limits load ↔
      (load.depth : Int) + expr.nesting ≤ limits.depth ∧
        stackHolds limits.stack (load.frames + expr.stackUse readingCosts) = true := by
  induction expr generalizing load with
  | binary left operator right ihLeft ihRight =>
      have hfree : readingCosts.operand = 0 := rfl
      rw [Expr.Fits, nesting, stackUse, hfree, leftFrames_zero, Nat.zero_add, Nat.zero_add,
        stackHolds_max, Bool.and_eq_true]
      constructor
      · rintro ⟨hadmits, hleft, hright⟩
        obtain ⟨hleftDepth, hleftFrames⟩ := (ihLeft load).mp ⟨hadmits, hleft⟩
        obtain ⟨hrightDepth, hrightFrames⟩ := (ihRight load).mp ⟨hadmits, hright⟩
        exact ⟨by omega, hleftFrames, hrightFrames⟩
      · rintro ⟨hdepth, hleftFrames, hrightFrames⟩
        obtain ⟨hadmits, hleft⟩ := (ihLeft load).mpr ⟨by omega, hleftFrames⟩
        obtain ⟨-, hright⟩ := (ihRight load).mpr ⟨by omega, hrightFrames⟩
        exact ⟨hadmits, hleft, hright⟩
  | grouping inner paren ih => exact fits_deeper_iff groupFrames (ih (load.deeper groupFrames))
  | literal value => simp [Expr.Fits, nesting, stackUse, Limits.admits_iff]
  | unary operator operand ih => exact fits_deeper_iff unaryFrames (ih (load.deeper unaryFrames))
  | reference name => simp [Expr.Fits, nesting, stackUse, Limits.admits_iff]

/-- A statement is within the limits if and only if the deepest point of its
expression is. -/
theorem Stmt.fits_iff (limits : Limits) (stmt : Stmt) :
    stmt.Fits limits ↔ ∀ expr ∈ stmt.expr?, (expr.nesting : Int) + 1 ≤ limits.depth ∧
      stackHolds limits.stack (expr.stackUse readingCosts) = true := by
  have houter : ∀ expr : Expr,
      limits.admits outermost = true ∧ expr.Fits limits outermost ↔
        (expr.nesting : Int) + 1 ≤ limits.depth ∧
          stackHolds limits.stack (expr.stackUse readingCosts) = true := by
    intro expr
    rw [Expr.fits_iff]
    simp only [outermost, Nat.zero_add, Int.add_comm]
    rfl
  simp only [Stmt.Fits, houter]

/-! ## What nesting costs at most -/

theorem Expr.leftFrames_le (cost : Nat) (expr : Expr) : expr.leftFrames cost ≤ cost := by
  cases expr with
  | binary left operator right => exact Nat.zero_le cost
  | grouping inner paren => exact Nat.le_refl cost
  | literal value => exact Nat.le_refl cost
  | unary operator operand => exact Nat.le_refl cost
  | reference name => exact Nat.le_refl cost

/-- One level of nesting costs at most a bracket with an operand of every layer
around it.  That pays for the phrase as a left operand as well, if there is a
layer around it. -/
theorem Grammar.Derivation.stackUse_tree_le {costs : FrameCosts} {level : Nat}
    (hgrouping : costs.grouping + 4 * costs.operand ≤ level) (hunary : costs.unary ≤ level)
    {phrase : Phrase} (derivation : Derivation phrase) :
    derivation.tree.stackUse costs ≤
        level * derivation.tree.nesting + costs.operand * phrase.height ∧
      derivation.tree.leftFrames costs.operand + derivation.tree.stackUse costs ≤
        level * derivation.tree.nesting + costs.operand * max phrase.height 1 := by
  -- A chain is free as a left operand; anything else needs one operand of the layer around it.
  have hflat : ∀ {tree : Expr}, tree.stackUse costs ≤ level * tree.nesting + costs.operand * 0 →
      tree.leftFrames costs.operand + tree.stackUse costs ≤
        level * tree.nesting + costs.operand * 1 := by
    intro tree huse
    have hleft := tree.leftFrames_le costs.operand
    omega
  induction derivation with
  | @only phrase below operators layer single ih =>
      have hheight : phrase.height = below.height + 1 := layer.height_eq
      have hown : costs.operand * below.height ≤ costs.operand * phrase.height :=
        Nat.mul_le_mul_left _ (by omega)
      have hleft : costs.operand * max below.height 1 ≤ costs.operand * max phrase.height 1 :=
        Nat.mul_le_mul_left _ (by omega)
      simp only [tree]
      omega
  | @join phrase below operators layer left operator hoperator right ihLeft ihRight =>
      have hheight : costs.operand * phrase.height =
          costs.operand * below.height + costs.operand := by
        rw [layer.height_eq, Nat.mul_succ]
      have hmax : max phrase.height 1 = phrase.height := by
        rw [layer.height_eq]
        omega
      have hleft := Nat.mul_le_mul_left level
        (Nat.le_max_left left.tree.nesting right.tree.nesting)
      have hright := Nat.mul_le_mul_left level
        (Nat.le_max_right left.tree.nesting right.tree.nesting)
      rw [hmax] at ihLeft ⊢
      have huse : (join layer left operator hoperator right).tree.stackUse costs ≤
          level * max left.tree.nesting right.tree.nesting + costs.operand * phrase.height := by
        simp only [tree, Expr.stackUse]
        omega
      exact ⟨huse, Nat.le_trans (Nat.le_of_eq (Nat.zero_add _)) huse⟩
  | sign operator _ operand ih =>
      have huse : costs.unary + operand.tree.stackUse costs ≤
          level * (operand.tree.nesting + 1) + costs.operand * 0 := by
        have hoperand := ih.1
        simp only [Phrase.height] at hoperand
        rw [Nat.mul_succ]
        omega
      exact ⟨huse, hflat huse⟩
  | plain primary ih => exact ih
  | literal => exact ⟨Nat.zero_le _, hflat (Nat.zero_le _)⟩
  | reference => exact ⟨Nat.zero_le _, hflat (Nat.zero_le _)⟩
  | group opening _ inner closing _ ih =>
      have huse : costs.grouping + inner.tree.stackUse costs ≤
          level * (inner.tree.nesting + 1) + costs.operand * 0 := by
        have hinner := ih.1
        simp only [Phrase.height] at hinner
        rw [Nat.mul_succ]
        omega
      exact ⟨huse, hflat huse⟩

theorem Grammar.Clause.exists_derivation {clause : Clause} {expr : Expr}
    (hexpr : expr ∈ clause.tree.expr?) :
    ∃ derivation : Derivation .equality, derivation.tree = expr := by
  cases clause with
  | declareNil => cases hexpr
  | declareValue _ _ _ value => exact ⟨value, Option.some.inj hexpr⟩
  | print _ value => exact ⟨value, Option.some.inj hexpr⟩
  | evaluate value => exact ⟨value, Option.some.inj hexpr⟩

variable {limits : Limits}

/-- The nesting of what was read is below the depth limit, and bounds the frames
that any activity needs. -/
theorem Analysis.bounds_of_errors {source : String}
    (hnone : (Analysis.ofSource limits source).errors = [])
    {stmt : Stmt} (hstmt : stmt ∈ (Analysis.ofSource limits source).program.statements)
    {expr : Expr} (hexpr : expr ∈ stmt.expr?) :
    (expr.nesting : Int) + 1 ≤ limits.depth ∧
      ∀ (costs : FrameCosts) (level : Nat), costs.grouping + 4 * costs.operand ≤ level →
        costs.unary ≤ level →
        expr.stackUse costs ≤ level * expr.nesting + costs.operand * 4 := by
  obtain ⟨clauses, -, htrees, hfits⟩ := Program.strict_eq_ok_iff.mp (strict_of_errors hnone)
  refine ⟨((Stmt.fits_iff limits stmt).mp (hfits stmt hstmt) expr hexpr).1, ?_⟩
  intro costs level hgrouping hunary
  rw [← htrees] at hstmt
  obtain ⟨clause, -, rfl⟩ := List.mem_map.mp hstmt
  obtain ⟨derivation, rfl⟩ := Clause.exists_derivation hexpr
  exact (derivation.stackUse_tree_le hgrouping hunary).1

/-! ## Expressions that use up the stack -/

/-- Every left operand is a literal, so evaluation goes straight down to the
deepest point. -/
def Expr.LiteralLefts : Expr → Prop
  | binary left _ right => (∃ value, left = .literal value) ∧ right.LiteralLefts
  | grouping inner _ => inner.LiteralLefts
  | literal _ => True
  | unary _ operand => operand.LiteralLefts
  | reference _ => True

/-- Where the depth limit has room, the stack decides. -/
theorem Expr.within_overflow {load : Load} {expr : Expr}
    {inside : Except RuntimeFault Value} (hdepth : (load.depth + 1 : Int) ≤ limits.depth)
    (hinside : stackHolds limits.stack (load.frames + evaluateFrames) = true →
      inside = .error .overflow) :
    within limits load expr inside = .error .overflow := by
  have hdepth' : limits.holdsDepth (load.deeper evaluateFrames) = true := decide_eq_true hdepth
  by_cases hframes : stackHolds limits.stack (load.frames + evaluateFrames) = true
  · rw [within_eq hdepth hframes, hinside hframes]
  · have hframes' : limits.holdsFrames (load.deeper evaluateFrames) = false :=
      Bool.eq_false_iff.mpr hframes
    simp only [within, hdepth', hframes', Bool.not_true, Bool.not_false, Bool.false_eq_true,
      if_false, if_true]

/-- Evaluation that goes straight down to a point for which the stack has no
room ends there. -/
theorem Expr.evaluateAt_overflow {bindings : Bindings} (expr : Expr) (load : Load)
    (hlefts : expr.LiteralLefts) (hdepth : (load.depth + expr.nesting : Int) ≤ limits.depth)
    (hroom : stackHolds limits.stack load.frames = true)
    (hover :
      ¬ stackHolds limits.stack (load.frames + expr.stackUse evaluationCosts) = true) :
    evaluateAt limits bindings load expr = .error .overflow := by
  induction expr generalizing load with
  | binary left operator right ihLeft ihRight =>
      obtain ⟨⟨value, rfl⟩, hright⟩ := hlefts
      have huse : (binary (.literal value) operator right).stackUse evaluationCosts =
          evaluateFrames + right.stackUse evaluationCosts :=
        Nat.max_eq_right (Nat.le_add_right _ _)
      rw [huse, ← Nat.add_assoc] at hover
      simp only [nesting, Nat.zero_max] at hdepth
      rw [evaluateAt_binary]
      -- The literal costs what the right operand does, and needs no more than that.
      change (evaluateOperand limits bindings (load.sideways evaluateFrames) (.literal value)).bind
        (applyRight limits bindings load operator right) = .error .overflow
      cases hframes : limits.holdsFrames (load.sideways evaluateFrames) with
      | false =>
          rw [evaluateOperand_overflow hframes]
          rfl
      | true =>
          have hdeep := ihRight (load.sideways evaluateFrames) hright hdepth hframes hover
          rw [evaluateOperand_of_holds hframes, evaluateAt]
          change applyRight limits bindings load operator right (value.getD .nil) =
            .error .overflow
          rw [applyRight, evaluateOperand_of_holds hframes, hdeep]
          rfl
  | grouping inner paren ih =>
      simp only [nesting, stackUse, ← Nat.add_assoc] at hdepth hover
      rw [evaluateAt_grouping]
      apply within_overflow (by omega)
      intro hframes
      exact ih (load.deeper evaluateFrames) hlefts (by simp only [Load.deeper]; omega) hframes hover
  | literal value => exact absurd hroom hover
  | unary operator operand ih =>
      simp only [nesting, stackUse, ← Nat.add_assoc] at hdepth hover
      rw [evaluateAt_unary]
      apply within_overflow (by omega)
      intro hframes
      have hdeep := ih (load.deeper evaluateFrames) hlefts (by simp only [Load.deeper]; omega)
        hframes hover
      rw [hdeep]
      rfl
  | reference name => exact absurd hroom hover

namespace Grammar

theorem nilWord_isLiteral : (Token.ofKind .nilWord).kind ∈
    [Kind.number, Kind.string, Kind.trueWord, Kind.falseWord, Kind.nilWord] := by
  decide

theorem bang_isSign : (Token.ofKind .bang).kind ∈ [Kind.bang, Kind.minus] := by
  decide

theorem equalEqual_joins : (Token.ofKind .equalEqual).kind ∈
    [Kind.bangEqual, Kind.equalEqual] := by
  decide

theorem less_joins : (Token.ofKind .less).kind ∈
    [Kind.greater, Kind.greaterEqual, Kind.less, Kind.lessEqual] := by
  decide

theorem plus_joins : (Token.ofKind .plus).kind ∈ [Kind.minus, Kind.plus] := by
  decide

theorem star_joins : (Token.ofKind .star).kind ∈ [Kind.slash, Kind.star] := by
  decide

namespace Derivation

/-- `nil` -/
def nothing : Derivation .unary :=
  .plain (.literal (.ofKind .nilWord) nilWord_isLiteral)

/-- `nil == nil < nil + nil * last` -/
def staircase (last : Derivation .unary) : Derivation .equality :=
  .join .equality
    (.only .equality (.only .comparison (.only .term (.only .factor nothing))))
    (.ofKind .equalEqual) equalEqual_joins
    (.join .comparison (.only .comparison (.only .term (.only .factor nothing)))
      (.ofKind .less) less_joins
      (.join .term (.only .term (.only .factor nothing)) (.ofKind .plus) plus_joins
        (.join .factor (.only .factor nothing) (.ofKind .star) star_joins last)))

def bracket (inner : Derivation .equality) : Derivation .unary :=
  .plain (.group (.ofKind .leftParen) rfl inner (.ofKind .rightParen) rfl)

/-- A staircase whose last operand is another one in brackets, as often as the
number says. -/
def tower : Nat → Derivation .equality
  | 0 => staircase nothing
  | levels + 1 => staircase (bracket (tower levels))

/-- As many prefix operators in front of `nil` as the number says. -/
def signs : Nat → Derivation .unary
  | 0 => nothing
  | levels + 1 => .sign (.ofKind .bang) bang_isSign (signs levels)

def loosen (operand : Derivation .unary) : Derivation .equality :=
  .only .equality (.only .comparison (.only .term (.only .factor operand)))

theorem tree_loosen (operand : Derivation .unary) : (loosen operand).tree = operand.tree :=
  rfl

/-- All tokens have fixed spellings, and evaluation goes straight down to the
deepest point. -/
structure Plain {phrase : Phrase} (derivation : Derivation phrase) : Prop where
  fixed : ∀ token ∈ derivation.yield, token.Fixed
  lefts : derivation.tree.LiteralLefts

theorem plain_nothing : nothing.Plain where
  fixed := by
    intro token hmem
    obtain rfl := List.mem_singleton.mp hmem
    exact Token.fixed_ofKind rfl
  lefts := trivial

theorem yield_staircase (last : Derivation .unary) :
    (staircase last).yield =
      [Kind.nilWord, .equalEqual, .nilWord, .less, .nilWord, .plus, .nilWord, .star].map
        Token.ofKind ++ last.yield :=
  rfl

theorem plain_staircase {last : Derivation .unary} (hplain : last.Plain) :
    (staircase last).Plain where
  fixed := by
    intro token hmem
    rw [yield_staircase] at hmem
    rcases List.mem_append.mp hmem with hstep | hlast
    · exact Token.fixed_of_mem_map (by decide) hstep
    · exact hplain.fixed token hlast
  lefts := ⟨⟨_, rfl⟩, ⟨_, rfl⟩, ⟨_, rfl⟩, ⟨_, rfl⟩, hplain.lefts⟩

/-- Each of the four operators of a staircase costs an operand. -/
theorem stackUse_staircase (costs : FrameCosts) (last : Derivation .unary) :
    (staircase last).tree.stackUse costs = 4 * costs.operand + last.tree.stackUse costs := by
  simp only [staircase, nothing, tree, Expr.stackUse, Expr.leftFrames]
  omega

theorem nesting_staircase (last : Derivation .unary) :
    (staircase last).tree.nesting = last.tree.nesting := by
  simp only [staircase, nothing, tree, Expr.nesting]
  omega

theorem plain_bracket {inner : Derivation .equality} (hplain : inner.Plain) :
    (bracket inner).Plain where
  fixed := by
    intro token hmem
    simp only [bracket, yield, List.mem_cons, List.mem_append, List.not_mem_nil, or_false] at hmem
    rcases hmem with rfl | hinner | rfl
    · exact Token.fixed_ofKind rfl
    · exact hplain.fixed token hinner
    · exact Token.fixed_ofKind rfl
  lefts := hplain.lefts

theorem plain_tower (levels : Nat) : (tower levels).Plain := by
  induction levels with
  | zero => exact plain_staircase plain_nothing
  | succ levels ih => exact plain_staircase (plain_bracket ih)

theorem nesting_tower (levels : Nat) : (tower levels).tree.nesting = levels := by
  induction levels with
  | zero => rfl
  | succ levels ih =>
      rw [tower, nesting_staircase, bracket]
      simp only [tree, Expr.nesting, ih]

/-- Every level of a tower costs as much as a level of nesting can. -/
theorem stackUse_tower (costs : FrameCosts) (levels : Nat) :
    (tower levels).tree.stackUse costs =
      (costs.grouping + 4 * costs.operand) * levels + 4 * costs.operand := by
  induction levels with
  | zero =>
      rw [tower, stackUse_staircase, Nat.mul_zero, Nat.zero_add]
      rfl
  | succ levels ih =>
      rw [tower, stackUse_staircase, bracket]
      simp only [tree, Expr.stackUse, ih, Nat.mul_succ]
      omega

theorem plain_signs (levels : Nat) : (signs levels).Plain := by
  induction levels with
  | zero => exact plain_nothing
  | succ levels ih =>
      refine ⟨?_, ih.lefts⟩
      intro token hmem
      rcases List.mem_cons.mp hmem with rfl | hoperand
      · exact Token.fixed_ofKind rfl
      · exact ih.fixed token hoperand

theorem nesting_signs (levels : Nat) : (signs levels).tree.nesting = levels := by
  induction levels with
  | zero => rfl
  | succ levels ih => rw [signs, tree, Expr.nesting, ih]

/-- The frames of prefix operators in a row add up. -/
theorem stackUse_signs (costs : FrameCosts) (levels : Nat) :
    (signs levels).tree.stackUse costs = costs.unary * levels := by
  induction levels with
  | zero => rfl
  | succ levels ih =>
      rw [signs, tree, Expr.stackUse, ih, Nat.mul_succ, Nat.add_comm]

theorem plain_loosen {operand : Derivation .unary} (hplain : operand.Plain) :
    (loosen operand).Plain :=
  ⟨hplain.fixed, hplain.lefts⟩

def source (derivation : Derivation .equality) : String :=
  String.ofList (Scan.spell (derivation.yield ++ [Token.ofKind .semicolon]))

/-- A plain derivation that is within the limits of reading. -/
structure Readable (settings : Settings) (derivation : Derivation .equality) : Prop where
  plain : derivation.Plain
  depth : derivation.tree.nesting < settings.maxDepth
  frames : derivation.tree.stackUse readingCosts ≤ Limits.stackFrames

variable {settings : Settings} {derivation : Derivation .equality}

/-- Reading has room for towers of up to 142 levels. -/
theorem readable_tower {levels : Nat} (hdepth : levels < settings.maxDepth)
    (hframes : levels ≤ 142) : (tower levels).Readable settings where
  plain := plain_tower levels
  depth := by rwa [nesting_tower]
  frames := by
    rw [stackUse_tower]
    simp only [readingCosts, groupFrames, Limits.stackFrames]
    omega

/-- Reading has room for as many prefix operators as there are frames. -/
theorem readable_signs {levels : Nat} (hdepth : levels < settings.maxDepth)
    (hframes : levels ≤ 1000) : (loosen (signs levels)).Readable settings where
  plain := plain_loosen (plain_signs levels)
  depth := by
    rw [tree_loosen, nesting_signs]
    exact hdepth
  frames := by
    rw [tree_loosen, stackUse_signs]
    simp only [readingCosts, unaryFrames, Limits.stackFrames]
    omega

/-- What is readable is read from its source. -/
theorem Readable.analysis (hreadable : derivation.Readable settings) :
    (Analysis.ofSource (.standard settings.maxDepth) derivation.source).errors = [] ∧
      (Analysis.ofSource (.standard settings.maxDepth) derivation.source).program.statements =
        [.expression derivation.tree] := by
  let clause : Clause := .evaluate derivation (.ofKind .semicolon) rfl
  have hyield : [clause].flatMap Clause.yield = derivation.yield ++ [Token.ofKind .semicolon] :=
    List.append_nil _
  have hfixed : ∀ token ∈ [clause].flatMap Clause.yield, token.Fixed := by
    intro token hmem
    rw [hyield, List.mem_append, List.mem_singleton] at hmem
    rcases hmem with hinner | rfl
    · exact hreadable.plain.fixed token hinner
    · exact Token.fixed_ofKind rfl
  have hfits : ∀ other ∈ [clause], other.tree.Fits (.standard settings.maxDepth) := by
    intro other hmem
    obtain rfl := List.mem_singleton.mp hmem
    apply (Stmt.fits_iff _ clause.tree).mpr
    intro expr hexpr
    obtain rfl := Option.some.inj hexpr
    exact ⟨Int.ofNat_le.mpr hreadable.depth, decide_eq_true hreadable.frames⟩
  have hanalysis := Analysis.ofSource_spell hfixed hfits
  rw [hyield] at hanalysis
  exact hanalysis

end Derivation

end Grammar

/-! ## Sessions and commands -/

theorem RuntimeFault.message_tooDeepDiagnostic (token : Option Token) :
    (tooDeepDiagnostic token).message = tooDeepMessage := by
  cases token <;> rfl

/-- A session has statements for a source exactly where there is no mistake. -/
theorem Session.isSome_statements_iff (session : Session) (source : String) :
    (session.statements source).1.isSome = true ↔
      (Analysis.ofSource session.limits source).errors = [] := by
  rw [Session.statements]
  cases (Analysis.ofSource session.limits source).errors with
  | nil => simp
  | cons error errors => simp

theorem Session.isSome_statements (session : Session) {derivation : Derivation .equality}
    (hreadable : derivation.Readable session.settings) :
    (session.statements derivation.source).1.isSome = true :=
  (session.isSome_statements_iff _).mpr hreadable.analysis.1

/-- Running what needs more frames than there are is reported. -/
theorem Session.run_overflow (session : Session) {derivation : Derivation .equality}
    (hreadable : derivation.Readable session.settings)
    (hover : Limits.stackFrames < derivation.tree.stackUse Expr.evaluationCosts) :
    (session.run derivation.source).2.2.reporter.diagnostics.map Diagnostic.message =
      [tooDeepMessage] := by
  obtain ⟨hnone, hstatements⟩ := hreadable.analysis
  have hvalue : ∀ bindings, derivation.tree.evaluate session.limits bindings =
      .error .overflow := by
    intro bindings
    have hdepth := hreadable.depth
    apply Expr.evaluateAt_overflow derivation.tree .empty hreadable.plain.lefts
    · simp only [Load.empty, limits, Limits.standard]
      omega
    · rfl
    · simpa [Load.empty, limits, Limits.standard, stackHolds] using hover
  have hrun : session.execution derivation.source =
      ⟨⟨session.machine.bindings, none⟩,
        [.reported (RuntimeFault.tooDeepDiagnostic derivation.tree.firstToken?)], none⟩ := by
    rw [execution, limits, hstatements, Machine.run, Machine.execute, Stmt.effect, ← limits, hvalue]
    rfl
  rw [(diagnostics_run hnone).2, hrun]
  exact congrArg (fun message => [message]) (RuntimeFault.message_tooDeepDiagnostic _)

namespace Command

theorem ending_showStatements (stack : Option Nat) (stmts : List Stmt) :
    (showStatements stack stmts).ending =
      if stmts.all fun stmt => (stmt.render stack).isSome then .exit exitOk else .overflow := by
  induction stmts with
  | nil => rfl
  | cons stmt stmts ih =>
      rw [showStatements, List.all_cons]
      cases stmt.render stack with
      | none => rfl
      | some text =>
          rw [Option.isSome_some, Bool.true_and]
          exact ih

theorem ending_tree_eq {settings : Settings} {source : String}
    (hnone : (Analysis.ofSource (.standard settings.maxDepth) source).errors = []) :
    (runSource settings .tree source).ending =
      if (Analysis.ofSource (.standard settings.maxDepth) source).program.statements.all
          fun stmt => (stmt.render (some Limits.stackFrames)).isSome
      then .exit exitOk else .overflow := by
  have hlimits : (Session.start settings).limits = .standard settings.maxDepth := rfl
  simp only [runSource, Session.statements, hlimits, hnone, List.isEmpty_nil, if_true]
  exact ending_showStatements _ _

/-- What needs more frames than there are cannot be shown. -/
theorem tree_overflow {settings : Settings} {derivation : Derivation .equality}
    (hreadable : derivation.Readable settings)
    (hover : Limits.stackFrames < derivation.tree.stackUse Expr.renderingCosts) :
    (runSource settings .tree derivation.source).ending = .overflow := by
  obtain ⟨hnone, hstatements⟩ := hreadable.analysis
  rw [ending_tree_eq hnone, hstatements, if_neg]
  intro hshown
  have hsome := List.all_eq_true.mp hshown _ List.mem_cons_self
  have hholds := (Stmt.isSome_render_iff _ _).mp hsome derivation.tree rfl
  exact Nat.not_le.mpr hover (of_decide_eq_true hholds)

end Command

/-! ## The depth limits that the stack has room for -/

/-- A depth limit of at most 66 leaves evaluation enough frames. -/
theorem Session.message_run_ne {session : Session} {source : String}
    (hdepth : session.settings.maxDepth ≤ 66)
    (hnone : (Analysis.ofSource session.limits source).errors = []) :
    ∀ diagnostic ∈ (session.run source).2.2.reporter.diagnostics,
      diagnostic.message ≠ tooDeepMessage := by
  have hbounds : ∀ stmt ∈ (Analysis.ofSource session.limits source).program.statements,
      ∀ expr ∈ stmt.expr?, (expr.nesting : Int) + 1 ≤ session.limits.depth ∧
        expr.stackUse Expr.evaluationCosts ≤ 15 * expr.nesting + 12 := by
    intro stmt hstmt expr hexpr
    obtain ⟨hnesting, huse⟩ := Analysis.bounds_of_errors hnone hstmt hexpr
    exact ⟨hnesting, huse Expr.evaluationCosts 15 (by decide) (by decide)⟩
  rw [(diagnostics_run hnone).2, execution, Machine.run_eq_runBy_meaning]
  · exact Machine.message_runBy_meaning_ne _ _
  · intro stmt hstmt expr hexpr
    have hnesting := (hbounds stmt hstmt expr hexpr).1
    omega
  · intro stmt hstmt expr hexpr
    obtain ⟨hnesting, huse⟩ := hbounds stmt hstmt expr hexpr
    simp only [limits, Limits.standard] at hnesting
    apply decide_eq_true
    simp only [Limits.stackFrames]
    omega

/-- A depth limit of at most 83 leaves rendering enough frames. -/
theorem Command.ending_tree {settings : Settings} {source : String}
    (hdepth : settings.maxDepth ≤ 83)
    (hnone : (Analysis.ofSource (.standard settings.maxDepth) source).errors = []) :
    (runSource settings .tree source).ending = .exit exitOk := by
  rw [ending_tree_eq hnone, if_pos]
  apply List.all_eq_true.mpr
  intro stmt hstmt
  apply (Stmt.isSome_render_iff _ stmt).mpr
  intro expr hexpr
  obtain ⟨hnesting, huse⟩ := Analysis.bounds_of_errors hnone hstmt hexpr
  have hframes : expr.stackUse Expr.renderingCosts ≤ 12 * expr.nesting + 8 :=
    huse Expr.renderingCosts 12 (by decide) (by decide)
  simp only [Limits.standard] at hnesting
  apply decide_eq_true
  simp only [Limits.stackFrames]
  omega

/-- A tower of 66 levels is read under any larger depth limit, and its
evaluation is two frames short. -/
theorem Session.run_tower (session : Session) (hdepth : 66 < session.settings.maxDepth) :
    (session.statements (Derivation.tower 66).source).1.isSome = true ∧
      (session.run (Derivation.tower 66).source).2.2.reporter.diagnostics.map
        Diagnostic.message = [tooDeepMessage] := by
  have hreadable := Derivation.readable_tower hdepth (by decide)
  have hover : Limits.stackFrames < (Derivation.tower 66).tree.stackUse Expr.evaluationCosts := by
    rw [Derivation.stackUse_tower]
    decide
  exact ⟨session.isSome_statements hreadable, session.run_overflow hreadable hover⟩

/-- A tower of 83 levels is read under any larger depth limit, and its dump is
four frames short. -/
theorem Command.tree_tower {settings : Settings} (hdepth : 83 < settings.maxDepth) :
    ((Session.start settings).statements (Derivation.tower 83).source).1.isSome = true ∧
      (runSource settings .tree (Derivation.tower 83).source).ending = .overflow := by
  have hreadable := Derivation.readable_tower hdepth (by decide)
  have hover : Limits.stackFrames < (Derivation.tower 83).tree.stackUse Expr.renderingCosts := by
    rw [Derivation.stackUse_tower]
    decide
  exact ⟨(Session.start settings).isSome_statements hreadable, tree_overflow hreadable hover⟩

/-- A depth limit keeps the evaluation of what was read off the end of the
stack, in every session, if and only if it is at most 66, and the dump of what
was read if and only if it is at most 83. -/
theorem depth_limit_protects_stack (settings : Settings) :
    ((∀ (session : Session) (source : String), session.settings = settings →
        (session.statements source).1.isSome = true →
        ∀ diagnostic ∈ (session.run source).2.2.reporter.diagnostics,
          diagnostic.message ≠ tooDeepMessage) ↔
      settings.maxDepth ≤ 66) ∧
    ((∀ source : String, ((Session.start settings).statements source).1.isSome = true →
        (Command.runSource settings .tree source).ending = .exit Command.exitOk) ↔
      settings.maxDepth ≤ 83) := by
  constructor
  · constructor
    · intro hsafe
      by_contra hdeep
      obtain ⟨hsome, hmessages⟩ := (Session.start settings).run_tower (Nat.not_le.mp hdeep)
      have hmem : tooDeepMessage ∈ [tooDeepMessage] := List.mem_cons_self
      rw [← hmessages] at hmem
      obtain ⟨diagnostic, hdiagnostic, hmessage⟩ := List.mem_map.mp hmem
      exact hsafe (Session.start settings) _ rfl hsome diagnostic hdiagnostic hmessage
    · rintro hdepth session source rfl hsome
      exact session.message_run_ne hdepth ((session.isSome_statements_iff source).mp hsome)
  · constructor
    · intro hsafe
      by_contra hdeep
      obtain ⟨hsome, hending⟩ := Command.tree_tower (Nat.not_le.mp hdeep)
      have hshown := hsafe _ hsome
      rw [hending] at hshown
      cases hshown
    · intro hdepth source hsome
      exact Command.ending_tree hdepth
        (((Session.start settings).isSome_statements_iff source).mp hsome)

/-- Brackets are not needed: 400 prefix operators are read under a depth limit
of 1000 in as many frames, but evaluating them takes three times as many and
rendering four times. -/
theorem signs_exhaust_stack :
    let settings : Settings := ⟨1000, .warning, Nat.succ_pos 999⟩
    let source := (Derivation.loosen (Derivation.signs 400)).source
    ((Session.start settings).statements source).1.isSome = true ∧
      ((Session.start settings).run source).2.2.reporter.diagnostics.map Diagnostic.message =
        [tooDeepMessage] ∧
      (Command.runSource settings .tree source).ending = .overflow := by
  intro settings source
  have hreadable : (Derivation.loosen (Derivation.signs 400)).Readable settings :=
    Derivation.readable_signs (by decide) (by decide)
  have huse : ∀ costs, (Derivation.loosen (Derivation.signs 400)).tree.stackUse costs =
      costs.unary * 400 := fun costs => Derivation.stackUse_signs costs 400
  refine ⟨Session.isSome_statements _ hreadable, Session.run_overflow _ hreadable ?_,
    Command.tree_overflow hreadable ?_⟩
  · rw [huse]
    decide
  · rw [huse]
    decide

end Lumen
