import Mathlib.Logic.ExistsUnique
import Lumen.Grammar.Program
import Lumen.Proofs.ExpressionReading

/-!
# What the reader accepts

A sequence of tokens is accepted as an expression, or as a program, if and only
if the grammar derives it within the limits.  The tree that reading returns is
that of the derivation, and there is only one.  With no limit on the stack, the
limits say how deeply brackets and prefix operators may nest.
-/

namespace Lumen

/-- The expression of the statement, if it has one, is within the limits. -/
def Stmt.Fits (limits : Limits) (stmt : Stmt) : Prop :=
  ∀ expr ∈ stmt.expr?,
    limits.admits Grammar.outermost = true ∧ expr.Fits limits Grammar.outermost

theorem Stmt.fits_of_expr {limits : Limits} {stmt : Stmt} {value : Expr}
    (hexpr : stmt.expr? = some value) (hadmits : limits.admits Grammar.outermost = true)
    (hfits : value.Fits limits Grammar.outermost) : stmt.Fits limits := by
  intro expr hmem
  rw [hexpr] at hmem
  obtain rfl := Option.some.inj hmem
  exact ⟨hadmits, hfits⟩

namespace Grammar

variable {limits : Limits} {load : Load} {tokens rest : List Token}

/-! ## Statements -/

theorem stops_semicolon {semicolon : Token} (hsemicolon : semicolon.kind = .semicolon)
    (rest : List Token) : Stops 5 (semicolon :: rest) :=
  stops_cons (by rw [hsemicolon]; decide) rest

/-- An expression with its semicolon is read exactly where the grammar derives
one within the limits. -/
theorem closedExpression_ends_iff {fault : GrammarFault} {expr : Expr} :
    (closedExpression limits fault tokens).Ends expr rest ↔
      ∃ (derivation : Derivation .equality) (semicolon : Token), derivation.tree = expr ∧
        semicolon.kind = .semicolon ∧ derivation.yield ++ semicolon :: rest = tokens ∧
        limits.admits outermost = true ∧ expr.Fits limits outermost := by
  rw [closedExpression, Reading.ends_andThen_iff]
  constructor
  · rintro ⟨value, between, hvalue, hclose⟩
    obtain ⟨semicolon, hexpect, rfl⟩ := Reading.ends_map_iff.mp hclose
    obtain ⟨rfl, hsemicolon⟩ := Reading.ends_expect_iff.mp hexpect
    obtain ⟨hadmits, derivation, htree, hyield, hfits⟩ :=
      (expression_ends_iff (stops_semicolon hsemicolon rest)).mp hvalue
    exact ⟨derivation, semicolon, htree, hsemicolon, hyield, hadmits, hfits⟩
  · rintro ⟨derivation, semicolon, rfl, hsemicolon, hyield, hadmits, hfits⟩
    refine ⟨derivation.tree, semicolon :: rest, ?_, ?_⟩
    · exact (expression_ends_iff (stops_semicolon hsemicolon rest)).mpr
        ⟨hadmits, derivation, rfl, hyield, hfits⟩
    · exact Reading.ends_map_iff.mpr
        ⟨semicolon, Reading.ends_expect_iff.mpr ⟨rfl, hsemicolon⟩, rfl⟩

theorem initializer_ends_iff {initial : Option Expr} :
    (initializer limits tokens).Ends initial rest ↔
      (∃ semicolon, semicolon.kind = .semicolon ∧ tokens = semicolon :: rest ∧ initial = none) ∨
      ∃ equal after value, equal.kind = .equal ∧ tokens = equal :: after ∧
        (closedExpression limits .expectedEndOfDeclaration after).Ends value rest ∧
        initial = some value := by
  cases tokens with
  | nil => simp [initializer]
  | cons first more =>
      by_cases hequal : first.kind = .equal
      · have hdone : (initializer limits (first :: more)).Ends initial rest ↔
            ∃ value, (closedExpression limits .expectedEndOfDeclaration more).Ends value rest ∧
              initial = some value := by
          rw [initializer, if_pos hequal]
          cases closedExpression limits .expectedEndOfDeclaration more with
          | done value later shorter =>
              simp only [Reading.ends_done]
              constructor
              · rintro ⟨rfl, rfl⟩
                exact ⟨value, ⟨rfl, rfl⟩, rfl⟩
              · rintro ⟨_, ⟨rfl, rfl⟩, rfl⟩
                exact ⟨rfl, rfl⟩
          | failed fault later within => simp
        rw [hdone]
        constructor
        · rintro ⟨value, hvalue, rfl⟩
          exact .inr ⟨first, more, value, hequal, rfl, hvalue, rfl⟩
        · rintro (⟨semicolon, hsemicolon, hcons, -⟩ | ⟨equal, after, value, -, hcons, hvalue, rfl⟩)
          · obtain ⟨rfl, -⟩ := List.cons.inj hcons
            rw [hequal] at hsemicolon
            cases hsemicolon
          · obtain ⟨rfl, rfl⟩ := List.cons.inj hcons
            exact ⟨value, hvalue, rfl⟩
      · rw [initializer, if_neg hequal, Reading.ends_map_iff]
        constructor
        · rintro ⟨semicolon, hexpect, rfl⟩
          obtain ⟨hcons, hsemicolon⟩ := Reading.ends_expect_iff.mp hexpect
          exact .inl ⟨semicolon, hsemicolon, hcons, rfl⟩
        · rintro (⟨semicolon, hsemicolon, hcons, rfl⟩ | ⟨equal, after, value, hkind, hcons, -, -⟩)
          · exact ⟨semicolon, Reading.ends_expect_iff.mpr ⟨hcons, hsemicolon⟩, rfl⟩
          · obtain ⟨rfl, -⟩ := List.cons.inj hcons
            exact absurd hkind hequal

theorem declaration_var_ends_iff {first : Token} {more : List Token} {stmt : Stmt}
    (hfirst : first.kind = .varWord) :
    (declaration limits (first :: more)).Ends stmt rest ↔
      ∃ name after initial, more = name :: after ∧ name.kind = .identifier ∧
        (initializer limits after).Ends initial rest ∧ Stmt.declare name initial = stmt := by
  rw [declaration, if_pos hfirst, Reading.ends_andThen_iff]
  constructor
  · rintro ⟨_, _, hword, hbehind⟩
    obtain ⟨rfl, rfl⟩ := Reading.ends_done.mp hword
    obtain ⟨name, after, hexpect, hinitializer⟩ := Reading.ends_andThen_iff.mp hbehind
    obtain ⟨hmore, hname⟩ := Reading.ends_expect_iff.mp hexpect
    obtain ⟨initial, hinitial, hstmt⟩ := Reading.ends_map_iff.mp hinitializer
    exact ⟨name, after, initial, hmore, hname, hinitial, hstmt⟩
  · rintro ⟨name, after, initial, hmore, hname, hinitial, hstmt⟩
    refine ⟨first, more, Reading.ends_done.mpr ⟨rfl, rfl⟩, Reading.ends_andThen_iff.mpr ?_⟩
    exact ⟨name, after, Reading.ends_expect_iff.mpr ⟨hmore, hname⟩,
      Reading.ends_map_iff.mpr ⟨initial, hinitial, hstmt⟩⟩

theorem declaration_print_ends_iff {first : Token} {more : List Token} {stmt : Stmt}
    (hfirst : first.kind = .printWord) :
    (declaration limits (first :: more)).Ends stmt rest ↔
      ∃ value, (closedExpression limits .expectedEndOfPrint more).Ends value rest ∧
        Stmt.print value = stmt := by
  have hvar : first.kind ≠ .varWord := by simp [hfirst]
  rw [declaration, if_neg hvar, if_pos hfirst, Reading.ends_andThen_iff]
  constructor
  · rintro ⟨_, _, hword, hbehind⟩
    obtain ⟨rfl, rfl⟩ := Reading.ends_done.mp hword
    exact Reading.ends_map_iff.mp hbehind
  · intro hvalue
    exact ⟨first, more, Reading.ends_done.mpr ⟨rfl, rfl⟩, Reading.ends_map_iff.mpr hvalue⟩

theorem declaration_expression_ends_iff {first : Token} {more : List Token} {stmt : Stmt}
    (hvar : first.kind ≠ .varWord) (hprint : first.kind ≠ .printWord) :
    (declaration limits (first :: more)).Ends stmt rest ↔
      ∃ value, (closedExpression limits .expectedEndOfStatement (first :: more)).Ends value rest ∧
        Stmt.expression value = stmt := by
  rw [declaration, if_neg hvar, if_neg hprint, Reading.ends_map_iff]

/-- What is read as a declaration is a statement of the grammar within the
limits, and its tokens are those taken. -/
theorem declaration_sound {stmt : Stmt} (hends : (declaration limits tokens).Ends stmt rest) :
    ∃ clause : Clause, clause.tree = stmt ∧ clause.yield ++ rest = tokens ∧ stmt.Fits limits := by
  cases tokens with
  | nil => simp [declaration] at hends
  | cons first more =>
      by_cases hvar : first.kind = .varWord
      · obtain ⟨name, after, initial, rfl, hname, hinitial, rfl⟩ :=
          (declaration_var_ends_iff hvar).mp hends
        rcases initializer_ends_iff.mp hinitial with
          ⟨semicolon, hsemicolon, rfl, rfl⟩ | ⟨equal, later, value, hequal, rfl, hvalue, rfl⟩
        · refine ⟨.declareNil first name semicolon hvar hname hsemicolon, rfl, rfl, ?_⟩
          intro expr hexpr
          cases hexpr
        · obtain ⟨derivation, semicolon, rfl, hsemicolon, rfl, hadmits, hfits⟩ :=
            closedExpression_ends_iff.mp hvalue
          exact ⟨.declareValue first name equal derivation semicolon hvar hname hequal hsemicolon,
            rfl, by simp [Clause.yield], Stmt.fits_of_expr rfl hadmits hfits⟩
      · by_cases hprint : first.kind = .printWord
        · obtain ⟨value, hvalue, rfl⟩ := (declaration_print_ends_iff hprint).mp hends
          obtain ⟨derivation, semicolon, rfl, hsemicolon, rfl, hadmits, hfits⟩ :=
            closedExpression_ends_iff.mp hvalue
          exact ⟨.print first derivation semicolon hprint hsemicolon, rfl,
            by simp [Clause.yield], Stmt.fits_of_expr rfl hadmits hfits⟩
        · obtain ⟨value, hvalue, rfl⟩ := (declaration_expression_ends_iff hvar hprint).mp hends
          obtain ⟨derivation, semicolon, rfl, hsemicolon, hyield, hadmits, hfits⟩ :=
            closedExpression_ends_iff.mp hvalue
          exact ⟨.evaluate derivation semicolon hsemicolon, rfl,
            by simpa [Clause.yield] using hyield, Stmt.fits_of_expr rfl hadmits hfits⟩

/-- Every statement of the grammar within the limits is read, whatever follows
it. -/
theorem declaration_complete (clause : Clause) (hfits : clause.tree.Fits limits)
    (rest : List Token) :
    (declaration limits (clause.yield ++ rest)).Ends clause.tree rest := by
  cases clause with
  | declareNil word name semicolon hword hname hsemicolon =>
      apply (declaration_var_ends_iff hword).mpr
      refine ⟨name, semicolon :: rest, none, rfl, hname, ?_, rfl⟩
      exact initializer_ends_iff.mpr (.inl ⟨semicolon, hsemicolon, rfl, rfl⟩)
  | declareValue word name equal value semicolon hword hname hequal hsemicolon =>
      obtain ⟨hadmits, hvalue⟩ := hfits value.tree rfl
      apply (declaration_var_ends_iff hword).mpr
      refine ⟨name, equal :: (value.yield ++ [semicolon] ++ rest), some value.tree, rfl, hname,
        ?_, rfl⟩
      refine initializer_ends_iff.mpr (.inr ⟨equal, _, value.tree, hequal, rfl, ?_, rfl⟩)
      exact closedExpression_ends_iff.mpr
        ⟨value, semicolon, rfl, hsemicolon, by simp, hadmits, hvalue⟩
  | print word value semicolon hword hsemicolon =>
      obtain ⟨hadmits, hvalue⟩ := hfits value.tree rfl
      apply (declaration_print_ends_iff hword).mpr
      refine ⟨value.tree, ?_, rfl⟩
      exact closedExpression_ends_iff.mpr
        ⟨value, semicolon, rfl, hsemicolon, by simp, hadmits, hvalue⟩
  | evaluate value semicolon hsemicolon =>
      obtain ⟨hadmits, hvalue⟩ := hfits value.tree rfl
      obtain ⟨first, more, hyield, hstarts⟩ := value.exists_first
      have hvar : first.kind ≠ .varWord := by
        intro hkind
        simp [hkind, Kind.startsStatement] at hstarts
      have hprint : first.kind ≠ .printWord := by
        intro hkind
        simp [hkind, Kind.startsStatement] at hstarts
      have hclosed : (closedExpression limits .expectedEndOfStatement
          (first :: (more ++ [semicolon] ++ rest))).Ends value.tree rest :=
        closedExpression_ends_iff.mpr
          ⟨value, semicolon, rfl, hsemicolon, by simp [hyield], hadmits, hvalue⟩
      rw [Clause.yield, hyield]
      exact (declaration_expression_ends_iff hvar hprint).mpr ⟨value.tree, hclosed, rfl⟩

/-! ## Programs -/

theorem entries_of_ends {stmt : Stmt} (hends : (declaration limits tokens).Ends stmt rest) :
    entries limits tokens = .statement stmt rest :: entries limits rest := by
  obtain ⟨shorter, hdone⟩ := hends
  cases tokens with
  | nil => simp at shorter
  | cons first more => rw [entries, hdone]

/-- A statement of the grammar is an entry by itself, and reading goes on behind
it. -/
theorem entries_clause_append (clause : Clause) (hfits : clause.tree.Fits limits)
    (rest : List Token) :
    entries limits (clause.yield ++ rest) = .statement clause.tree rest :: entries limits rest :=
  entries_of_ends (declaration_complete clause hfits rest)

theorem statements_clauses_append (clauses : List Clause)
    (hfits : ∀ clause ∈ clauses, clause.tree.Fits limits) (rest : List Token) :
    (entries limits (clauses.flatMap Clause.yield ++ rest)).filterMap Entry.statement? =
      clauses.map Clause.tree ++ (entries limits rest).filterMap Entry.statement? := by
  induction clauses with
  | nil => rfl
  | cons clause clauses ih =>
      have hrest := ih fun other hother => hfits other (List.mem_cons_of_mem _ hother)
      rw [List.flatMap_cons, List.append_assoc,
        entries_clause_append clause (hfits clause List.mem_cons_self)]
      simp only [List.filterMap_cons, Entry.statement?, hrest, List.map_cons, List.cons_append]

theorem diagnostics_clauses_append (sentence : Sentence) (clauses : List Clause)
    (hfits : ∀ clause ∈ clauses, clause.tree.Fits limits) (rest : List Token) :
    (entries limits (clauses.flatMap Clause.yield ++ rest)).filterMap
        (Entry.diagnostic? sentence) =
      (entries limits rest).filterMap (Entry.diagnostic? sentence) := by
  induction clauses with
  | nil => rfl
  | cons clause clauses ih =>
      have hrest := ih fun other hother => hfits other (List.mem_cons_of_mem _ hother)
      rw [List.flatMap_cons, List.append_assoc,
        entries_clause_append clause (hfits clause List.mem_cons_self)]
      simp only [List.filterMap_cons, Entry.diagnostic?, hrest]

/-- Tokens that are read without a mistake are those of statements of the
grammar. -/
theorem exists_clauses (sentence : Sentence)
    (hnone : (entries limits tokens).filterMap (Entry.diagnostic? sentence) = []) :
    ∃ clauses : List Clause, clauses.flatMap Clause.yield = tokens ∧
      clauses.map Clause.tree = (entries limits tokens).filterMap Entry.statement? ∧
      ∀ clause ∈ clauses, clause.tree.Fits limits := by
  induction tokens using entries.induct limits with
  | case1 => exact ⟨[], rfl, by rw [entries]; rfl, by simp⟩
  | case2 first more stmt rest shorter hdone ih =>
      have hends : (declaration limits (first :: more)).Ends stmt rest := ⟨shorter, hdone⟩
      rw [entries_of_ends hends] at hnone ⊢
      simp only [List.filterMap_cons, Entry.diagnostic?] at hnone
      obtain ⟨clauses, hyield, htrees, hfits⟩ := ih hnone
      obtain ⟨clause, rfl, hclause, hclauseFits⟩ := declaration_sound hends
      refine ⟨clause :: clauses, ?_, ?_, ?_⟩
      · rw [List.flatMap_cons, hyield, hclause]
      · simp only [List.map_cons, htrees, List.filterMap_cons, Entry.statement?]
      · intro other hother
        rcases List.mem_cons.mp hother with rfl | hother
        · exact hclauseFits
        · exact hfits other hother
  | case3 first more fault rest within hfailed ih =>
      rw [entries, hfailed] at hnone
      simp [Entry.diagnostic?] at hnone

end Grammar

/-- Strict reading gives the statements exactly where there is no mistake. -/
theorem Program.strict_eq_ok_iff_errors {limits : Limits} {tokens : List Token}
    {stmts : List Stmt} :
    Program.strict limits tokens = .ok stmts ↔
      (Program.ofTokens limits tokens).errors = [] ∧
        (Program.ofTokens limits tokens).statements = stmts := by
  cases herrors : (Program.ofTokens limits tokens).errors with
  | nil => simp [Program.strict, herrors, Report.ofList?]
  | cons error errors => simp [Program.strict, herrors, Report.ofList?, List.getLast?_cons]

open Grammar

/-- A program is accepted if and only if it is a sequence of derived statements
within the limits. -/
theorem Program.strict_eq_ok_iff {limits : Limits} {tokens : List Token} {stmts : List Stmt} :
    Program.strict limits tokens = .ok stmts ↔
      ∃ clauses : List Clause,
        clauses.flatMap Clause.yield = (Sentence.ofTokens tokens).body ∧
        clauses.map Clause.tree = stmts ∧ ∀ stmt ∈ stmts, stmt.Fits limits := by
  rw [Program.strict_eq_ok_iff_errors]
  constructor
  · rintro ⟨herrors, rfl⟩
    obtain ⟨clauses, hyield, htrees, hfits⟩ := exists_clauses _ herrors
    refine ⟨clauses, hyield, htrees, ?_⟩
    intro stmt hstmt
    have hmem : stmt ∈ clauses.map Clause.tree := htrees ▸ hstmt
    obtain ⟨clause, hclause, rfl⟩ := List.mem_map.mp hmem
    exact hfits clause hclause
  · rintro ⟨clauses, hyield, rfl, hfits⟩
    have hclauses : ∀ clause ∈ clauses, clause.tree.Fits limits := fun clause hclause =>
      hfits clause.tree (List.mem_map_of_mem hclause)
    have hend : entries limits [] = [] := by rw [entries]
    constructor
    · change (entries limits (Sentence.ofTokens tokens).body).filterMap _ = []
      rw [← hyield, ← List.append_nil (clauses.flatMap _),
        diagnostics_clauses_append _ clauses hclauses, hend]
      rfl
    · change (entries limits (Sentence.ofTokens tokens).body).filterMap _ = _
      rw [← hyield, ← List.append_nil (clauses.flatMap _),
        statements_clauses_append clauses hclauses, hend]
      simp

/-- One expression is read exactly where a derivation within the limits takes up
all tokens. -/
theorem Expr.ofTokens_eq_ok_iff {limits : Limits} {tokens : List Token} {expr : Expr} :
    Expr.ofTokens limits tokens = .ok expr ↔
      limits.admits outermost = true ∧
        Covers limits outermost .equality (Sentence.ofTokens tokens).body expr [] := by
  have hstops : Stops 5 [] := by simp [Stops]
  rw [← expression_ends_iff hstops, Expr.ofTokens]
  cases expression limits outermost (Sentence.ofTokens tokens).body with
  | failed fault rest within => simp
  | done found rest shorter =>
      cases rest with
      | nil => simp
      | cons first more => simp

/-- Nothing behind the first end token counts. -/
theorem Sentence.ofTokens_append_cons {body unused : List Token} {stop : Token}
    (hbody : ∀ token ∈ body, token.kind ≠ .eof) (hstop : stop.kind = .eof) :
    Sentence.ofTokens (body ++ stop :: unused) = ⟨body, stop⟩ := by
  have htake : (body ++ stop :: unused).takeWhile (·.kind != .eof) = body := by
    rw [List.takeWhile_append_of_pos (by simpa using hbody)]
    simp [hstop]
  have hfind : (body ++ stop :: unused).find? (·.kind == .eof) = some stop := by
    rw [List.find?_append, List.find?_eq_none.mpr (by simpa using hbody)]
    simp [hstop]
  simp only [Sentence.ofTokens, htake, hfind, Option.getD_some]

theorem Sentence.ofTokens_append {body : List Token} {stop : Token}
    (hbody : ∀ token ∈ body, token.kind ≠ .eof) (hstop : stop.kind = .eof) :
    Sentence.ofTokens (body ++ [stop]) = ⟨body, stop⟩ :=
  Sentence.ofTokens_append_cons hbody hstop

/-! ## The depth limit by itself -/

theorem Limits.admits_withoutStack_iff (depth : Int) (load : Load) :
    (Limits.withoutStack depth).admits load = true ↔ (load.depth : Int) ≤ depth := by
  rw [Limits.admits, Bool.and_eq_true, Limits.holdsDepth, Limits.holdsFrames, decide_eq_true_iff]
  exact and_iff_left rfl

/-- Without a stack limit, the depth of the deepest point decides. -/
theorem Expr.fits_withoutStack_iff (depth : Int) (expr : Expr) (load : Load) :
    (Limits.withoutStack depth).admits load = true ∧ expr.Fits (.withoutStack depth) load ↔
      (load.depth : Int) + expr.nesting ≤ depth := by
  induction expr generalizing load with
  | binary left operator right ihLeft ihRight =>
      rw [Expr.nesting]
      constructor
      · rintro ⟨hadmits, hleft, hright⟩
        have hleftDepth := (ihLeft load).mp ⟨hadmits, hleft⟩
        have hrightDepth := (ihRight load).mp ⟨hadmits, hright⟩
        omega
      · intro hdepth
        obtain ⟨hadmits, hleft⟩ := (ihLeft load).mpr (by omega)
        obtain ⟨-, hright⟩ := (ihRight load).mpr (by omega)
        exact ⟨hadmits, hleft, hright⟩
  | grouping inner paren ih =>
      have hdeeper : (load.deeper Grammar.groupFrames).depth = load.depth + 1 := rfl
      rw [Expr.Fits, ih, Limits.admits_withoutStack_iff, hdeeper, Expr.nesting]
      omega
  | literal value =>
      rw [Limits.admits_withoutStack_iff, Expr.Fits, Expr.nesting]
      simp
  | unary operator operand ih =>
      have hdeeper : (load.deeper Grammar.unaryFrames).depth = load.depth + 1 := rfl
      rw [Expr.Fits, ih, Limits.admits_withoutStack_iff, hdeeper, Expr.nesting]
      omega
  | reference name =>
      rw [Limits.admits_withoutStack_iff, Expr.Fits, Expr.nesting]
      simp

theorem Expr.fits_outermost_iff (depth : Int) (expr : Expr) :
    (Limits.withoutStack depth).admits outermost = true ∧
        expr.Fits (.withoutStack depth) outermost ↔ (expr.nesting : Int) ≤ depth - 1 := by
  rw [Expr.fits_withoutStack_iff]
  simp only [outermost]
  omega

theorem Stmt.fits_withoutStack_iff (depth : Int) (stmt : Stmt) :
    stmt.Fits (.withoutStack depth) ↔
      ∀ expr ∈ stmt.expr?, (expr.nesting : Int) ≤ depth - 1 := by
  simp only [Stmt.Fits, Expr.fits_outermost_iff]

/-! ## Unambiguity -/

theorem Reading.Ends.unique {tokens rest rest' : List Token} {α : Type}
    {reading : Reading tokens α} {phrase phrase' : α} (first : reading.Ends phrase rest)
    (second : reading.Ends phrase' rest') : phrase = phrase' ∧ rest = rest' := by
  obtain ⟨shorter, rfl⟩ := first
  exact Reading.ends_done.mp second

/-- A token sequence has at most one derivation as an expression: under a depth
limit beyond both, reading returns the trees of both. -/
theorem Grammar.Derivation.eq_of_yield (first second : Derivation .equality)
    (hyield : first.yield = second.yield) : first = second := by
  let depth : Int := max first.tree.nesting second.tree.nesting + 1
  have hstops : Stops 5 [] := by simp [Stops]
  have hends : ∀ derivation : Derivation .equality, derivation.yield = first.yield →
      (derivation.tree.nesting : Int) ≤ depth - 1 →
      (expression (.withoutStack depth) outermost first.yield).Ends derivation.tree [] := by
    intro derivation hsame hdepth
    obtain ⟨hadmits, hfits⟩ := (Expr.fits_outermost_iff depth derivation.tree).mpr hdepth
    exact (expression_ends_iff hstops).mpr
      ⟨hadmits, derivation, rfl, by rw [List.append_nil, hsame], hfits⟩
  have hfirst := hends first rfl (by omega)
  have hsecond := hends second hyield.symm (by omega)
  exact first.eq_of_tree_of_yield second (hfirst.unique hsecond).1 hyield

def Stmt.nesting (stmt : Stmt) : Nat :=
  stmt.expr?.elim 0 Expr.nesting

theorem Stmt.fits_of_nesting {depth : Int} {stmt : Stmt} (hdepth : stmt.nesting < depth) :
    stmt.Fits (.withoutStack depth) := by
  rw [Stmt.fits_withoutStack_iff]
  intro expr hexpr
  rw [Stmt.nesting, Option.mem_def.mp hexpr] at hdepth
  change (expr.nesting : Int) < depth at hdepth
  omega

theorem Grammar.Clause.yield_ne_nil (clause : Clause) : clause.yield ≠ [] := by
  cases clause <;> simp [Clause.yield]

/-- A token sequence is derived as statements in one way at most. -/
theorem Grammar.Clause.eq_of_flatMap_yield (first second : List Clause)
    (hyield : first.flatMap Clause.yield = second.flatMap Clause.yield) : first = second := by
  induction first generalizing second with
  | nil =>
      cases second with
      | nil => rfl
      | cons clause clauses => simp [Clause.yield_ne_nil] at hyield
  | cons clause clauses ih =>
      cases second with
      | nil => simp [Clause.yield_ne_nil] at hyield
      | cons clause' clauses' =>
          let depth : Int := max clause.tree.nesting clause'.tree.nesting + 1
          have hfits : clause.tree.Fits (.withoutStack depth) := Stmt.fits_of_nesting (by omega)
          have hfits' : clause'.tree.Fits (.withoutStack depth) := Stmt.fits_of_nesting (by omega)
          have hends := declaration_complete clause hfits (clauses.flatMap Clause.yield)
          have hends' := declaration_complete clause' hfits' (clauses'.flatMap Clause.yield)
          rw [List.flatMap_cons, List.flatMap_cons] at hyield
          rw [hyield] at hends
          obtain ⟨htree, hrest⟩ := hends.unique hends'
          rw [hrest] at hyield
          rw [clause.eq_of_tree_of_yield clause' htree (List.append_cancel_right hyield),
            ih clauses' hrest]

/-- Under a depth limit alone, an expression is accepted if and only if the
grammar derives it and it nests below the limit. -/
theorem Expr.ofTokens_withoutStack_iff (depth : Int) {tokens : List Token} {stop : Token}
    (htokens : ∀ token ∈ tokens, token.kind ≠ .eof) (hstop : stop.kind = .eof) (expr : Expr) :
    Expr.ofTokens (.withoutStack depth) (tokens ++ [stop]) = .ok expr ↔
      (∃ derivation : Derivation .equality,
        derivation.yield = tokens ∧ derivation.tree = expr) ∧
      (expr.nesting : Int) ≤ depth - 1 := by
  rw [Expr.ofTokens_eq_ok_iff, Sentence.ofTokens_append htokens hstop, ← Expr.fits_outermost_iff]
  constructor
  · rintro ⟨hadmits, derivation, htree, hyield, hfits⟩
    rw [List.append_nil] at hyield
    exact ⟨⟨derivation, hyield, htree⟩, hadmits, hfits⟩
  · rintro ⟨⟨derivation, hyield, htree⟩, hadmits, hfits⟩
    exact ⟨hadmits, derivation, htree, by rw [List.append_nil, hyield], hfits⟩

/-- Under a depth limit alone, a program is accepted if and only if the grammar
derives it and every statement nests below the limit. -/
theorem Program.strict_withoutStack_iff (depth : Int) {tokens : List Token} {stop : Token}
    (htokens : ∀ token ∈ tokens, token.kind ≠ .eof) (hstop : stop.kind = .eof)
    (stmts : List Stmt) :
    Program.strict (.withoutStack depth) (tokens ++ [stop]) = .ok stmts ↔
      (∃ clauses : List Clause,
        clauses.flatMap Clause.yield = tokens ∧ clauses.map Clause.tree = stmts) ∧
      ∀ stmt ∈ stmts, ∀ expr ∈ stmt.expr?, (expr.nesting : Int) ≤ depth - 1 := by
  simp only [Program.strict_eq_ok_iff, Sentence.ofTokens_append htokens hstop,
    Stmt.fits_withoutStack_iff]
  constructor
  · rintro ⟨clauses, hyield, htrees, hfits⟩
    exact ⟨⟨clauses, hyield, htrees⟩, hfits⟩
  · rintro ⟨⟨clauses, hyield, htrees⟩, hfits⟩
    exact ⟨clauses, hyield, htrees, hfits⟩

/-- Reading accepts exactly what the grammar derives within the depth limit, as
an expression and as a program, and what it accepts has exactly one
derivation. -/
theorem acceptance_exact (depth : Int) (tokens : List Token) (stop : Token)
    (htokens : ∀ token ∈ tokens, token.kind ≠ .eof) (hstop : stop.kind = .eof) :
    (∀ expr, Expr.ofTokens (.withoutStack depth) (tokens ++ [stop]) = .ok expr ↔
      (∃ derivation : Derivation .equality,
        derivation.yield = tokens ∧ derivation.tree = expr) ∧
      (expr.nesting : Int) ≤ depth - 1) ∧
    (∀ stmts, Program.strict (.withoutStack depth) (tokens ++ [stop]) = .ok stmts ↔
      (∃ clauses : List Clause,
        clauses.flatMap Clause.yield = tokens ∧ clauses.map Clause.tree = stmts) ∧
      ∀ stmt ∈ stmts, ∀ expr ∈ stmt.expr?, (expr.nesting : Int) ≤ depth - 1) ∧
    (∀ expr, Expr.ofTokens (.withoutStack depth) (tokens ++ [stop]) = .ok expr →
      ∃! derivation : Derivation .equality, derivation.yield = tokens) ∧
    (∀ stmts, Program.strict (.withoutStack depth) (tokens ++ [stop]) = .ok stmts →
      ∃! clauses : List Clause, clauses.flatMap Clause.yield = tokens) := by
  have hexpr := Expr.ofTokens_withoutStack_iff depth htokens hstop
  have hstmts := Program.strict_withoutStack_iff depth htokens hstop
  refine ⟨hexpr, hstmts, ?_, ?_⟩
  · intro expr haccepted
    obtain ⟨⟨derivation, hyield, -⟩, -⟩ := (hexpr expr).mp haccepted
    refine ⟨derivation, hyield, ?_⟩
    intro other hother
    exact other.eq_of_yield derivation (hother.trans hyield.symm)
  · intro stmts haccepted
    obtain ⟨⟨clauses, hyield, -⟩, -⟩ := (hstmts stmts).mp haccepted
    refine ⟨clauses, hyield, ?_⟩
    intro other hother
    exact Clause.eq_of_flatMap_yield other clauses (hother.trans hyield.symm)

/-- The expression `!(x == nil)` nests to depth two: a limit of three admits it
and a limit of two does not. -/
theorem acceptance_exact_negation :
    let bang : Token := ⟨.bang, "!", none, 1⟩
    let opening : Token := ⟨.leftParen, "(", none, 1⟩
    let name : Token := ⟨.identifier, "x", none, 1⟩
    let equal : Token := ⟨.equalEqual, "==", none, 1⟩
    let word : Token := ⟨.nilWord, "nil", some .nil, 1⟩
    let closing : Token := ⟨.rightParen, ")", none, 1⟩
    let tokens := [bang, opening, name, equal, word, closing]
    let expr : Expr := .unary bang
      (.grouping (.binary (.reference name) equal (.literal (some .nil))) (some opening))
    Expr.ofTokens (.withoutStack 3) (tokens ++ [.endAt 1]) = .ok expr ∧
      Expr.ofTokens (.withoutStack 2) (tokens ++ [.endAt 1]) ≠ .ok expr := by
  intro bang opening name equal word closing tokens expr
  have htokens : ∀ token ∈ tokens, token.kind ≠ .eof := by decide
  have hthree := acceptance_exact 3 tokens (.endAt 1) htokens rfl
  have htwo := acceptance_exact 2 tokens (.endAt 1) htokens rfl
  let comparand (operand : Derivation .unary) : Derivation .comparison :=
    .only .comparison (.only .term (.only .factor operand))
  let inner : Derivation .equality :=
    .join .equality (.only .equality (comparand (.plain (.reference name rfl)))) equal
      (by decide) (comparand (.plain (.literal word (by decide))))
  let whole : Derivation .equality :=
    .only .equality (comparand (.sign bang (by decide)
      (.plain (.group opening rfl inner closing rfl))))
  constructor
  · exact (hthree.1 expr).mpr ⟨⟨whole, rfl, rfl⟩, by decide⟩
  · intro haccepted
    have hnesting := ((htwo.1 expr).mp haccepted).2
    exact absurd hnesting (by decide)

end Lumen
