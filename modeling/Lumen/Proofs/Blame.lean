import Lumen.Proofs.Reporting

/-!
# Where diagnostics point

Every diagnostic about a source points into it.  Mistakes of scanning stand on a
line of the source.  Reading only ever leaves tokens of the source, so each of
its mistakes is about one of them, at the latest about the end token.  The
tokens that a tree keeps are tokens that it was read from, and evaluation blames
its faults on tokens of the tree; so failures of a run are about tokens of the
source as well, under whatever limits and bindings it runs.
-/

namespace Lumen

/-! ## Tokens of trees -/

namespace Expr

/-- The tokens that a tree keeps: operators, opening brackets and names. -/
def tokens : Expr → List Token
  | binary left operator right => operator :: (left.tokens ++ right.tokens)
  | grouping inner paren => paren.toList ++ inner.tokens
  | literal _ => []
  | unary operator operand => operator :: operand.tokens
  | reference name => [name]

variable {expr : Expr} {token : Token}

theorem ownToken?_mem_tokens (hown : expr.ownToken? = some token) : token ∈ expr.tokens := by
  cases expr with
  | literal value => cases hown
  | grouping inner paren => simp_all [ownToken?, tokens]
  | binary left operator right => simp_all [ownToken?, tokens]
  | unary operator operand => simp_all [ownToken?, tokens]
  | reference name => simp_all [ownToken?, tokens]

theorem tokens_children_subset (expr : Expr) : expr.children.flatMap tokens ⊆ expr.tokens := by
  cases expr <;> simp [children, tokens]

/-- The token that a visit meets belongs to a tree on the stack. -/
theorem tokenOnStack?_mem {stack : List Expr} (hfound : tokenOnStack? stack = some token) :
    token ∈ stack.flatMap tokens := by
  induction stack using tokenOnStack?.induct with
  | case1 =>
      rw [tokenOnStack?] at hfound
      cases hfound
  | case2 expr stack own hown =>
      rw [tokenOnStack?, hown] at hfound
      obtain rfl := Option.some.inj hfound
      exact List.mem_append_left _ (ownToken?_mem_tokens hown)
  | case3 expr stack hnone ih =>
      rw [tokenOnStack?, hnone] at hfound
      have hlater := ih hfound
      rw [List.flatMap_append] at hlater
      rcases List.mem_append.mp hlater with hchild | hstack
      · exact List.mem_append_left _ (tokens_children_subset expr hchild)
      · exact List.mem_append_right _ hstack

theorem firstToken?_mem_tokens (hfirst : expr.firstToken? = some token) : token ∈ expr.tokens := by
  simpa using tokenOnStack?_mem hfirst

end Expr

def Stmt.tokens : Stmt → List Token
  | print value => value.tokens
  | expression value => value.tokens
  | declare name initializer => name :: initializer.elim [] Expr.tokens

theorem Stmt.tokens_expr?_subset {stmt : Stmt} {expr : Expr} (hexpr : expr ∈ stmt.expr?) :
    expr.tokens ⊆ stmt.tokens := by
  cases stmt with
  | print value =>
      obtain rfl := Option.some.inj hexpr
      exact List.Subset.refl _
  | expression value =>
      obtain rfl := Option.some.inj hexpr
      exact List.Subset.refl _
  | declare name initializer =>
      obtain rfl : initializer = some expr := hexpr
      exact List.subset_cons_self name expr.tokens

theorem Stmt.firstToken?_mem_tokens {stmt : Stmt} {token : Token}
    (hfirst : stmt.firstToken? = some token) : token ∈ stmt.tokens := by
  cases stmt with
  | print value => exact Expr.firstToken?_mem_tokens hfirst
  | expression value => exact Expr.firstToken?_mem_tokens hfirst
  | declare name initializer =>
      obtain rfl := Option.some.inj hfirst
      exact List.mem_cons_self

/-- A tree keeps no token but those that it was read from. -/
theorem Grammar.Derivation.tokens_tree_subset {phrase : Phrase} (derivation : Derivation phrase) :
    derivation.tree.tokens ⊆ derivation.yield := by
  induction derivation with
  | only _ single ih => exact ih
  | join _ left operator _ right ihLeft ihRight =>
      intro token hmem
      rcases List.mem_cons.mp hmem with rfl | hparts
      · exact List.mem_append_right _ List.mem_cons_self
      · rcases List.mem_append.mp hparts with hleft | hright
        · exact List.mem_append_left _ (ihLeft hleft)
        · exact List.mem_append_right _ (List.mem_cons_of_mem _ (ihRight hright))
  | sign operator _ operand ih => exact List.cons_subset_cons operator ih
  | plain primary ih => exact ih
  | literal => exact List.nil_subset _
  | reference => exact List.Subset.refl _
  | group opening _ inner closing _ ih =>
      exact List.cons_subset_cons opening (List.Subset.trans ih (List.subset_append_left _ _))

theorem Grammar.Clause.tokens_tree_subset (clause : Clause) : clause.tree.tokens ⊆ clause.yield := by
  cases clause with
  | declareNil word name semicolon => simp [tree, yield, Stmt.tokens]
  | declareValue word name equal value semicolon =>
      have hvalue := value.tokens_tree_subset
      intro token hmem
      rcases List.mem_cons.mp hmem with rfl | hmem
      · simp [yield]
      · simp [yield, hvalue hmem]
  | print word value semicolon =>
      exact fun token hmem => by simp [yield, value.tokens_tree_subset hmem]
  | evaluate value semicolon =>
      exact fun token hmem => by simp [yield, value.tokens_tree_subset hmem]

/-- The tokens of a statement that was read are among those it was read from. -/
theorem Program.tokens_subset {limits : Limits} {tokens : List Token} {stmt : Stmt}
    (hmem : stmt ∈ (Program.ofTokens limits tokens).statements) : stmt.tokens ⊆ tokens := by
  obtain ⟨clause, rfl, hyield⟩ := Program.exists_clause hmem
  exact fun token htoken => hyield token (clause.tokens_tree_subset htoken)

/-! ## Faults of evaluation -/

def RuntimeFault.token? : RuntimeFault → Option Token
  | illegal operator => some operator
  | undefined name => some name
  | tooDeep token => token
  | overflow => none
  | unknownOperator _ => none

/-- If the outcome is a fault, it names none but the given tokens. -/
def BlamesOnly (tokens : List Token) (outcome : Except RuntimeFault Value) : Prop :=
  ∀ fault, outcome = .error fault → ∀ token ∈ fault.token?, token ∈ tokens

namespace BlamesOnly

variable {tokens : List Token}

theorem ok (value : Value) : BlamesOnly tokens (.ok value) := by
  intro fault herror
  cases herror

theorem error {fault : RuntimeFault} (htoken : ∀ token ∈ fault.token?, token ∈ tokens) :
    BlamesOnly tokens (.error fault) := by
  intro other herror
  cases herror
  exact htoken

theorem overflow : BlamesOnly tokens (.error .overflow) := by
  apply error
  intro token htoken
  cases htoken

theorem bind {outcome : Except RuntimeFault Value} {next : Value → Except RuntimeFault Value}
    (houtcome : BlamesOnly tokens outcome) (hnext : ∀ value, BlamesOnly tokens (next value)) :
    BlamesOnly tokens (outcome.bind next) := by
  cases outcome with
  | error fault => exact houtcome
  | ok value => exact hnext value

theorem value (bindings : Bindings) {name : Token} (hname : name ∈ tokens) :
    BlamesOnly tokens (bindings.value name) := by
  rw [Bindings.value]
  split
  · exact ok _
  · exact error fun token htoken => Option.some.inj htoken ▸ hname

theorem applyBinary {operator : Token} (hoperator : operator ∈ tokens) (left right : Value) :
    BlamesOnly tokens (applyBinary operator left right) := by
  rw [Lumen.applyBinary]
  split
  · exact error fun token htoken => Option.some.inj htoken ▸ hoperator
  · exact ok _

theorem applyUnary (operator : Token) (operand : Value) :
    BlamesOnly tokens (applyUnary operator operand) := by
  rw [Lumen.applyUnary]
  split
  · exact ok _
  · apply error
    intro token htoken
    cases htoken

/-- Nesting that is too deep is blamed on the first token of the expression. -/
theorem within {limits : Limits} {load : Load} {expr : Expr} {inside : Except RuntimeFault Value}
    (hexpr : expr.tokens ⊆ tokens) (hinside : BlamesOnly tokens inside) :
    BlamesOnly tokens (Expr.within limits load expr inside) := by
  rw [Expr.within]
  split
  · exact error fun token htoken => hexpr (Expr.firstToken?_mem_tokens htoken)
  · split
    · exact overflow
    · exact hinside

theorem evaluateOperand {limits : Limits} {bindings : Bindings} {load : Load} {operand : Expr}
    (hoperand : BlamesOnly tokens (operand.evaluateAt limits bindings load)) :
    BlamesOnly tokens (operand.evaluateOperand limits bindings load) := by
  rw [Expr.evaluateOperand]
  split
  · exact overflow
  · exact hoperand

/-- Evaluation blames its faults on tokens of the tree. -/
theorem evaluateAt {limits : Limits} {bindings : Bindings} {expr : Expr}
    (hexpr : expr.tokens ⊆ tokens) (load : Load) :
    BlamesOnly tokens (expr.evaluateAt limits bindings load) := by
  induction expr generalizing load with
  | binary left operator right ihLeft ihRight =>
      obtain ⟨hoperator, hparts⟩ := List.cons_subset.mp hexpr
      obtain ⟨hleft, hright⟩ := List.append_subset.mp hparts
      rw [Expr.evaluateAt_binary]
      apply (evaluateOperand (ihLeft hleft _)).bind
      intro value
      exact (evaluateOperand (ihRight hright _)).bind (applyBinary hoperator value)
  | grouping inner paren ih =>
      rw [Expr.evaluateAt_grouping]
      exact within hexpr (ih (List.append_subset.mp hexpr).2 _)
  | literal value =>
      rw [Expr.evaluateAt]
      exact ok _
  | unary operator operand ih =>
      rw [Expr.evaluateAt_unary]
      apply within hexpr
      exact (ih (List.cons_subset.mp hexpr).2 _).bind (applyUnary operator)
  | reference name =>
      rw [Expr.evaluateAt]
      exact value bindings (hexpr List.mem_cons_self)

end BlamesOnly

/-! ## Failures of a run -/

/-- The diagnostic is about one of the tokens and stands on its line. -/
def Diagnostic.IsAbout (tokens : List Token) (diagnostic : Diagnostic) : Prop :=
  ∃ token ∈ tokens, diagnostic.token = some token ∧ diagnostic.line = token.line

theorem Diagnostic.IsAbout.mono {tokens more : List Token} {diagnostic : Diagnostic}
    (habout : diagnostic.IsAbout tokens) (hsubset : tokens ⊆ more) : diagnostic.IsAbout more := by
  obtain ⟨token, hmem, hnames⟩ := habout
  exact ⟨token, hsubset hmem, hnames⟩

/-- A failure names the token of its fault, and an exhausted stack is blamed on
the statement's first token. -/
theorem Stmt.token_failure {stmt : Stmt} {fault : RuntimeFault} {diagnostic : Diagnostic}
    (hfailure : stmt.failure fault = .ok diagnostic) :
    diagnostic.token = fault.token? ∨ diagnostic.token = stmt.firstToken? := by
  have hdeep : ∀ token, (RuntimeFault.tooDeepDiagnostic token).token = token := by
    intro token
    cases token <;> rfl
  cases fault with
  | illegal operator =>
      cases hfailure
      exact .inl rfl
  | undefined name =>
      cases hfailure
      exact .inl rfl
  | tooDeep token =>
      cases hfailure
      exact .inl (hdeep token)
  | overflow =>
      cases hfailure
      exact .inr (hdeep stmt.firstToken?)
  | unknownOperator kind => cases hfailure

namespace Machine

variable {limits : Limits}

/-- A statement that fails is reported at one of its tokens. -/
theorem isAbout_failure? {stmt : Stmt} (hwritten : stmt.Written) (machine : Machine)
    {diagnostic : Diagnostic}
    (hfailure : Step.failure? ⟨stmt, (machine.execute limits stmt).1⟩ = some diagnostic) :
    diagnostic.IsAbout stmt.tokens := by
  cases heffect : stmt.effect limits machine.bindings with
  | ok effect => simp [Step.failure?, execute, heffect] at hfailure
  | error fault =>
      obtain ⟨found, message, hreport⟩ := Stmt.exists_failure hwritten heffect
      simp only [Step.failure?, execute, heffect, hreport, Except.toOption,
        Option.some.injEq] at hfailure
      subst hfailure
      refine ⟨found, ?_, rfl, rfl⟩
      rcases Stmt.token_failure hreport with hfault | hfirst
      · obtain ⟨expr, hexpr, hvalue⟩ := Stmt.exists_expr_of_effect heffect
        exact BlamesOnly.evaluateAt (Stmt.tokens_expr?_subset hexpr) .empty fault hvalue found
          hfault.symm
      · exact Stmt.firstToken?_mem_tokens hfirst.symm

/-- Every failure of a run is about a token of its statements. -/
theorem isAbout_failures {stmts : List Stmt} (hwritten : ∀ stmt ∈ stmts, stmt.Written)
    (machine : Machine) {diagnostic : Diagnostic}
    (hmem : diagnostic ∈ (machine.run limits stmts).failures) :
    diagnostic.IsAbout (stmts.flatMap Stmt.tokens) := by
  induction stmts generalizing machine with
  | nil => cases hmem
  | cons stmt stmts ih =>
      obtain ⟨hfirst, hlater⟩ := List.forall_mem_cons.mp hwritten
      rw [failures_cons limits hfirst] at hmem
      rw [List.flatMap_cons]
      rcases List.mem_append.mp hmem with hstep | hrest
      · have hfailure := isAbout_failure? hfirst machine (Option.mem_toList.mp hstep)
        exact hfailure.mono (List.subset_append_left _ _)
      · exact (ih hlater _ hrest).mono (List.subset_append_right _ _)

end Machine

/-- Whatever fails when a program that was read is run, the failure is about one
of the tokens it was read from. -/
theorem Program.isAbout_failures {reading evaluating : Limits} {tokens : List Token}
    {machine : Machine} {diagnostic : Diagnostic}
    (hmem : diagnostic ∈
      (machine.run evaluating (Program.ofTokens reading tokens).statements).failures) :
    diagnostic.IsAbout tokens := by
  have habout := Machine.isAbout_failures (Program.written_statements reading tokens) machine hmem
  apply habout.mono
  intro token htoken
  obtain ⟨stmt, hstmt, hown⟩ := List.mem_flatMap.mp htoken
  exact Program.tokens_subset hstmt hown

/-! ## Mistakes of reading -/

/-- Where a sequence has an end token, what is left of its body has one of the
tokens in front. -/
theorem Sentence.current_mem {tokens rest : List Token} (hstop : ∃ token ∈ tokens, token.kind = .eof)
    (hrest : rest <:+ (Sentence.ofTokens tokens).body) :
    (Sentence.ofTokens tokens).current rest ∈ tokens := by
  cases rest with
  | nil =>
      obtain ⟨token, hmem, hkind⟩ := hstop
      have hsome : (tokens.find? (·.kind == .eof)).isSome = true :=
        List.find?_isSome.mpr ⟨token, hmem, beq_iff_eq.mpr hkind⟩
      obtain ⟨found, hfound⟩ := Option.isSome_iff_exists.mp hsome
      have hcurrent : (Sentence.ofTokens tokens).current [] = found := by
        rw [current, List.headD_nil, ofTokens, hfound, Option.getD_some]
      rw [hcurrent]
      exact List.mem_of_find?_eq_some hfound
  | cons first rest =>
      have hbody : first ∈ (Sentence.ofTokens tokens).body := hrest.subset List.mem_cons_self
      exact (List.takeWhile_prefix _).subset hbody

/-- Every mistake of reading is about a token of the sequence, which may be its
end token. -/
theorem Program.isAbout_errors {limits : Limits} {tokens : List Token}
    (hstop : ∃ token ∈ tokens, token.kind = .eof) {diagnostic : Diagnostic}
    (hmem : diagnostic ∈ (Program.ofTokens limits tokens).errors) :
    diagnostic.IsAbout tokens := by
  obtain ⟨fault, rest, hrest, rfl⟩ := Program.exists_mistake hmem
  exact ⟨_, Sentence.current_mem hstop hrest, rfl, rfl⟩

/-! ## Lines of a source -/

namespace Scan

variable {source : String}

def OnLine (source : String) (line : Int) : Prop :=
  1 ≤ line ∧ line ≤ 1 + (source.toList.count '\n' : Int)

theorem exists_eof (source : String) :
    ∃ token ∈ (ofSource source).tokens, token.kind = .eof :=
  ⟨_, List.mem_append_right _ List.mem_cons_self, rfl⟩

/-- A piece begins and ends on lines of the source. -/
theorem line_bounds_of_mem_pieces {piece : Piece} (hmem : piece ∈ pieces 1 source.toList) :
    1 ≤ piece.line ∧ piece.lastLine ≤ 1 + (source.toList.count '\n' : Int) := by
  obtain ⟨before, after, hsplit⟩ := List.append_of_mem hmem
  have hsplits := splits_pieces 1 source.toList
  have htext := hsplits.flatMap_text
  rw [hsplit] at hsplits htext
  have hline := hsplits.cut.2
  have hcount : lineCount (before.flatMap Piece.text) + lineCount piece.text +
      lineCount (after.flatMap Piece.text) = source.toList.count '\n' := by
    rw [← htext, List.flatMap_append, List.flatMap_cons, ← List.append_assoc]
    simp only [lineCount, List.count_append]
  rw [Piece.lastLine]
  omega

/-- A lexical mistake stands on a line of the source. -/
theorem onLine_errors {diagnostic : Diagnostic} (hmem : diagnostic ∈ (ofSource source).errors) :
    OnLine source diagnostic.line := by
  obtain ⟨piece, hpiece, hfound⟩ := List.mem_filterMap.mp hmem
  obtain ⟨hfirst, hlast⟩ := line_bounds_of_mem_pieces hpiece
  obtain ⟨hlow, hhigh⟩ := line_bounds_of_diagnostic? hfound
  exact ⟨by omega, by omega⟩

/-- A token stands on a line of the source. -/
theorem onLine_tokens {token : Token} (hmem : token ∈ (ofSource source).tokens) :
    OnLine source token.line := by
  rcases List.mem_append.mp hmem with hfound | hend
  · obtain ⟨piece, hpiece, htoken⟩ := List.mem_filterMap.mp hfound
    obtain ⟨hfirst, hlast⟩ := line_bounds_of_mem_pieces hpiece
    have hline : token.line = piece.line := by
      rw [Piece.token?] at htoken
      split at htoken
      · exact (Option.some.inj htoken) ▸ rfl
      · cases htoken
    rw [Piece.lastLine] at hlast
    rw [hline]
    exact ⟨hfirst, by omega⟩
  · obtain rfl := List.mem_singleton.mp hend
    simp only [OnLine, Token.endAt, endLine, lineCount]
    omega

theorem token_errors {diagnostic : Diagnostic} (hmem : diagnostic ∈ (ofSource source).errors) :
    diagnostic.token = none := by
  obtain ⟨piece, -, hfound⟩ := List.mem_filterMap.mp hmem
  rw [Piece.diagnostic?] at hfound
  split at hfound
  · exact (Option.some.inj hfound) ▸ rfl
  · cases hfound

/-- A diagnostic about a token of a source stands on a line of the source. -/
theorem onLine_of_isAbout {diagnostic : Diagnostic}
    (habout : diagnostic.IsAbout (ofSource source).tokens) : OnLine source diagnostic.line := by
  obtain ⟨token, hmem, -, hline⟩ := habout
  rw [hline]
  exact onLine_tokens hmem

end Scan

/-- Whatever a session reports about a source stands on a line of the source. -/
theorem Session.onLine_run {session : Session} {source : String} {diagnostic : Diagnostic}
    (hmem : diagnostic ∈ (session.run source).2.1.diagnostics) :
    Scan.OnLine source diagnostic.line := by
  by_cases hnone : (Analysis.ofSource session.limits source).errors = []
  · rw [(diagnostics_run hnone).1] at hmem
    exact Scan.onLine_of_isAbout (Program.isAbout_failures hmem)
  · rw [diagnostics_events_run, reporter_of_mistakes hnone] at hmem
    rcases List.mem_append.mp hmem with hscan | hprogram
    · exact Scan.onLine_errors hscan
    · exact Scan.onLine_of_isAbout (Program.isAbout_errors (Scan.exists_eof source) hprogram)

/-- Every diagnostic of scanning, reading and running a source stands on a line
of the source.  Those of scanning name no token; all others name a token of the
source and stand on its line, so too deep a nesting is never reported without a
line. -/
theorem diagnostics_point_into_source (source : String) (reading evaluating : Limits)
    (machine : Machine) :
    let scan := Scan.ofSource source
    let program := Program.ofTokens reading scan.tokens
    let execution := machine.run evaluating program.statements
    (∀ diagnostic ∈ scan.errors ++ program.errors ++ execution.failures,
        1 ≤ diagnostic.line ∧ diagnostic.line ≤ 1 + (source.toList.count '\n' : Int)) ∧
      (∀ diagnostic ∈ scan.errors, diagnostic.stage = .scanning ∧ diagnostic.token = none) ∧
      (∀ diagnostic ∈ program.errors, diagnostic.stage = .parsing ∧
        ∃ token ∈ scan.tokens, diagnostic.token = some token ∧ diagnostic.line = token.line) ∧
      (∀ diagnostic ∈ execution.failures, diagnostic.stage = .running ∧
        ∃ token ∈ scan.tokens, diagnostic.token = some token ∧ diagnostic.line = token.line) ∧
      RuntimeFault.tooDeepDiagnostic none ∉ execution.failures ∧
      execution.aborted = none := by
  intro scan program execution
  have hwritten : ∀ stmt ∈ program.statements, stmt.Written :=
    Program.written_statements reading scan.tokens
  have herrors : ∀ diagnostic ∈ program.errors, diagnostic.IsAbout scan.tokens :=
    fun diagnostic hmem => Program.isAbout_errors (Scan.exists_eof source) hmem
  have hfailures : ∀ diagnostic ∈ execution.failures, diagnostic.IsAbout scan.tokens :=
    fun diagnostic hmem => Program.isAbout_failures hmem
  refine ⟨?_, fun diagnostic hmem => ⟨Scan.stage_errors hmem, Scan.token_errors hmem⟩,
    fun diagnostic hmem => ⟨Program.stage_errors hmem, herrors diagnostic hmem⟩,
    fun diagnostic hmem => ⟨Machine.stage_failures hwritten hmem, hfailures diagnostic hmem⟩,
    ?_, Machine.aborted_run hwritten machine⟩
  · intro diagnostic hmem
    rcases List.mem_append.mp hmem with hstatic | hrunning
    · rcases List.mem_append.mp hstatic with hscan | hprogram
      · exact Scan.onLine_errors hscan
      · exact Scan.onLine_of_isAbout (herrors diagnostic hprogram)
    · exact Scan.onLine_of_isAbout (hfailures diagnostic hrunning)
  · intro hmem
    obtain ⟨token, -, hnone, -⟩ := hfailures _ hmem
    cases hnone

end Lumen
