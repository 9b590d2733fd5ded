import Lumen.Proofs.Lookahead

/-!
# Mistakes are reported at the earliest token

Where reading fails for another reason than the depth limit, what was read before
can be completed: every open construct waits for an operand, a bracket, a name or
a semicolon, and none of these nests any deeper.  The token at fault cannot be
part of anything that is accepted, because reading has not looked behind it.  So
a mistake is reported at the first token at which there is no way to go on.
-/

namespace Lumen

namespace Grammar

variable {limits : Limits} {load : Load} {tokens rest : List Token} {fault : GrammarFault}

/-! ## Completing an expression -/

/-- The tokens in front of `rest` are the beginning of a phrase within the limits. -/
def Completable (limits : Limits) (load : Load) (phrase : Phrase) (tokens rest : List Token) :
    Prop :=
  ∃ (derivation : Derivation phrase) (front more : List Token), front ++ rest = tokens ∧
    derivation.yield = front ++ more ∧ derivation.tree.Fits limits load

/-- An expression that could be read needs no completion. -/
theorem completable_of_ends {expr : Expr}
    (hends : (expression limits load tokens).Ends expr rest) :
    limits.admits load = true ∧ Completable limits load .equality tokens rest := by
  obtain ⟨hadmits, derivation, rfl, hyield, hfits⟩ :=
    (reading_sound limits).1 load tokens expr rest hends
  exact ⟨hadmits, derivation, derivation.yield, [], hyield, (List.append_nil _).symm, hfits⟩

/-- An operand to complete an expression with. -/
def lastOperand : Derivation .unary :=
  .plain (.literal ⟨.nilWord, "nil", some .nil, 1⟩ (by decide))

def closingParen : Token := ⟨.rightParen, ")", none, 1⟩

theorem kind_closingParen : closingParen.kind = .rightParen := rfl

/-- Where an operand is missing, any one will do. -/
theorem completable_operand (limits : Limits) (load : Load) (tokens : List Token) :
    Completable limits load .unary tokens tokens :=
  ⟨lastOperand, [], lastOperand.yield, rfl, rfl, trivial⟩

namespace Completable

theorem only (tier : Tier)
    (hsingle : Completable limits load (.ofTier tier.tighter) tokens rest) :
    Completable limits load (.ofTier (some tier)) tokens rest := by
  obtain ⟨derivation, front, more, htokens, hyield, hfits⟩ := hsingle
  exact ⟨.only (layer_ofTier tier) derivation, front, more, htokens, hyield, hfits⟩

theorem join {tier : Tier} {left : Expr} {operator : Token} {after : List Token}
    (hleft : Covers limits load (.ofTier (some tier)) tokens left (operator :: after))
    (hoperator : operator.kind ∈ tier.operators)
    (hright : Completable limits load (.ofTier tier.tighter) after rest) :
    Completable limits load (.ofTier (some tier)) tokens rest := by
  obtain ⟨derivation, rfl, rfl, hfits⟩ := hleft
  obtain ⟨operand, front, more, rfl, hyield, hoperandFits⟩ := hright
  refine ⟨.join (layer_ofTier tier) derivation operator hoperator operand,
    derivation.yield ++ operator :: front, more, ?_, ?_, hfits, hoperandFits⟩
  · rw [List.append_assoc, List.cons_append]
  · rw [Derivation.yield, hyield, List.append_assoc, List.cons_append]

theorem sign {operator : Token} (hoperator : operator.kind.isPrefixOperator = true)
    (hadmits : limits.admits (load.deeper unaryFrames) = true)
    (hinner : Completable limits (load.deeper unaryFrames) .unary tokens rest) :
    Completable limits load .unary (operator :: tokens) rest := by
  obtain ⟨derivation, front, more, rfl, hyield, hfits⟩ := hinner
  refine ⟨.sign operator ((isPrefixOperator_iff _).mp hoperator) derivation, operator :: front,
    more, rfl, ?_, hadmits, hfits⟩
  rw [Derivation.yield, hyield, List.cons_append]

theorem group {opening : Token} (hopening : opening.kind = .leftParen)
    (hadmits : limits.admits (load.deeper groupFrames) = true)
    (hinner : Completable limits (load.deeper groupFrames) .equality tokens rest) :
    Completable limits load .unary (opening :: tokens) rest := by
  obtain ⟨derivation, front, more, rfl, hyield, hfits⟩ := hinner
  refine ⟨.plain (.group opening hopening derivation closingParen kind_closingParen),
    opening :: front, more ++ [closingParen], rfl, ?_, hadmits, hfits⟩
  rw [Derivation.yield, Derivation.yield, hyield, List.append_assoc, List.cons_append]

end Completable

/-- Unless the limits are the reason for a fault, what stands in front of it can be
completed. -/
theorem reading_completable (limits : Limits) :
    (∀ load tokens fault rest, (expression limits load tokens).Fails fault rest →
      fault ≠ .tooDeep →
      limits.admits load = true ∧ Completable limits load .equality tokens rest) ∧
    (∀ load tier tokens fault rest, (tiered limits load tier tokens).Fails fault rest →
      fault ≠ .tooDeep → Completable limits load (.ofTier tier) tokens rest) ∧
    (∀ load tier tokens left rest shorter fault final,
      (chain limits load tier tokens left rest shorter).Fails fault final → fault ≠ .tooDeep →
      Covers limits load (.ofTier (some tier)) tokens left rest →
      Completable limits load (.ofTier (some tier)) tokens final) ∧
    (∀ load tokens fault rest, (operand limits load tokens).Fails fault rest →
      fault ≠ .tooDeep → Completable limits load .unary tokens rest) := by
  have htiered := (reading_sound limits).2.1
  -- A chain is completed behind an operator, so what stands in front of it must be derived.
  apply expression.mutual_induct limits
  case case1 =>
    intro load tokens hadmits ih fault rest hfails hfault
    rw [expression, if_pos hadmits] at hfails
    exact ⟨hadmits, ih fault rest hfails hfault⟩
  case case2 =>
    intro load tokens hadmits fault rest hfails hfault
    rw [expression, if_neg hadmits] at hfails
    exact absurd (Reading.fails_failed.mp hfails).1.symm hfault
  case case3 =>
    intro load tokens ih fault rest hfails hfault
    rw [tiered] at hfails
    exact ih fault rest hfails hfault
  case case4 =>
    intro load tokens tier found later within hread ih fault rest hfails hfault
    rw [tiered, hread] at hfails
    obtain ⟨rfl, rfl⟩ := Reading.fails_failed.mp hfails
    exact (ih found later ⟨within, hread⟩ hfault).only tier
  case case5 =>
    intro load tokens tier left later shorter hread _ ihChain fault rest hfails hfault
    rw [tiered, hread] at hfails
    obtain ⟨derivation, htree, hyield, hfits⟩ :=
      htiered load tier.tighter tokens left later ⟨shorter, hread⟩
    exact ihChain fault rest hfails hfault
      ⟨.only (layer_ofTier tier) derivation, htree, hyield, hfits⟩
  case case6 =>
    intro load tier tokens left shorter _ fault final hfails
    rw [chain] at hfails
    exact absurd hfails Reading.not_fails_done
  case case7 =>
    intro load tier tokens left operator after shorter hoperator found later within hread _ ih fault
      final hfails hfault hcovers
    rw [chain, if_pos hoperator, hread] at hfails
    obtain ⟨rfl, rfl⟩ := Reading.fails_failed.mp hfails
    exact .join hcovers hoperator (ih found later ⟨within, hread⟩ hfault)
  case case8 =>
    intro load tier tokens left operator after shorter hoperator right later further hread _ _
      ihChain fault final hfails hfault hcovers
    rw [chain, if_pos hoperator, hread] at hfails
    obtain ⟨derivation, rfl, rfl, hfits⟩ := hcovers
    obtain ⟨operand, rfl, rfl, hoperandFits⟩ :=
      htiered load tier.tighter after right later ⟨further, hread⟩
    refine ihChain fault final hfails hfault
      ⟨.join (layer_ofTier tier) derivation operator hoperator operand, rfl, ?_, hfits,
        hoperandFits⟩
    rw [Derivation.yield, List.append_assoc, List.cons_append]
  case case9 =>
    intro load tier tokens left operator after shorter hoperator _ fault final hfails
    rw [chain, if_neg hoperator] at hfails
    exact absurd hfails Reading.not_fails_done
  case case10 =>
    intro load fault rest hfails _
    rw [operand] at hfails
    obtain ⟨-, rfl⟩ := Reading.fails_failed.mp hfails
    exact completable_operand limits load []
  case case11 =>
    intro load first more hsign hadmits found later within hread ih fault rest hfails hfault
    rw [operand, if_pos hsign, if_pos hadmits, hread] at hfails
    obtain ⟨rfl, rfl⟩ := Reading.fails_failed.mp hfails
    exact .sign hsign hadmits (ih found later ⟨within, hread⟩ hfault)
  case case12 =>
    intro load first more hsign hadmits inner later further hread _ fault rest hfails
    rw [operand, if_pos hsign, if_pos hadmits, hread] at hfails
    exact absurd hfails Reading.not_fails_done
  case case13 =>
    intro load first more hsign hadmits fault rest hfails hfault
    rw [operand, if_pos hsign, if_neg hadmits] at hfails
    exact absurd (Reading.fails_failed.mp hfails).1.symm hfault
  case case14 =>
    intro load first more hsign hliteral fault rest hfails
    rw [operand, if_neg hsign, if_pos hliteral] at hfails
    exact absurd hfails Reading.not_fails_done
  case case15 =>
    intro load first more hsign hliteral hname fault rest hfails
    rw [operand, if_neg hsign, if_neg hliteral, if_pos hname] at hfails
    exact absurd hfails Reading.not_fails_done
  case case16 =>
    intro load first more hsign hliteral hname hopening found later within hread ih fault rest
      hfails hfault
    rw [operand, if_neg hsign, if_neg hliteral, if_neg hname, if_pos hopening, hread] at hfails
    obtain ⟨rfl, rfl⟩ := Reading.fails_failed.mp hfails
    obtain ⟨hadmits, hinner⟩ := ih found later ⟨within, hread⟩ hfault
    exact .group hopening hadmits hinner
  case case17 =>
    intro load first more hsign hliteral hname hopening inner later further hread found final within
      hexpect _ fault rest hfails _
    rw [operand, if_neg hsign, if_neg hliteral, if_neg hname, if_pos hopening, hread] at hfails
    simp only [hexpect] at hfails
    obtain ⟨rfl, rfl⟩ := Reading.fails_failed.mp hfails
    obtain ⟨-, rfl, -⟩ := Reading.fails_expect_iff.mp ⟨within, hexpect⟩
    obtain ⟨hadmits, hinner⟩ := completable_of_ends ⟨further, hread⟩
    exact .group hopening hadmits hinner
  case case18 =>
    intro load first more hsign hliteral hname hopening inner later further hread closing final
      last hexpect _ fault rest hfails
    rw [operand, if_neg hsign, if_neg hliteral, if_neg hname, if_pos hopening, hread] at hfails
    simp only [hexpect] at hfails
    exact absurd hfails Reading.not_fails_done
  case case19 =>
    intro load first more hsign hliteral hname hopening fault rest hfails _
    rw [operand, if_neg hsign, if_neg hliteral, if_neg hname, if_neg hopening] at hfails
    obtain ⟨-, rfl⟩ := Reading.fails_failed.mp hfails
    exact completable_operand limits load (first :: more)

/-- What stands in front of a mistake in an expression can be completed. -/
theorem expressionMistake?_completable
    (hmistake : expressionMistake? limits tokens = some (fault, rest)) (hfault : fault ≠ .tooDeep) :
    limits.admits outermost = true ∧ Completable limits outermost .equality tokens rest := by
  rcases expressionMistake?_eq_some_iff.mp hmistake with hfails | ⟨-, -, expr, hends⟩
  · exact (reading_completable limits).1 outermost tokens fault rest hfails hfault
  · exact completable_of_ends hends

/-! ## Completing a program -/

def lastSemicolon : Token := ⟨.semicolon, ";", none, 1⟩

theorem kind_lastSemicolon : lastSemicolon.kind = .semicolon := rfl

def someName : Token := ⟨.identifier, "name", none, 1⟩

/-- What stands in front of the fault begins an expression, whether part of that or the
semicolon behind it is missing. -/
theorem closedExpression_completable {missing : GrammarFault}
    (hfails : (closedExpression limits missing tokens).Fails fault rest)
    (hfault : fault ≠ .tooDeep) :
    limits.admits outermost = true ∧ Completable limits outermost .equality tokens rest := by
  rw [closedExpression, Reading.fails_andThen_iff] at hfails
  rcases hfails with hfails | ⟨expr, between, hends, hclose⟩
  · exact (reading_completable limits).1 outermost tokens fault rest hfails hfault
  · obtain ⟨-, rfl, -⟩ := Reading.fails_expect_iff.mp (Reading.fails_map_iff.mp hclose)
    exact completable_of_ends hends

theorem initializer_completable (hfails : (initializer limits tokens).Fails fault rest)
    (hfault : fault ≠ .tooDeep) :
    tokens = rest ∨ ∃ equal after, tokens = equal :: after ∧ equal.kind = .equal ∧
      limits.admits outermost = true ∧ Completable limits outermost .equality after rest := by
  cases tokens with
  | nil =>
      rw [initializer] at hfails
      exact .inl (Reading.fails_failed.mp hfails).2
  | cons first after =>
      rw [initializer_fails_iff] at hfails
      split at hfails
      next hequal =>
        exact .inr ⟨first, after, rfl, hequal, closedExpression_completable hfails hfault⟩
      next => exact .inl (Reading.fails_expect_iff.mp hfails).2.1

theorem fits_declare_none (limits : Limits) (name : Token) :
    (Stmt.declare name none).Fits limits := by
  intro expr hexpr
  cases hexpr

/-- The tokens in front of `rest` are the beginning of statements within the limits. -/
def Continuable (limits : Limits) (tokens rest : List Token) : Prop :=
  ∃ (clauses : List Clause) (front more : List Token), front ++ rest = tokens ∧
    clauses.flatMap Clause.yield = front ++ more ∧ ∀ clause ∈ clauses, clause.tree.Fits limits

theorem Continuable.of_clause (clause : Clause) (front more : List Token)
    (hyield : clause.yield = front ++ more) (hfits : clause.tree.Fits limits) (rest : List Token) :
    Continuable limits (front ++ rest) rest := by
  refine ⟨[clause], front, more, rfl, ?_, ?_⟩
  · rw [List.flatMap_singleton, hyield]
  · simpa using hfits

theorem Continuable.cons {clause : Clause} (hfits : clause.tree.Fits limits)
    (hcontinuable : Continuable limits tokens rest) :
    Continuable limits (clause.yield ++ tokens) rest := by
  obtain ⟨clauses, front, more, rfl, hyield, hclauses⟩ := hcontinuable
  refine ⟨clause :: clauses, clause.yield ++ front, more, ?_, ?_, ?_⟩
  · rw [List.append_assoc]
  · rw [List.flatMap_cons, hyield, List.append_assoc]
  · exact List.forall_mem_cons.mpr ⟨hfits, hclauses⟩

/-- What stands in front of a mistake in a declaration can be continued. -/
theorem declaration_continuable {first : Token} {more : List Token}
    (hfails : (declaration limits (first :: more)).Fails fault rest) (hfault : fault ≠ .tooDeep) :
    Continuable limits (first :: more) rest := by
  by_cases hvar : first.kind = .varWord
  · rcases (declaration_var_fails_iff hvar).mp hfails with hname | ⟨name, after, hname, hinitial⟩
    · obtain ⟨-, rfl, -⟩ := Reading.fails_expect_iff.mp hname
      exact .of_clause (.declareNil first someName lastSemicolon hvar rfl rfl) [first]
        [someName, lastSemicolon] rfl (fits_declare_none limits someName) more
    · obtain ⟨rfl, hkind⟩ := Reading.ends_expect_iff.mp hname
      rcases initializer_completable hinitial hfault with
        rfl | ⟨equal, later, rfl, hequal, hadmits, derivation, front, missing, rfl, hyield, hfits⟩
      · exact .of_clause (.declareNil first name lastSemicolon hvar hkind rfl) [first, name]
          [lastSemicolon] rfl (fits_declare_none limits name) after
      · refine .of_clause (.declareValue first name equal derivation lastSemicolon hvar hkind hequal
          kind_lastSemicolon) (first :: name :: equal :: front) (missing ++ [lastSemicolon]) ?_
          (Stmt.fits_of_expr rfl hadmits hfits) rest
        rw [Clause.yield, hyield, List.append_assoc]
        rfl
  · by_cases hprint : first.kind = .printWord
    · obtain ⟨hadmits, derivation, front, missing, rfl, hyield, hfits⟩ :=
        closedExpression_completable ((declaration_print_fails_iff hprint).mp hfails) hfault
      refine .of_clause (.print first derivation lastSemicolon hprint kind_lastSemicolon)
        (first :: front) (missing ++ [lastSemicolon]) ?_ (Stmt.fits_of_expr rfl hadmits hfits) rest
      rw [Clause.yield, hyield, List.append_assoc, List.cons_append]
    · obtain ⟨hadmits, derivation, front, missing, htokens, hyield, hfits⟩ :=
        closedExpression_completable ((declaration_expression_fails_iff hvar hprint).mp hfails)
          hfault
      rw [← htokens]
      refine .of_clause (.evaluate derivation lastSemicolon kind_lastSemicolon) front
        (missing ++ [lastSemicolon]) ?_ (Stmt.fits_of_expr rfl hadmits hfits) rest
      rw [Clause.yield, hyield, List.append_assoc]

/-- What stands in front of the first mistake in a program can be continued. -/
theorem programMistake?_continuable
    (hmistake : programMistake? limits tokens = some (fault, rest)) (hfault : fault ≠ .tooDeep) :
    Continuable limits tokens rest := by
  induction tokens using entries.induct limits with
  | case1 =>
      rw [programMistake?_nil] at hmistake
      cases hmistake
  | case2 first more stmt later shorter hdone ih =>
      have hends : (declaration limits (first :: more)).Ends stmt later := ⟨shorter, hdone⟩
      rw [programMistake?_of_ends hends] at hmistake
      obtain ⟨clause, rfl, hyield, hfits⟩ := declaration_sound hends
      rw [← hyield]
      exact (ih hmistake).cons hfits
  | case3 first more found later within hfailed _ =>
      have hfails : (declaration limits (first :: more)).Fails found later := ⟨within, hfailed⟩
      rw [programMistake?_of_fails (List.cons_ne_nil _ _) hfails] at hmistake
      cases hmistake
      exact declaration_continuable hfails hfault

end Grammar

open Grammar

/-! ## What is reported -/

theorem Sentence.body_append_cons {front : List Token} {token : Token}
    (hfront : ∀ other ∈ front, other.kind ≠ .eof) (htoken : token.kind ≠ .eof)
    (after : List Token) :
    (Sentence.ofTokens (front ++ token :: after)).body =
      front ++ token :: (Sentence.ofTokens after).body := by
  simp only [Sentence.ofTokens]
  rw [List.takeWhile_append_of_pos (by simpa using hfront),
    List.takeWhile_cons_of_pos (by simpa using htoken)]

/-- One expression is refused with the diagnostic about its mistake. -/
theorem Expr.ofTokens_eq_error_iff {limits : Limits} {tokens : List Token}
    {diagnostic : Diagnostic} :
    Expr.ofTokens limits tokens = .error diagnostic ↔
      ∃ fault rest, expressionMistake? limits (Sentence.ofTokens tokens).body = some (fault, rest) ∧
        diagnostic = (Sentence.ofTokens tokens).diagnostic fault rest := by
  rw [Expr.ofTokens, expressionMistake?]
  cases expression limits outermost (Sentence.ofTokens tokens).body with
  | failed fault rest within => simp [eq_comm]
  | done expr rest shorter =>
      cases rest with
      | nil => simp
      | cons first more => simp [eq_comm]

/-- The first error of a program is about its first mistake. -/
theorem Program.head?_errors (limits : Limits) (tokens : List Token) :
    (Program.ofTokens limits tokens).errors.head? =
      (programMistake? limits (Sentence.ofTokens tokens).body).map fun mistake =>
        (Sentence.ofTokens tokens).diagnostic mistake.1 mistake.2 := by
  have hentry : Entry.diagnostic? (Sentence.ofTokens tokens) = Option.map (fun mistake =>
      (Sentence.ofTokens tokens).diagnostic mistake.1 mistake.2) ∘ Entry.mistake? := by
    funext entry
    cases entry <;> rfl
  rw [Program.ofTokens, List.head?_filterMap, hentry, programMistake?, List.map_findSome?]

/-- The token at an index, or the end if there is none, is where the tokens go wrong:
what stands in front of it is the beginning of something that is accepted, but
together with the token it is not. -/
structure WrongAt (accepts : List Token → Prop) (tokens : List Token) (stop : Token)
    (index : Nat) : Prop where
  within : index ≤ tokens.length
  completable : ∃ more, (∀ token ∈ more, token.kind ≠ .eof) ∧
    accepts (tokens.take index ++ more ++ [stop])
  hopeless : index < tokens.length → ∀ longer, tokens.take (index + 1) <+: longer → ¬ accepts longer

/-- A way to find mistakes that does not look behind them finds them where the tokens
go wrong, as far as the tokens in front can be completed. -/
theorem wrongAt_of_mistake {accepts : List Token → Prop}
    {mistake? : List Token → Option (GrammarFault × List Token)} {fault : GrammarFault}
    {front rest more : List Token} {stop : Token}
    (haccepts : ∀ tokens, accepts tokens → mistake? (Sentence.ofTokens tokens).body = none)
    (halike : ∀ hidden hidden' tokens tokens', Alike hidden hidden' tokens tokens' →
      mistake? tokens = some (fault, rest) → hidden.length < rest.length →
      ∃ rest', mistake? tokens' = some (fault, rest'))
    (htokens : ∀ token ∈ front ++ rest, token.kind ≠ .eof)
    (hmistake : mistake? (front ++ rest) = some (fault, rest))
    (hmore : ∀ token ∈ more, token.kind ≠ .eof) (haccepted : accepts (front ++ more ++ [stop])) :
    WrongAt accepts (front ++ rest) stop ((front ++ rest).length - rest.length) := by
  have hindex : (front ++ rest).length - rest.length = front.length := by
    rw [List.length_append, Nat.add_sub_cancel_right]
  rw [hindex]
  refine ⟨by simp, ⟨more, hmore, ?_⟩, ?_⟩
  · rwa [List.take_left]
  · rintro hinside _ ⟨after', rfl⟩ hlonger
    cases rest with
    | nil => simp at hinside
    | cons token after =>
        have hbody := haccepts _ hlonger
        have htake : (front ++ token :: after).take (front.length + 1) = front ++ [token] :=
          List.take_length_add_append 1
        rw [htake, List.append_assoc, List.singleton_append, Sentence.body_append_cons
          (fun other hother => htokens other (by simp [hother])) (htokens token (by simp))] at hbody
        obtain ⟨rest', hfound⟩ := halike after (Sentence.ofTokens after').body _ _
          (.of_append front token) hmistake (Nat.lt_succ_self _)
        rw [hbody] at hfound
        cases hfound

/-- An expression goes wrong at the token of its mistake. -/
theorem Expr.wrongAt_mistake {limits : Limits} {tokens rest : List Token} {stop : Token}
    {fault : GrammarFault} (htokens : ∀ token ∈ tokens, token.kind ≠ .eof)
    (hstop : stop.kind = .eof)
    (hmistake : expressionMistake? limits tokens = some (fault, rest))
    (hfault : fault ≠ .tooDeep) :
    WrongAt (fun input => ∃ expr, Expr.ofTokens limits input = .ok expr) tokens stop
      (tokens.length - rest.length) := by
  obtain ⟨hadmits, derivation, front, more, rfl, hyield, hfits⟩ :=
    expressionMistake?_completable hmistake hfault
  have hbody : ∀ token ∈ front ++ more, token.kind ≠ .eof := hyield ▸ derivation.kind_ne_eof
  refine wrongAt_of_mistake ?_ (fun _ _ _ _ => expressionMistake?_alike) htokens hmistake
    (fun token htoken => hbody token (List.mem_append_right front htoken)) ⟨derivation.tree, ?_⟩
  · rintro input ⟨expr, haccepted⟩
    rw [Option.eq_none_iff_forall_ne_some]
    rintro ⟨found, later⟩ hfound
    rw [Expr.ofTokens_eq_error_iff.mpr ⟨found, later, hfound, rfl⟩] at haccepted
    cases haccepted
  · rw [Expr.ofTokens_eq_ok_iff, Sentence.ofTokens_append hbody hstop]
    exact ⟨hadmits, derivation, rfl, by rw [List.append_nil, hyield], hfits⟩

/-- A program goes wrong at the token of its first mistake. -/
theorem Program.wrongAt_mistake {limits : Limits} {tokens rest : List Token} {stop : Token}
    {fault : GrammarFault} (htokens : ∀ token ∈ tokens, token.kind ≠ .eof)
    (hstop : stop.kind = .eof)
    (hmistake : programMistake? limits tokens = some (fault, rest))
    (hfault : fault ≠ .tooDeep) :
    WrongAt (fun input => ∃ stmts, Program.strict limits input = .ok stmts) tokens stop
      (tokens.length - rest.length) := by
  obtain ⟨clauses, front, more, rfl, hyield, hfits⟩ := programMistake?_continuable hmistake hfault
  have hbody : ∀ token ∈ front ++ more, token.kind ≠ .eof := by
    intro token htoken
    rw [← hyield] at htoken
    obtain ⟨clause, -, hclause⟩ := List.mem_flatMap.mp htoken
    exact clause.kind_ne_eof token hclause
  refine wrongAt_of_mistake ?_ (fun _ _ _ _ => programMistake?_alike) htokens hmistake
    (fun token htoken => hbody token (List.mem_append_right front htoken))
    ⟨clauses.map Clause.tree, ?_⟩
  · rintro input ⟨stmts, haccepted⟩
    obtain ⟨herrors, -⟩ := Program.strict_eq_ok_iff_errors.mp haccepted
    have hhead := Program.head?_errors limits input
    rw [herrors, List.head?_nil] at hhead
    exact Option.map_eq_none_iff.mp hhead.symm
  · rw [Program.strict_eq_ok_iff, Sentence.ofTokens_append hbody hstop]
    refine ⟨clauses, hyield, rfl, ?_⟩
    intro stmt hstmt
    obtain ⟨clause, hclause, rfl⟩ := List.mem_map.mp hstmt
    exact hfits clause hclause

theorem Sentence.diagnostic_eq {tokens rest : List Token} (hsuffix : rest <:+ tokens)
    (stop : Token) (fault : GrammarFault) :
    Sentence.diagnostic ⟨tokens, stop⟩ fault rest =
      .about .parsing (tokens[tokens.length - rest.length]?.getD stop) fault.message := by
  rw [Sentence.diagnostic, Sentence.current, List.headD_eq_head?_getD,
    ← List.head?_drop, ← List.suffix_iff_eq_drop.mp hsuffix]

/-- Reading an expression or a program reports its first mistake at the first token at
which there is no way to go on, unless the depth limit is the reason. -/
theorem errors_at_earliest_token (limits : Limits) (tokens : List Token) (stop : Token)
    (htokens : ∀ token ∈ tokens, token.kind ≠ .eof) (hstop : stop.kind = .eof) :
    (∀ diagnostic, Expr.ofTokens limits (tokens ++ [stop]) = .error diagnostic →
      ∃ fault rest, expressionMistake? limits tokens = some (fault, rest) ∧
        let index := tokens.length - rest.length
        diagnostic = .about .parsing (tokens[index]?.getD stop) fault.message ∧
          (diagnostic.message ≠ tooDeepMessage →
            WrongAt (fun input => ∃ expr, Expr.ofTokens limits input = .ok expr) tokens stop
              index)) ∧
    (∀ diagnostic, (Program.ofTokens limits (tokens ++ [stop])).errors.head? = some diagnostic →
      ∃ fault rest, programMistake? limits tokens = some (fault, rest) ∧
        let index := tokens.length - rest.length
        diagnostic = .about .parsing (tokens[index]?.getD stop) fault.message ∧
          (diagnostic.message ≠ tooDeepMessage →
            WrongAt (fun input => ∃ stmts, Program.strict limits input = .ok stmts) tokens stop
              index)) := by
  have hsentence := Sentence.ofTokens_append htokens hstop
  constructor
  · intro diagnostic herror
    obtain ⟨fault, rest, hmistake, rfl⟩ := Expr.ofTokens_eq_error_iff.mp herror
    rw [hsentence] at hmistake ⊢
    have hsuffix : rest <:+ tokens := expressionMistake?_suffix hmistake
    refine ⟨fault, rest, hmistake, Sentence.diagnostic_eq hsuffix stop fault, ?_⟩
    intro hmessage
    exact Expr.wrongAt_mistake htokens hstop hmistake (by rintro rfl; exact hmessage rfl)
  · intro diagnostic herror
    rw [Program.head?_errors, hsentence, Option.map_eq_some_iff] at herror
    obtain ⟨⟨fault, rest⟩, hmistake, rfl⟩ := herror
    have hsuffix : rest <:+ tokens := programMistake?_suffix hmistake
    refine ⟨fault, rest, hmistake, Sentence.diagnostic_eq hsuffix stop fault, ?_⟩
    intro hmessage
    exact Program.wrongAt_mistake htokens hstop hmistake (by rintro rfl; exact hmessage rfl)

/-- In `(nil + ) * nil` the operand is missed at the bracket, index 3, and in
`print nil; var = nil;` the name is missed at the equals sign, index 4. -/
theorem errors_at_earliest_token_missing :
    let limits := Limits.standard 64
    let stop := Token.endAt 1
    let phrase := (Scan.ofSource "(nil + ) * nil").tokens.dropLast
    let program := (Scan.ofSource "print nil; var = nil;").tokens.dropLast
    Expr.ofTokens limits (phrase ++ [stop]) = .error (.about .parsing ⟨.rightParen, ")", none, 1⟩
        GrammarFault.expectedExpression.message) ∧
      WrongAt (fun input => ∃ expr, Expr.ofTokens limits input = .ok expr) phrase stop 3 ∧
      (Program.ofTokens limits (program ++ [stop])).errors.head? = some (.about .parsing
        ⟨.equal, "=", none, 1⟩ GrammarFault.expectedName.message) ∧
      WrongAt (fun input => ∃ stmts, Program.strict limits input = .ok stmts) program stop 4 := by
  intro limits stop phrase program
  have hphrase : Expr.ofTokens limits (phrase ++ [stop]) = .error (.about .parsing
      ⟨.rightParen, ")", none, 1⟩ GrammarFault.expectedExpression.message) := by decide +kernel
  have hprogram : (Program.ofTokens limits (program ++ [stop])).errors.head? = some (.about .parsing
      ⟨.equal, "=", none, 1⟩ GrammarFault.expectedName.message) := by decide +kernel
  have hmissing : expressionMistake? limits phrase =
      some (.expectedExpression, phrase.drop 3) := by decide +kernel
  have hunnamed : programMistake? limits program = some (.expectedName, program.drop 4) := by
    decide +kernel
  obtain ⟨_, _, hmistake, -, hwrong⟩ :=
    (errors_at_earliest_token limits phrase stop (by decide +kernel) rfl).1 _ hphrase
  obtain ⟨_, _, hmistake', -, hwrong'⟩ :=
    (errors_at_earliest_token limits program stop (by decide +kernel) rfl).2 _ hprogram
  rw [hmissing] at hmistake
  rw [hunnamed] at hmistake'
  cases hmistake
  cases hmistake'
  have hindex : phrase.length - (phrase.drop 3).length = 3 := by decide +kernel
  have hindex' : program.length - (program.drop 4).length = 4 := by decide +kernel
  rw [hindex] at hwrong
  rw [hindex'] at hwrong'
  exact ⟨hphrase, hwrong (by decide), hprogram, hwrong' (by decide)⟩

end Lumen
