import Mathlib.Data.List.Basic
import Lumen.Scan
import Lumen.Proofs.Acceptance
import Lumen.Proofs.Recovery

/-!
# Mistakes stay in their statement

Nothing but the end of a declaration takes a semicolon.  So a reading that goes
wrong does so at or in front of the first semicolon, however many brackets and
prefix operators are open, and what follows that semicolon has no influence on
it.  If no word that begins a statement stands in between, skipping ends right
behind the semicolon.  A program made of declarations and of such mistakes is
therefore read fragment by fragment, each as if it stood alone.
-/

namespace Lumen

namespace Reading

variable {tokens : List Token} {α β : Type}

/-- The reading fails with a fault at the front of some tokens. -/
def Fails (reading : Reading tokens α) (fault : GrammarFault) (rest : List Token) : Prop :=
  ∃ within, reading = .failed fault rest within

@[simp] theorem fails_failed {fault fault' : GrammarFault} {rest rest' : List Token}
    {within : rest.length ≤ tokens.length} :
    (failed fault rest within : Reading tokens α).Fails fault' rest' ↔
      fault = fault' ∧ rest = rest' := by
  constructor
  · rintro ⟨_, hfailed⟩
    exact ⟨(failed.inj hfailed).1, (failed.inj hfailed).2⟩
  · rintro ⟨rfl, rfl⟩
    exact ⟨within, rfl⟩

@[simp] theorem not_fails_done {phrase : α} {fault : GrammarFault} {rest rest' : List Token}
    {shorter : rest.length < tokens.length} :
    ¬ (done phrase rest shorter).Fails fault rest' := by
  rintro ⟨_, hfailed⟩
  cases hfailed

theorem ends_or_fails (reading : Reading tokens α) :
    (∃ phrase rest, reading.Ends phrase rest) ∨ ∃ fault rest, reading.Fails fault rest := by
  cases reading with
  | done phrase rest shorter => exact .inl ⟨phrase, rest, shorter, rfl⟩
  | failed fault rest within => exact .inr ⟨fault, rest, within, rfl⟩

theorem fails_map_iff {reading : Reading tokens α} {change : α → β} {fault : GrammarFault}
    {rest : List Token} : (reading.map change).Fails fault rest ↔ reading.Fails fault rest := by
  cases reading <;> simp [map]

theorem fails_done_andThen_iff {middle : α} {between rest : List Token}
    {shorter : between.length < tokens.length} {fault : GrammarFault}
    {next : α → (rest : List Token) → Reading rest β} :
    ((done middle between shorter).andThen next).Fails fault rest ↔
      (next middle between).Fails fault rest := by
  cases hnext : next middle between <;> simp [andThen, hnext]

/-- Readings in succession fail with the first one that fails. -/
theorem fails_andThen_iff {reading : Reading tokens α}
    {next : α → (rest : List Token) → Reading rest β} {fault : GrammarFault}
    {rest : List Token} :
    (reading.andThen next).Fails fault rest ↔
      reading.Fails fault rest ∨
        ∃ middle between, reading.Ends middle between ∧ (next middle between).Fails fault rest := by
  cases reading with
  | failed found left within => simp [andThen]
  | done middle between shorter =>
      rw [fails_done_andThen_iff]
      constructor
      · intro hnext
        exact .inr ⟨middle, between, ends_done.mpr ⟨rfl, rfl⟩, hnext⟩
      · rintro (hfirst | ⟨_, _, hfirst, hnext⟩)
        · exact absurd hfirst not_fails_done
        · obtain ⟨rfl, rfl⟩ := ends_done.mp hfirst
          exact hnext

theorem fails_expect_iff {kind : Kind} {fault fault' : GrammarFault} {tokens rest : List Token} :
    (expect kind fault tokens).Fails fault' rest ↔
      fault = fault' ∧ tokens = rest ∧ ∀ token ∈ tokens.head?, token.kind ≠ kind := by
  cases tokens with
  | nil => simp [expect]
  | cons first more =>
      by_cases hkind : first.kind = kind
      · simp [expect, hkind]
      · simp [expect, hkind]

end Reading

namespace Grammar

variable {limits : Limits} {load : Load} {tokens rest : List Token}

/-! ## Expressions leave semicolons alone -/

def Closed (tokens : List Token) : Prop :=
  ∃ token ∈ tokens, token.kind = .semicolon

theorem not_closed_nil : ¬ Closed [] := by
  rintro ⟨token, hmem, -⟩
  cases hmem

theorem Closed.tail {first : Token} (hclosed : Closed (first :: rest))
    (hfirst : first.kind ≠ .semicolon) : Closed rest := by
  obtain ⟨token, hmem, hkind⟩ := hclosed
  rcases List.mem_cons.mp hmem with rfl | hmem
  · exact absurd hkind hfirst
  · exact ⟨token, hmem, hkind⟩

theorem Closed.exists_cons (hclosed : Closed tokens) : ∃ first rest, tokens = first :: rest := by
  cases tokens with
  | nil => exact absurd hclosed not_closed_nil
  | cons first rest => exact ⟨first, rest, rfl⟩

/-- Two readings end alike, and the second one leaves `more` behind what the
first one leaves.  A semicolon is left in any case. -/
def Agree {tokens tokens' : List Token} {α : Type} (more : List Token) (reading : Reading tokens α)
    (extended : Reading tokens' α) : Prop :=
  ∃ rest, Closed rest ∧
    ((∃ phrase, reading.Ends phrase rest ∧ extended.Ends phrase (rest ++ more)) ∨
      ∃ fault, reading.Fails fault rest ∧ extended.Fails fault (rest ++ more))

section Agree

variable {tokens' more : List Token} {α : Type} {reading : Reading tokens α}
  {extended : Reading tokens' α}

theorem Agree.of_ends {phrase : α} (hclosed : Closed rest) (hends : reading.Ends phrase rest)
    (hextended : extended.Ends phrase (rest ++ more)) : Agree more reading extended :=
  ⟨rest, hclosed, .inl ⟨phrase, hends, hextended⟩⟩

theorem Agree.of_fails {fault : GrammarFault} (hclosed : Closed rest)
    (hfails : reading.Fails fault rest) (hextended : extended.Fails fault (rest ++ more)) :
    Agree more reading extended :=
  ⟨rest, hclosed, .inr ⟨fault, hfails, hextended⟩⟩

/-- A reading that ends also ends where more tokens follow. -/
theorem Agree.ends {phrase : α} (hagree : Agree more reading extended)
    (hends : reading.Ends phrase rest) :
    Closed rest ∧ extended.Ends phrase (rest ++ more) := by
  obtain ⟨left, hclosed, ⟨found, hfound, hextended⟩ | ⟨fault, ⟨_, hfails⟩, -⟩⟩ := hagree
  · obtain ⟨rfl, rfl⟩ := hends.unique hfound
    exact ⟨hclosed, hextended⟩
  · rw [hfails] at hends
    exact absurd hends Reading.not_ends_failed

/-- A reading that fails also fails where more tokens follow, at the same token.
-/
theorem Agree.fails {fault : GrammarFault} (hagree : Agree more reading extended)
    (hfails : reading.Fails fault rest) :
    Closed rest ∧ extended.Fails fault (rest ++ more) := by
  obtain ⟨left, hclosed, ⟨found, ⟨_, hends⟩, -⟩ | ⟨fault', ⟨_, hfound⟩, hextended⟩⟩ := hagree
  · rw [hends] at hfails
    exact absurd hfails Reading.not_fails_done
  · rw [hfound] at hfails
    obtain ⟨rfl, rfl⟩ := Reading.fails_failed.mp hfails
    exact ⟨hclosed, hextended⟩

end Agree

theorem tiered_fails_of_tighter {tier : Tier} {fault : GrammarFault}
    (hread : (tiered limits load tier.tighter tokens).Fails fault rest) :
    (tiered limits load (some tier) tokens).Fails fault rest := by
  obtain ⟨within, hread⟩ := hread
  rw [tiered, hread]
  exact ⟨within, rfl⟩

theorem chain_fails_of_tighter {tier : Tier} {fault : GrammarFault} {operator : Token}
    {after later : List Token} (left : Expr) (shorter : (operator :: after).length < tokens.length)
    (hoperator : operator.kind ∈ tier.operators)
    (hread : (tiered limits load tier.tighter after).Fails fault later) :
    (chain limits load tier tokens left (operator :: after) shorter).Fails fault later := by
  obtain ⟨within, hread⟩ := hread
  rw [chain, if_pos hoperator, hread]
  exact Reading.fails_failed.mpr ⟨rfl, rfl⟩

theorem operand_fails_sign {operator : Token} {fault : GrammarFault}
    (hoperator : operator.kind.isPrefixOperator = true)
    (hadmits : limits.admits (load.deeper unaryFrames) = true)
    (hread : (operand limits (load.deeper unaryFrames) tokens).Fails fault rest) :
    (operand limits load (operator :: tokens)).Fails fault rest := by
  obtain ⟨within, hread⟩ := hread
  rw [operand, if_pos hoperator, if_pos hadmits, hread]
  exact Reading.fails_failed.mpr ⟨rfl, rfl⟩

theorem operand_fails_sign_tooDeep {operator : Token}
    (hoperator : operator.kind.isPrefixOperator = true)
    (hadmits : ¬ limits.admits (load.deeper unaryFrames) = true) :
    (operand limits load (operator :: tokens)).Fails .tooDeep tokens := by
  rw [operand, if_pos hoperator, if_neg hadmits]
  exact Reading.fails_failed.mpr ⟨rfl, rfl⟩

section Group

variable {opening : Token} (hopening : opening.kind = .leftParen)
include hopening

theorem operand_fails_group {fault : GrammarFault}
    (hread : (expression limits (load.deeper groupFrames) tokens).Fails fault rest) :
    (operand limits load (opening :: tokens)).Fails fault rest := by
  have hsign : ¬ opening.kind.isPrefixOperator = true := by
    simp [hopening, Kind.isPrefixOperator]
  have hliteral : ¬ opening.kind.isLiteral = true := by simp [hopening, Kind.isLiteral]
  have hname : ¬ opening.kind = .identifier := by simp [hopening]
  obtain ⟨within, hread⟩ := hread
  rw [operand, if_neg hsign, if_neg hliteral, if_neg hname, if_pos hopening, hread]
  exact Reading.fails_failed.mpr ⟨rfl, rfl⟩

theorem operand_fails_unclosed {inner : Expr}
    (hread : (expression limits (load.deeper groupFrames) tokens).Ends inner rest)
    (hclosing : ∀ token ∈ rest.head?, token.kind ≠ .rightParen) :
    (operand limits load (opening :: tokens)).Fails .expectedClosingParen rest := by
  have hsign : ¬ opening.kind.isPrefixOperator = true := by
    simp [hopening, Kind.isPrefixOperator]
  have hliteral : ¬ opening.kind.isLiteral = true := by simp [hopening, Kind.isLiteral]
  have hname : ¬ opening.kind = .identifier := by simp [hopening]
  have hexpect : (Reading.expect .rightParen .expectedClosingParen rest).Fails
      .expectedClosingParen rest := Reading.fails_expect_iff.mpr ⟨rfl, rfl, hclosing⟩
  obtain ⟨further, hread⟩ := hread
  obtain ⟨within, hexpect⟩ := hexpect
  rw [operand, if_neg hsign, if_neg hliteral, if_neg hname, if_pos hopening, hread]
  simp only [hexpect]
  exact Reading.fails_failed.mpr ⟨rfl, rfl⟩

end Group

theorem operand_fails_other {first : Token} (hsign : ¬ first.kind.isPrefixOperator = true)
    (hliteral : ¬ first.kind.isLiteral = true) (hname : ¬ first.kind = .identifier)
    (hopening : ¬ first.kind = .leftParen) :
    (operand limits load (first :: rest)).Fails .expectedExpression (first :: rest) := by
  rw [operand, if_neg hsign, if_neg hliteral, if_neg hname, if_neg hopening]
  exact Reading.fails_failed.mpr ⟨rfl, rfl⟩

theorem head?_append_of_closed {more : List Token} (hclosed : Closed tokens) :
    (tokens ++ more).head? = tokens.head? := by
  obtain ⟨first, rest, rfl⟩ := hclosed.exists_cons
  rfl

theorem ne_semicolon_of_mem_operators {kind : Kind} {tier : Tier} (hkind : kind ∈ tier.operators) :
    kind ≠ .semicolon := by
  rintro rfl
  cases tier <;> simp [Tier.operators] at hkind

theorem ne_semicolon_of_sign {kind : Kind} (hkind : kind.isPrefixOperator = true) :
    kind ≠ .semicolon := by
  rintro rfl
  cases hkind

/-- An expression that is read in front of a semicolon is read the same way,
whatever is added behind. -/
theorem reading_agrees (limits : Limits) :
    (∀ load tokens, Closed tokens → ∀ more,
      Agree more (expression limits load tokens) (expression limits load (tokens ++ more))) ∧
    (∀ load tier tokens, Closed tokens → ∀ more,
      Agree more (tiered limits load tier tokens) (tiered limits load tier (tokens ++ more))) ∧
    (∀ load tier tokens left rest shorter, Closed rest → ∀ more tokens' shorter',
      Agree more (chain limits load tier tokens left rest shorter)
        (chain limits load tier tokens' left (rest ++ more) shorter')) ∧
    (∀ load tokens, Closed tokens → ∀ more,
      Agree more (operand limits load tokens) (operand limits load (tokens ++ more))) := by
  apply expression.mutual_induct limits
  case case1 =>
    intro load tokens hadmits ih hclosed more
    rw [expression, if_pos hadmits, expression, if_pos hadmits]
    exact ih hclosed more
  case case2 =>
    intro load tokens hadmits hclosed more
    rw [expression, if_neg hadmits, expression, if_neg hadmits]
    exact .of_fails hclosed (Reading.fails_failed.mpr ⟨rfl, rfl⟩)
      (Reading.fails_failed.mpr ⟨rfl, rfl⟩)
  case case3 =>
    intro load tokens ih hclosed more
    rw [tiered, tiered]
    exact ih hclosed more
  case case4 =>
    intro load tokens tier fault later within hread ih hclosed more
    have htighter : (tiered limits load tier.tighter tokens).Fails fault later := ⟨within, hread⟩
    obtain ⟨hlater, hextended⟩ := (ih hclosed more).fails htighter
    exact .of_fails hlater (tiered_fails_of_tighter htighter) (tiered_fails_of_tighter hextended)
  case case5 =>
    intro load tokens tier left later shorter hread ihTighter ihChain hclosed more
    obtain ⟨hlater, hextended⟩ := (ihTighter hclosed more).ends ⟨shorter, hread⟩
    obtain ⟨shorter', hchain⟩ := tiered_of_tighter hextended
    rw [hchain, tiered, hread]
    exact ihChain hlater more _ _
  case case6 =>
    intro load tier tokens left shorter _ hclosed
    exact absurd hclosed not_closed_nil
  case case7 =>
    intro load tier tokens left operator after shorter hoperator fault later within hread _ ih
      hclosed more tokens' shorter'
    have hafter := hclosed.tail (ne_semicolon_of_mem_operators hoperator)
    have htighter : (tiered limits load tier.tighter after).Fails fault later := ⟨within, hread⟩
    obtain ⟨hlater, hextended⟩ := (ih hafter more).fails htighter
    exact .of_fails hlater (chain_fails_of_tighter left shorter hoperator htighter)
      (chain_fails_of_tighter left shorter' hoperator hextended)
  case case8 =>
    intro load tier tokens left operator after shorter hoperator right later further hread _
      ihTighter ihChain hclosed more tokens' shorter'
    have hafter := hclosed.tail (ne_semicolon_of_mem_operators hoperator)
    obtain ⟨hlater, hextended⟩ := (ihTighter hafter more).ends ⟨further, hread⟩
    obtain ⟨_, hchain⟩ := chain_of_tighter left shorter hoperator ⟨further, hread⟩
    obtain ⟨_, hchain'⟩ := chain_of_tighter left shorter' hoperator hextended
    rw [hchain]
    exact hchain' ▸ ihChain hlater more _ _
  case case9 =>
    intro load tier tokens left operator after shorter hoperator _ hclosed more tokens' shorter'
    have hends : ∀ later tokens (shorter : (operator :: later).length < tokens.length),
        (chain limits load tier tokens left (operator :: later) shorter).Ends left
          (operator :: later) := by
      intro later tokens shorter
      rw [chain, if_neg hoperator]
      exact Reading.ends_done.mpr ⟨rfl, rfl⟩
    exact .of_ends hclosed (hends after tokens shorter) (hends (after ++ more) tokens' shorter')
  case case10 =>
    intro load hclosed
    exact absurd hclosed not_closed_nil
  case case11 =>
    intro load first rest hsign hadmits fault later within hread ih hclosed more
    have hinner : (operand limits (load.deeper unaryFrames) rest).Fails fault later :=
      ⟨within, hread⟩
    obtain ⟨hlater, hextended⟩ := (ih (hclosed.tail (ne_semicolon_of_sign hsign)) more).fails hinner
    exact .of_fails hlater (operand_fails_sign hsign hadmits hinner)
      (operand_fails_sign hsign hadmits hextended)
  case case12 =>
    intro load first rest hsign hadmits inner later further hread ih hclosed more
    have hinner : (operand limits (load.deeper unaryFrames) rest).Ends inner later :=
      ⟨further, hread⟩
    have hoperator := (isPrefixOperator_iff _).mp hsign
    obtain ⟨hlater, hextended⟩ := (ih (hclosed.tail (ne_semicolon_of_sign hsign)) more).ends hinner
    exact .of_ends hlater (operand_ends_sign hoperator hadmits hinner)
      (operand_ends_sign hoperator hadmits hextended)
  case case13 =>
    intro load first rest hsign hadmits hclosed more
    exact .of_fails (hclosed.tail (ne_semicolon_of_sign hsign))
      (operand_fails_sign_tooDeep hsign hadmits) (operand_fails_sign_tooDeep hsign hadmits)
  case case14 =>
    intro load first rest _ hliteral hclosed more
    have hkind := (isLiteral_iff _).mp hliteral
    have hfirst : first.kind ≠ .semicolon := fun hsemicolon => by simp [hsemicolon] at hkind
    exact .of_ends (hclosed.tail hfirst) (operand_ends_literal hkind) (operand_ends_literal hkind)
  case case15 =>
    intro load first rest _ _ hname hclosed more
    exact .of_ends (hclosed.tail (by simp [hname])) (operand_ends_reference hname)
      (operand_ends_reference hname)
  case case16 =>
    intro load first rest _ _ _ hopening fault later within hread ih hclosed more
    have hinner : (expression limits (load.deeper groupFrames) rest).Fails fault later :=
      ⟨within, hread⟩
    obtain ⟨hlater, hextended⟩ := (ih (hclosed.tail (by simp [hopening])) more).fails hinner
    exact .of_fails hlater (operand_fails_group hopening hinner)
      (operand_fails_group hopening hextended)
  case case17 =>
    intro load first rest _ _ _ hopening inner later further hread fault final within hexpect ih
      hclosed more
    have hinner : (expression limits (load.deeper groupFrames) rest).Ends inner later :=
      ⟨further, hread⟩
    obtain ⟨hlater, hextended⟩ := (ih (hclosed.tail (by simp [hopening])) more).ends hinner
    obtain ⟨-, -, hclosing⟩ := Reading.fails_expect_iff.mp ⟨within, hexpect⟩
    refine .of_fails hlater (operand_fails_unclosed hopening hinner hclosing)
      (operand_fails_unclosed hopening hextended ?_)
    rwa [head?_append_of_closed hlater]
  case case18 =>
    intro load first rest _ _ _ hopening inner later further hread closing final last hexpect ih
      hclosed more
    have hinner : (expression limits (load.deeper groupFrames) rest).Ends inner later :=
      ⟨further, hread⟩
    obtain ⟨hlater, hextended⟩ := (ih (hclosed.tail (by simp [hopening])) more).ends hinner
    obtain ⟨rfl, hclosing⟩ := Reading.ends_expect_iff.mp ⟨last, hexpect⟩
    exact .of_ends (hlater.tail (by simp [hclosing])) (operand_ends_group hopening hclosing hinner)
      (operand_ends_group hopening hclosing hextended)
  case case19 =>
    intro load first rest hsign hliteral hname hopening hclosed more
    exact .of_fails hclosed (operand_fails_other hsign hliteral hname hopening)
      (operand_fails_other hsign hliteral hname hopening)

/-! ## Declarations that cannot be read -/

theorem expect_fails_append {kind : Kind} {fault fault' : GrammarFault} (more : List Token)
    (hclosed : Closed tokens) (hfails : (Reading.expect kind fault tokens).Fails fault' rest) :
    Closed rest ∧ (Reading.expect kind fault (tokens ++ more)).Fails fault' (rest ++ more) := by
  obtain ⟨rfl, rfl, hhead⟩ := Reading.fails_expect_iff.mp hfails
  refine ⟨hclosed, Reading.fails_expect_iff.mpr ⟨rfl, rfl, ?_⟩⟩
  rwa [head?_append_of_closed hclosed]

/-- Where a semicolon is among the tokens, what follows them changes nothing
about a fault. -/
theorem closedExpression_fails_append {fault fault' : GrammarFault} (more : List Token)
    (hclosed : Closed tokens) (hfails : (closedExpression limits fault tokens).Fails fault' rest) :
    Closed rest ∧
      (closedExpression limits fault (tokens ++ more)).Fails fault' (rest ++ more) := by
  have hagree := (reading_agrees limits).1 outermost tokens hclosed more
  rw [closedExpression, Reading.fails_andThen_iff] at hfails ⊢
  rcases hfails with hfails | ⟨value, between, hvalue, hclose⟩
  · obtain ⟨hrest, hextended⟩ := hagree.fails hfails
    exact ⟨hrest, .inl hextended⟩
  · obtain ⟨hbetween, hextended⟩ := hagree.ends hvalue
    obtain ⟨hrest, hexpect⟩ :=
      expect_fails_append more hbetween (Reading.fails_map_iff.mp hclose)
    exact ⟨hrest, .inr ⟨value, between ++ more, hextended, Reading.fails_map_iff.mpr hexpect⟩⟩

theorem initializer_fails_iff {first : Token} {more : List Token} {fault : GrammarFault} :
    (initializer limits (first :: more)).Fails fault rest ↔
      if first.kind = .equal then
        (closedExpression limits .expectedEndOfDeclaration more).Fails fault rest
      else
        (Reading.expect .semicolon .expectedEndOfDeclaration (first :: more)).Fails fault rest := by
  rw [initializer]
  split
  · cases closedExpression limits .expectedEndOfDeclaration more <;> simp
  · exact Reading.fails_map_iff

theorem initializer_fails_append {fault : GrammarFault} (more : List Token)
    (hclosed : Closed tokens) (hfails : (initializer limits tokens).Fails fault rest) :
    Closed rest ∧ (initializer limits (tokens ++ more)).Fails fault (rest ++ more) := by
  obtain ⟨first, after, rfl⟩ := hclosed.exists_cons
  rw [initializer_fails_iff] at hfails
  rw [List.cons_append, initializer_fails_iff]
  split at hfails
  · rename_i hequal
    rw [if_pos hequal]
    exact closedExpression_fails_append more (hclosed.tail (by simp [hequal])) hfails
  · rename_i hequal
    rw [if_neg hequal]
    exact expect_fails_append more hclosed hfails

section Declaration

variable {first : Token} {more : List Token} {fault : GrammarFault}

theorem declaration_var_fails_iff (hvar : first.kind = .varWord) :
    (declaration limits (first :: more)).Fails fault rest ↔
      (Reading.expect .identifier .expectedName more).Fails fault rest ∨
        ∃ name after, (Reading.expect .identifier .expectedName more).Ends name after ∧
          (initializer limits after).Fails fault rest := by
  rw [declaration, if_pos hvar, Reading.fails_done_andThen_iff, Reading.fails_andThen_iff]
  simp only [Reading.fails_map_iff]

theorem declaration_print_fails_iff (hprint : first.kind = .printWord) :
    (declaration limits (first :: more)).Fails fault rest ↔
      (closedExpression limits .expectedEndOfPrint more).Fails fault rest := by
  have hvar : first.kind ≠ .varWord := by simp [hprint]
  rw [declaration, if_neg hvar, if_pos hprint, Reading.fails_done_andThen_iff,
    Reading.fails_map_iff]

theorem declaration_expression_fails_iff (hvar : first.kind ≠ .varWord)
    (hprint : first.kind ≠ .printWord) :
    (declaration limits (first :: more)).Fails fault rest ↔
      (closedExpression limits .expectedEndOfStatement (first :: more)).Fails fault rest := by
  rw [declaration, if_neg hvar, if_neg hprint, Reading.fails_map_iff]

end Declaration

/-- A declaration that cannot be read leaves a semicolon, and the fault does
not depend on what follows. -/
theorem declaration_fails_append {fault : GrammarFault} (more : List Token)
    (hclosed : Closed tokens) (hfails : (declaration limits tokens).Fails fault rest) :
    Closed rest ∧ (declaration limits (tokens ++ more)).Fails fault (rest ++ more) := by
  obtain ⟨first, after, rfl⟩ := hclosed.exists_cons
  rw [List.cons_append]
  by_cases hvar : first.kind = .varWord
  · have hafter : Closed after := hclosed.tail (by simp [hvar])
    rw [declaration_var_fails_iff hvar] at hfails ⊢
    rcases hfails with hname | ⟨name, later, hname, hinitial⟩
    · obtain ⟨hrest, hextended⟩ := expect_fails_append more hafter hname
      exact ⟨hrest, .inl hextended⟩
    · obtain ⟨rfl, hkind⟩ := Reading.ends_expect_iff.mp hname
      obtain ⟨hrest, hextended⟩ :=
        initializer_fails_append more (hafter.tail (by simp [hkind])) hinitial
      exact ⟨hrest, .inr ⟨name, later ++ more, Reading.ends_expect_iff.mpr ⟨rfl, hkind⟩,
        hextended⟩⟩
  · by_cases hprint : first.kind = .printWord
    · rw [declaration_print_fails_iff hprint] at hfails ⊢
      exact closedExpression_fails_append more (hclosed.tail (by simp [hprint])) hfails
    · rw [declaration_expression_fails_iff hvar hprint] at hfails ⊢
      exact closedExpression_fails_append more hclosed hfails

/-! ## Skipping behind the semicolon -/

theorem skipFrom_semicolon {semicolon : Token} (hsemicolon : semicolon.kind = .semicolon)
    (more : List Token) : skipFrom semicolon more = more := by
  cases more with
  | nil => rfl
  | cons first rest => rw [skipFrom, if_pos hsemicolon]

theorem skipFrom_append_semicolon {previous semicolon : Token} {body : List Token}
    (hprevious : previous.kind ≠ .semicolon) (hsemicolon : semicolon.kind = .semicolon)
    (hbody : ∀ token ∈ body, token.kind ≠ .semicolon ∧ token.kind.startsStatement = false)
    (more : List Token) : skipFrom previous (body ++ semicolon :: more) = more := by
  induction body generalizing previous with
  | nil =>
      have hstarts : ¬ semicolon.kind.startsStatement = true := by rw [hsemicolon]; decide
      rw [List.nil_append, skipFrom, if_neg hprevious, if_neg hstarts,
        skipFrom_semicolon hsemicolon]
  | cons current body ih =>
      obtain ⟨hcurrent, hstarts⟩ := hbody current List.mem_cons_self
      rw [List.cons_append, skipFrom, if_neg hprevious, if_neg (by rw [hstarts]; decide)]
      exact ih hcurrent fun token htoken => hbody token (List.mem_cons_of_mem _ htoken)

/-- A fragment that ends at its only semicolon and holds no end token and no
word that begins a statement.  Its first token may be such a word. -/
structure Unbroken (fragment : List Token) : Prop where
  last : ∃ token ∈ fragment.getLast?, token.kind = .semicolon
  only : ∀ token ∈ fragment.dropLast, token.kind ≠ .semicolon
  unended : ∀ token ∈ fragment, token.kind ≠ .eof
  words : ∀ token ∈ fragment.tail, token.kind.startsStatement = false

instance (fragment : List Token) : Decidable (Unbroken fragment) :=
  decidable_of_iff
    ((∃ token ∈ fragment.getLast?, token.kind = .semicolon) ∧
      (∀ token ∈ fragment.dropLast, token.kind ≠ .semicolon) ∧
      (∀ token ∈ fragment, token.kind ≠ .eof) ∧
      ∀ token ∈ fragment.tail, token.kind.startsStatement = false)
    ⟨fun ⟨hlast, honly, hunended, hwords⟩ => ⟨hlast, honly, hunended, hwords⟩,
      fun ⟨hlast, honly, hunended, hwords⟩ => ⟨hlast, honly, hunended, hwords⟩⟩

/-- An unbroken fragment ends with its only semicolon. -/
theorem Unbroken.exists_body {fragment : List Token} (hfragment : Unbroken fragment) :
    ∃ body semicolon, fragment = body ++ [semicolon] ∧ semicolon.kind = .semicolon ∧
      ∀ token ∈ body, token.kind ≠ .semicolon := by
  obtain ⟨semicolon, hlast, hsemicolon⟩ := hfragment.last
  exact ⟨fragment.dropLast, semicolon, (List.dropLast_append_getLast? semicolon hlast).symm,
    hsemicolon, hfragment.only⟩

theorem Unbroken.closed {fragment : List Token} (hfragment : Unbroken fragment) :
    Closed fragment := by
  obtain ⟨semicolon, hlast, hsemicolon⟩ := hfragment.last
  exact ⟨semicolon, List.mem_of_getLast? hlast, hsemicolon⟩

/-- From anywhere in an unbroken fragment, skipping ends behind it. -/
theorem Unbroken.resume_append {fragment later : List Token} (hfragment : Unbroken fragment)
    (hsuffix : later <:+ fragment) (hlater : later ≠ []) (more : List Token) :
    resume (later ++ more) = more := by
  obtain ⟨body, semicolon, rfl, hsemicolon, hbody⟩ := hfragment.exists_body
  obtain rfl | ⟨front, rfl, before, rfl⟩ := List.suffix_concat_iff.mp hsuffix
  · exact absurd rfl hlater
  cases front with
  | nil => exact skipFrom_semicolon hsemicolon more
  | cons first between =>
      have hbetween : ∀ token ∈ between,
          token.kind ≠ .semicolon ∧ token.kind.startsStatement = false := by
        intro token htoken
        refine ⟨hbody token (by simp [htoken]), hfragment.words token ?_⟩
        cases before <;> simp [htoken]
      rw [List.append_assoc, List.cons_append]
      exact skipFrom_append_semicolon (hbody first (by simp)) hsemicolon hbetween more

/-! ## Fragments -/

/-- The fragment is one declaration whose expression nests within the limit. -/
def Declares (depth : Int) (fragment : List Token) : Prop :=
  ∃ clause : Clause, clause.yield = fragment ∧
    ∀ expr ∈ clause.tree.expr?, (expr.nesting : Int) ≤ depth - 1

/-- A fragment that declares is read as its statement, whatever follows. -/
theorem Declares.exists_clause {depth : Int} {fragment : List Token}
    (hdeclares : Declares depth fragment) :
    ∃ clause : Clause, clause.yield = fragment ∧ ∀ more,
      entries (.withoutStack depth) (fragment ++ more) =
        .statement clause.tree more :: entries (.withoutStack depth) more := by
  obtain ⟨clause, rfl, hnesting⟩ := hdeclares
  have hfits := (Stmt.fits_withoutStack_iff depth clause.tree).mpr hnesting
  exact ⟨clause, rfl, entries_clause_append clause hfits⟩

def takesAll {tokens : List Token} {α : Type} : Reading tokens α → Bool
  | .done _ [] _ => true
  | .done _ (_ :: _) _ => false
  | .failed _ _ _ => false

theorem takesAll_iff {tokens : List Token} {α : Type} {reading : Reading tokens α} :
    takesAll reading = true ↔ ∃ phrase, reading.Ends phrase [] := by
  rcases reading with ⟨phrase, _ | ⟨first, rest⟩, shorter⟩ | ⟨fault, rest, within⟩ <;>
    simp [takesAll]

/-- Whether a fragment declares can be computed by reading it. -/
theorem declares_iff {depth : Int} {fragment : List Token} :
    Declares depth fragment ↔ takesAll (declaration (.withoutStack depth) fragment) = true := by
  rw [takesAll_iff]
  constructor
  · rintro ⟨clause, rfl, hnesting⟩
    have hfits := (Stmt.fits_withoutStack_iff depth clause.tree).mpr hnesting
    have hends := declaration_complete clause hfits []
    rw [List.append_nil] at hends
    exact ⟨clause.tree, hends⟩
  · rintro ⟨stmt, hends⟩
    obtain ⟨clause, rfl, hyield, hfits⟩ := declaration_sound hends
    rw [List.append_nil] at hyield
    exact ⟨clause, hyield, (Stmt.fits_withoutStack_iff depth clause.tree).mp hfits⟩

instance (depth : Int) (fragment : List Token) : Decidable (Declares depth fragment) :=
  decidable_of_iff _ declares_iff.symm

theorem Clause.exists_semicolon (clause : Clause) :
    ∃ body semicolon, clause.yield = body ++ [semicolon] ∧ semicolon.kind = .semicolon := by
  cases clause with
  | declareNil word name semicolon _ _ hsemicolon =>
      exact ⟨[word, name], semicolon, rfl, hsemicolon⟩
  | declareValue word name equal value semicolon _ _ _ hsemicolon =>
      exact ⟨word :: name :: equal :: value.yield, semicolon, rfl, hsemicolon⟩
  | print word value semicolon _ hsemicolon =>
      exact ⟨word :: value.yield, semicolon, rfl, hsemicolon⟩
  | evaluate value semicolon hsemicolon => exact ⟨value.yield, semicolon, rfl, hsemicolon⟩

/-- What is read off the front of an unbroken fragment is the whole fragment. -/
theorem Unbroken.ends_eq_nil {limits : Limits} {fragment rest : List Token} {stmt : Stmt}
    (hfragment : Unbroken fragment) (hends : (declaration limits fragment).Ends stmt rest) :
    rest = [] := by
  obtain ⟨body, semicolon, rfl, -, hbody⟩ := hfragment.exists_body
  obtain ⟨clause, -, hyield, -⟩ := declaration_sound hends
  obtain ⟨front, closing, hclause, hclosing⟩ := clause.exists_semicolon
  obtain rfl | ⟨before, last, rfl⟩ := List.eq_nil_or_concat rest
  · rfl
  · -- The semicolon that was read would stand among the tokens in front of the last one.
    rw [hclause, List.concat_eq_append, ← List.append_assoc] at hyield
    obtain ⟨rfl, -⟩ := List.append_inj' hyield rfl
    exact absurd hclosing (hbody closing (by simp))

theorem Derivation.kind_ne_eof {phrase : Phrase} (derivation : Derivation phrase) :
    ∀ token ∈ derivation.yield, token.kind ≠ .eof := by
  induction derivation with
  | only layer single ih => exact ih
  | join layer left operator hoperator right ihLeft ihRight =>
      intro token htoken
      rw [yield, List.mem_append, List.mem_cons] at htoken
      rcases htoken with hleft | rfl | hright
      · exact ihLeft token hleft
      · cases layer <;> rintro heof <;> simp [heof] at hoperator
      · exact ihRight token hright
  | sign operator hoperator operand ih =>
      intro token htoken
      rcases List.mem_cons.mp htoken with rfl | hoperand
      · rintro heof
        simp [heof] at hoperator
      · exact ih token hoperand
  | plain primary ih => exact ih
  | literal token htoken =>
      intro other hother
      obtain rfl := List.mem_singleton.mp hother
      rintro heof
      simp [heof] at htoken
  | reference name hname =>
      intro other hother
      obtain rfl := List.mem_singleton.mp hother
      simp [hname]
  | group opening hopening inner closing hclosing ih =>
      intro token htoken
      rw [yield, List.mem_cons, List.mem_append, List.mem_singleton] at htoken
      rcases htoken with rfl | hinner | rfl
      · simp [hopening]
      · exact ih token hinner
      · simp [hclosing]

theorem Clause.kind_ne_eof (clause : Clause) : ∀ token ∈ clause.yield, token.kind ≠ .eof := by
  cases clause with
  | declareNil word name semicolon hword hname hsemicolon =>
      simp [yield, hword, hname, hsemicolon]
  | declareValue word name equal value semicolon hword hname hequal hsemicolon =>
      simp only [yield, List.forall_mem_cons, List.forall_mem_append]
      exact ⟨by simp [hword], by simp [hname], by simp [hequal], value.kind_ne_eof,
        by simp [hsemicolon], by simp⟩
  | print word value semicolon hword hsemicolon =>
      simp only [yield, List.forall_mem_cons, List.forall_mem_append]
      exact ⟨by simp [hword], value.kind_ne_eof, by simp [hsemicolon], by simp⟩
  | evaluate value semicolon hsemicolon =>
      simp only [yield, List.forall_mem_cons, List.forall_mem_append]
      exact ⟨value.kind_ne_eof, by simp [hsemicolon], by simp⟩

/-- An unbroken fragment that is not a declaration within the limit. -/
structure Mistaken (depth : Int) (fragment : List Token) : Prop extends Unbroken fragment where
  wrong : ¬ Declares depth fragment

instance (depth : Int) (fragment : List Token) : Decidable (Mistaken depth fragment) :=
  decidable_of_iff (Unbroken fragment ∧ ¬ Declares depth fragment)
    ⟨fun ⟨hunbroken, hwrong⟩ => ⟨hunbroken, hwrong⟩, fun ⟨hunbroken, hwrong⟩ => ⟨hunbroken, hwrong⟩⟩

/-- A declaration that cannot be read is an entry with the fault, and reading
resumes behind it. -/
theorem entries_of_fails {limits : Limits} {tokens rest : List Token} {fault : GrammarFault}
    (htokens : tokens ≠ []) (hfails : (declaration limits tokens).Fails fault rest) :
    entries limits tokens = .mistake fault rest :: entries limits (resume rest) := by
  obtain ⟨within, hfailed⟩ := hfails
  cases tokens with
  | nil => exact absurd rfl htokens
  | cons first more => rw [entries, hfailed]

/-- A mistaken fragment is one fault at one of its own tokens, whatever
follows. -/
theorem Mistaken.exists_fault {depth : Int} {fragment : List Token}
    (hmistaken : Mistaken depth fragment) :
    ∃ fault token later, token ∈ fragment ∧ ∀ more,
      entries (.withoutStack depth) (fragment ++ more) =
        .mistake fault (token :: later ++ more) :: entries (.withoutStack depth) more := by
  have hclosed := hmistaken.closed
  obtain ⟨stmt, rest, hends⟩ | ⟨fault, rest, hfails⟩ :=
    (declaration (.withoutStack depth) fragment).ends_or_fails
  · obtain rfl := hmistaken.ends_eq_nil hends
    exact absurd (declares_iff.mpr (takesAll_iff.mpr ⟨stmt, hends⟩)) hmistaken.wrong
  · obtain ⟨token, later, rfl⟩ := (declaration_fails_append [] hclosed hfails).1.exists_cons
    have hsuffix : token :: later <:+ fragment := by
      have hrest := rest_declaration_suffix (.withoutStack depth) fragment
      obtain ⟨within, hfailed⟩ := hfails
      rwa [hfailed] at hrest
    refine ⟨fault, token, later, hsuffix.subset List.mem_cons_self, ?_⟩
    intro more
    obtain ⟨first, after, hcons⟩ := hclosed.exists_cons
    have hextended := (declaration_fails_append more hclosed hfails).2
    rw [entries_of_fails (by simp [hcons]) hextended,
      hmistaken.resume_append hsuffix (List.cons_ne_nil _ _)]

/-- A fragment is read as it is alone, and the tokens behind it are read as if
they came first. -/
theorem entries_fragment_append {depth : Int} {fragment : List Token}
    (hfragment : Declares depth fragment ∨ Mistaken depth fragment) (more : List Token) :
    (entries (.withoutStack depth) (fragment ++ more)).filterMap Entry.statement? =
        (entries (.withoutStack depth) fragment).filterMap Entry.statement? ++
          (entries (.withoutStack depth) more).filterMap Entry.statement? ∧
      ∀ sentence sentence' : Sentence,
        (entries (.withoutStack depth) (fragment ++ more)).filterMap (Entry.diagnostic? sentence) =
          (entries (.withoutStack depth) fragment).filterMap (Entry.diagnostic? sentence') ++
            (entries (.withoutStack depth) more).filterMap (Entry.diagnostic? sentence) := by
  have hend : entries (.withoutStack depth) [] = [] := by rw [entries]
  rcases hfragment with hdeclares | hmistaken
  · obtain ⟨clause, -, hentries⟩ := hdeclares.exists_clause
    have halone := hentries []
    rw [List.append_nil, hend] at halone
    rw [hentries more, halone]
    exact ⟨rfl, fun _ _ => rfl⟩
  · obtain ⟨fault, token, later, -, hentries⟩ := hmistaken.exists_fault
    have halone := hentries []
    rw [List.append_nil, hend] at halone
    rw [hentries more, halone]
    exact ⟨rfl, fun _ _ => rfl⟩

/-- Fragments are read one by one. -/
theorem entries_fragments {depth : Int} {fragments : List (List Token)}
    (hfragments : ∀ fragment ∈ fragments, Declares depth fragment ∨ Mistaken depth fragment) :
    (entries (.withoutStack depth) fragments.flatten).filterMap Entry.statement? =
        fragments.flatMap (fun fragment =>
          (entries (.withoutStack depth) fragment).filterMap Entry.statement?) ∧
      ∀ (sentence : Sentence) (sentenceOf : List Token → Sentence),
        (entries (.withoutStack depth) fragments.flatten).filterMap (Entry.diagnostic? sentence) =
          fragments.flatMap fun fragment =>
            (entries (.withoutStack depth) fragment).filterMap
              (Entry.diagnostic? (sentenceOf fragment)) := by
  induction fragments with
  | nil =>
      rw [List.flatten_nil, entries]
      exact ⟨rfl, fun _ _ => rfl⟩
  | cons fragment fragments ih =>
      obtain ⟨hstatements, hdiagnostics⟩ := ih fun other hother =>
        hfragments other (List.mem_cons_of_mem _ hother)
      obtain ⟨hfirst, hfirstDiagnostics⟩ :=
        entries_fragment_append (hfragments fragment List.mem_cons_self) fragments.flatten
      rw [List.flatten_cons]
      constructor
      · rw [hfirst, hstatements, List.flatMap_cons]
      · intro sentence sentenceOf
        rw [hfirstDiagnostics sentence (sentenceOf fragment), hdiagnostics sentence sentenceOf,
          List.flatMap_cons]

end Grammar

def EndsInput (tokens : List Token) : Prop :=
  ∀ token ∈ tokens.head?, token.kind = .eof

theorem Sentence.body_append {body ending : List Token} (hbody : ∀ token ∈ body, token.kind ≠ .eof)
    (hending : EndsInput ending) : (Sentence.ofTokens (body ++ ending)).body = body := by
  have htake : ending.takeWhile (·.kind != .eof) = [] := by
    cases ending with
    | nil => rfl
    | cons first rest => simp [hending first rfl]
  simp only [Sentence.ofTokens]
  rw [List.takeWhile_append_of_pos (by simpa using hbody), htake, List.append_nil]

open Grammar

theorem Grammar.kind_ne_eof_of_fragment {depth : Int} {fragment : List Token}
    (hfragment : Declares depth fragment ∨ Mistaken depth fragment) :
    ∀ token ∈ fragment, token.kind ≠ .eof := by
  rcases hfragment with ⟨clause, rfl, -⟩ | hmistaken
  · exact clause.kind_ne_eof
  · exact hmistaken.unended

/-- A program made of declarations and of mistaken fragments is read fragment
by fragment.  Each declaration gives its statement and each mistaken fragment
one error about one of its own tokens, just as the fragment does alone. -/
theorem Program.fragments_read_alone (depth : Int) (fragments : List (List Token))
    (ending ending' : List Token) (hending : EndsInput ending) (hending' : EndsInput ending')
    (hfragments : ∀ fragment ∈ fragments, Declares depth fragment ∨ Mistaken depth fragment) :
    let whole := Program.ofTokens (.withoutStack depth) (fragments.flatten ++ ending)
    let alone fragment := Program.ofTokens (.withoutStack depth) (fragment ++ ending')
    whole.statements = fragments.flatMap (fun fragment => (alone fragment).statements) ∧
      whole.errors = fragments.flatMap (fun fragment => (alone fragment).errors) ∧
      ∀ fragment ∈ fragments,
        (Declares depth fragment → ∃ clause : Clause, clause.yield = fragment ∧
          (alone fragment).statements = [clause.tree] ∧ (alone fragment).errors = []) ∧
        (Mistaken depth fragment → (alone fragment).statements = [] ∧
          ∃ token ∈ fragment, ∃ fault : GrammarFault,
            (alone fragment).errors = [.about .parsing token fault.message]) := by
  intro whole alone
  have hend : entries (.withoutStack depth) [] = [] := by rw [entries]
  have hbody : ∀ fragment ∈ fragments,
      (Sentence.ofTokens (fragment ++ ending')).body = fragment := fun fragment hmem =>
    Sentence.body_append (kind_ne_eof_of_fragment (hfragments fragment hmem)) hending'
  have hwhole : (Sentence.ofTokens (fragments.flatten ++ ending)).body = fragments.flatten := by
    refine Sentence.body_append ?_ hending
    intro token htoken
    obtain ⟨fragment, hmem, htoken⟩ := List.mem_flatten.mp htoken
    exact kind_ne_eof_of_fragment (hfragments fragment hmem) token htoken
  have halone : ∀ fragment ∈ fragments,
      (alone fragment).statements =
          (entries (.withoutStack depth) fragment).filterMap Entry.statement? ∧
        (alone fragment).errors = (entries (.withoutStack depth) fragment).filterMap
          (Entry.diagnostic? (Sentence.ofTokens (fragment ++ ending'))) := by
    intro fragment hmem
    simp only [alone, Program.ofTokens, hbody fragment hmem, and_self]
  obtain ⟨hstatements, hdiagnostics⟩ := entries_fragments hfragments
  refine ⟨?_, ?_, ?_⟩
  · simp only [whole, Program.ofTokens, hwhole, hstatements]
    exact List.flatMap_congr fun fragment hmem => (halone fragment hmem).1.symm
  · simp only [whole, Program.ofTokens, hwhole]
    rw [hdiagnostics _ fun fragment => Sentence.ofTokens (fragment ++ ending')]
    exact List.flatMap_congr fun fragment hmem => (halone fragment hmem).2.symm
  · intro fragment hmem
    obtain ⟨hstmts, herrors⟩ := halone fragment hmem
    rw [hstmts, herrors]
    constructor
    · intro hdeclares
      obtain ⟨clause, hyield, hentries⟩ := hdeclares.exists_clause
      have hfound := hentries []
      rw [List.append_nil, hend] at hfound
      exact ⟨clause, hyield, by rw [hfound]; rfl, by rw [hfound]; rfl⟩
    · intro hmistaken
      obtain ⟨fault, token, later, htoken, hentries⟩ := hmistaken.exists_fault
      have hfound := hentries []
      rw [List.append_nil, hend] at hfound
      exact ⟨by rw [hfound]; rfl, token, htoken, fault, by rw [hfound]; rfl⟩

/-- With a depth limit of two, three of these five fragments are mistaken: an
operand is missing in the second, the third begins with a word that no
declaration begins with, and the fourth nests too deeply. -/
theorem Program.fragments_read_alone_five :
    let fragments := ["print nil;", "1 + (;", "class a;", "((nil));", "var a;"].map
      fun source => (Scan.ofSource source).tokens.dropLast
    let program := Program.ofTokens (.withoutStack 2) (fragments.flatten ++ [.endAt 1])
    fragments.map (fun fragment => decide (Declares 2 fragment)) =
        [true, false, false, false, true] ∧
      (∀ fragment ∈ fragments, Declares 2 fragment ∨ Mistaken 2 fragment) ∧
      program.statements =
        [.print (.literal (some .nil)), .declare ⟨.identifier, "a", none, 1⟩ none] ∧
      program.errors =
        [.about .parsing ⟨.semicolon, ";", none, 1⟩ GrammarFault.expectedExpression.message,
          .about .parsing ⟨.classWord, "class", none, 1⟩ GrammarFault.expectedExpression.message,
          .about .parsing ⟨.nilWord, "nil", some .nil, 1⟩ GrammarFault.tooDeep.message] := by
  intro fragments program
  have hfragments : ∀ fragment ∈ fragments, Declares 2 fragment ∨ Mistaken 2 fragment := by
    decide +kernel
  obtain ⟨hstatements, herrors, -⟩ := Program.fragments_read_alone 2 fragments [.endAt 1] []
    (by simp [EndsInput, Token.endAt]) (by simp [EndsInput]) hfragments
  refine ⟨by decide +kernel, hfragments, ?_, ?_⟩
  · exact hstatements.trans (by decide +kernel)
  · exact herrors.trans (by decide +kernel)

end Lumen
