import Lumen.Proofs.Isolation

/-!
# Reading looks at one token ahead

A reader decides by the token that it stands in front of and never by one behind
it.  Two token sequences that are the same up to some token are therefore read
alike for as long as that token is left: readings end with the same phrase or the
same fault, and at the same place.  For a program this holds as far as the first
mistake.
-/

namespace Lumen

namespace Reading

variable {tokens rest : List Token} {α : Type} {reading : Reading tokens α}

theorem Ends.rest_eq {phrase : α} (hends : reading.Ends phrase rest) : reading.rest = rest := by
  obtain ⟨shorter, rfl⟩ := hends
  rfl

theorem Fails.rest_eq {fault : GrammarFault} (hfails : reading.Fails fault rest) :
    reading.rest = rest := by
  obtain ⟨within, rfl⟩ := hfails
  rfl

end Reading

namespace Grammar

variable {limits : Limits} {tokens tokens' rest hidden hidden' : List Token} {first : Token}

/-! ## Token sequences that are the same up to a token -/

/-- The two sequences are the same up to a token, behind which `hidden` and
`hidden'` follow. -/
inductive Alike (hidden hidden' : List Token) : List Token → List Token → Prop
  | last (token : Token) : Alike hidden hidden' (token :: hidden) (token :: hidden')
  | cons (token : Token) {tokens tokens' : List Token}
      (halike : Alike hidden hidden' tokens tokens') :
      Alike hidden hidden' (token :: tokens) (token :: tokens')

namespace Alike

theorem of_append (front : List Token) (token : Token) :
    Alike hidden hidden' (front ++ token :: hidden) (front ++ token :: hidden') := by
  induction front with
  | nil => exact .last token
  | cons first front ih => exact .cons first ih

theorem not_nil : ¬ Alike hidden hidden' [] tokens' := by
  intro halike
  cases halike

theorem ne_nil (halike : Alike hidden hidden' tokens tokens') : tokens' ≠ [] := by
  cases halike <;> exact List.cons_ne_nil _ _

theorem head?_eq (halike : Alike hidden hidden' tokens tokens') : tokens'.head? = tokens.head? := by
  cases halike <;> rfl

theorem exists_cons (halike : Alike hidden hidden' (first :: rest) tokens') :
    ∃ rest', tokens' = first :: rest' := by
  cases halike with
  | last => exact ⟨hidden', rfl⟩
  | @cons _ _ rest' => exact ⟨rest', rfl⟩

/-- The common token is left where more than `hidden` is. -/
theorem tail (halike : Alike hidden hidden' (first :: rest) tokens')
    (hleft : hidden.length < rest.length) :
    ∃ rest', tokens' = first :: rest' ∧ Alike hidden hidden' rest rest' := by
  cases halike with
  | last => exact absurd hleft (Nat.lt_irrefl _)
  | @cons _ _ rest' hrest => exact ⟨rest', rfl, hrest⟩

end Alike

/-! ## Readings of such sequences -/

/-- While the common token is left, the second reading ends as the first one does. -/
structure ReadAlike (hidden hidden' : List Token) {tokens tokens' : List Token} {α : Type}
    (reading : Reading tokens α) (other : Reading tokens' α) : Prop where
  ends : ∀ {phrase rest}, reading.Ends phrase rest → hidden.length < rest.length →
    ∃ rest', Alike hidden hidden' rest rest' ∧ other.Ends phrase rest'
  fails : ∀ {fault rest}, reading.Fails fault rest → hidden.length < rest.length →
    ∃ rest', Alike hidden hidden' rest rest' ∧ other.Fails fault rest'

namespace ReadAlike

variable {α β : Type} {reading : Reading tokens α} {other : Reading tokens' α}

/-- A reading that ends before the common token is used up ends alike in the
other sequence. -/
theorem of_ends {phrase : α} (hends : reading.Ends phrase rest)
    (hother : hidden.length < rest.length →
      ∃ rest', Alike hidden hidden' rest rest' ∧ other.Ends phrase rest') :
    ReadAlike hidden hidden' reading other where
  ends hfound hleft := by
    obtain ⟨rfl, rfl⟩ := hends.unique hfound
    exact hother hleft
  fails hfails _ := by
    obtain ⟨shorter, rfl⟩ := hends
    exact absurd hfails Reading.not_fails_done

/-- A reading that fails before the common token is used up fails alike in the
other sequence. -/
theorem of_fails {fault : GrammarFault} (hfails : reading.Fails fault rest)
    (hother : hidden.length < rest.length →
      ∃ rest', Alike hidden hidden' rest rest' ∧ other.Fails fault rest') :
    ReadAlike hidden hidden' reading other where
  ends hends _ := by
    obtain ⟨within, rfl⟩ := hfails
    exact absurd hends Reading.not_ends_failed
  fails hfound hleft := by
    obtain ⟨within, rfl⟩ := hfails
    obtain ⟨rfl, rfl⟩ := Reading.fails_failed.mp hfound
    exact hother hleft

/-- A reading that goes beyond the common token says nothing about the other. -/
theorem of_beyond (hbeyond : reading.rest.length ≤ hidden.length) :
    ReadAlike hidden hidden' reading other where
  ends hends hleft := by
    rw [hends.rest_eq] at hbeyond
    exact absurd hleft (Nat.not_lt.mpr hbeyond)
  fails hfails hleft := by
    rw [hfails.rest_eq] at hbeyond
    exact absurd hleft (Nat.not_lt.mpr hbeyond)

theorem map (halike : ReadAlike hidden hidden' reading other) (change : α → β) :
    ReadAlike hidden hidden' (reading.map change) (other.map change) where
  ends hends hleft := by
    obtain ⟨former, hformer, hchange⟩ := Reading.ends_map_iff.mp hends
    obtain ⟨rest', hrest, hother⟩ := halike.ends hformer hleft
    exact ⟨rest', hrest, Reading.ends_map_iff.mpr ⟨former, hother, hchange⟩⟩
  fails hfails hleft := by
    obtain ⟨rest', hrest, hother⟩ := halike.fails (Reading.fails_map_iff.mp hfails) hleft
    exact ⟨rest', hrest, Reading.fails_map_iff.mpr hother⟩

/-- Readings in succession are alike if each of them is. -/
theorem andThen {next : α → (rest : List Token) → Reading rest β}
    (halike : ReadAlike hidden hidden' reading other)
    (hnext : ∀ phrase rest rest', Alike hidden hidden' rest rest' →
      ReadAlike hidden hidden' (next phrase rest) (next phrase rest')) :
    ReadAlike hidden hidden' (reading.andThen next) (other.andThen next) where
  ends hends hleft := by
    obtain ⟨middle, between, hfirst, hsecond⟩ := Reading.ends_andThen_iff.mp hends
    have hshorter := hsecond.choose
    obtain ⟨between', hbetween, hfirst'⟩ := halike.ends hfirst (Nat.lt_trans hleft hshorter)
    obtain ⟨rest', hrest, hsecond'⟩ := (hnext middle _ _ hbetween).ends hsecond hleft
    exact ⟨rest', hrest, Reading.ends_andThen_iff.mpr ⟨middle, between', hfirst', hsecond'⟩⟩
  fails hfails hleft := by
    rcases Reading.fails_andThen_iff.mp hfails with hfirst | ⟨middle, between, hfirst, hsecond⟩
    · obtain ⟨rest', hrest, hfirst'⟩ := halike.fails hfirst hleft
      exact ⟨rest', hrest, Reading.fails_andThen_iff.mpr (.inl hfirst')⟩
    · have hwithin := hsecond.choose
      obtain ⟨between', hbetween, hfirst'⟩ :=
        halike.ends hfirst (Nat.lt_of_lt_of_le hleft hwithin)
      obtain ⟨rest', hrest, hsecond'⟩ := (hnext middle _ _ hbetween).fails hsecond hleft
      exact ⟨rest', hrest,
        Reading.fails_andThen_iff.mpr (.inr ⟨middle, between', hfirst', hsecond'⟩)⟩

theorem expect (halike : Alike hidden hidden' tokens tokens') (kind : Kind)
    (fault : GrammarFault) :
    ReadAlike hidden hidden' (Reading.expect kind fault tokens)
      (Reading.expect kind fault tokens') where
  ends hends hleft := by
    obtain ⟨rfl, hkind⟩ := Reading.ends_expect_iff.mp hends
    obtain ⟨rest', rfl, hrest⟩ := halike.tail hleft
    exact ⟨rest', hrest, Reading.ends_expect_iff.mpr ⟨rfl, hkind⟩⟩
  fails hfails _ := by
    obtain ⟨rfl, rfl, hhead⟩ := Reading.fails_expect_iff.mp hfails
    rw [← halike.head?_eq] at hhead
    exact ⟨tokens', halike, Reading.fails_expect_iff.mpr ⟨rfl, rfl, hhead⟩⟩

end ReadAlike

/-! ## Expressions -/

/-- What is read as an expression depends on nothing behind the token in
front. -/
theorem expression_alike (limits : Limits) (hidden hidden' : List Token) :
    (∀ load tokens tokens', Alike hidden hidden' tokens tokens' →
      ReadAlike hidden hidden' (expression limits load tokens)
        (expression limits load tokens')) ∧
    (∀ load tier tokens tokens', Alike hidden hidden' tokens tokens' →
      ReadAlike hidden hidden' (tiered limits load tier tokens)
        (tiered limits load tier tokens')) ∧
    (∀ load tier tokens left rest shorter tokens' rest' shorter', Alike hidden hidden' rest rest' →
      ReadAlike hidden hidden' (chain limits load tier tokens left rest shorter)
        (chain limits load tier tokens' left rest' shorter')) ∧
    (∀ load tokens tokens', Alike hidden hidden' tokens tokens' →
      ReadAlike hidden hidden' (operand limits load tokens) (operand limits load tokens')) := by
  have hchain := (rest_suffix limits).2.2.1
  apply expression.mutual_induct limits
  case case1 =>
    intro load tokens hadmits ih tokens' halike
    rw [expression, if_pos hadmits, expression, if_pos hadmits]
    exact ih tokens' halike
  case case2 =>
    intro load tokens hadmits tokens' halike
    have hfails : ∀ tokens, (expression limits load tokens).Fails .tooDeep tokens := by
      intro tokens
      rw [expression, if_neg hadmits]
      exact Reading.fails_failed.mpr ⟨rfl, rfl⟩
    exact .of_fails (hfails tokens) fun _ => ⟨tokens', halike, hfails tokens'⟩
  case case3 =>
    intro load tokens ih tokens' halike
    rw [tiered, tiered]
    exact ih tokens' halike
  case case4 =>
    intro load tokens tier fault later within hread ih tokens' halike
    have htighter : (tiered limits load tier.tighter tokens).Fails fault later := ⟨within, hread⟩
    refine .of_fails (tiered_fails_of_tighter htighter) fun hleft => ?_
    obtain ⟨later', hlater, hother⟩ := (ih tokens' halike).fails htighter hleft
    exact ⟨later', hlater, tiered_fails_of_tighter hother⟩
  case case5 =>
    intro load tokens tier left later shorter hread ihTighter ihChain tokens' halike
    rw [tiered, hread]
    by_cases hleft : hidden.length < later.length
    · obtain ⟨later', hlater, hother⟩ := (ihTighter tokens' halike).ends ⟨shorter, hread⟩ hleft
      obtain ⟨shorter', hothers⟩ := tiered_of_tighter hother
      rw [hothers]
      exact ihChain tokens' later' shorter' hlater
    · exact .of_beyond ((hchain _ _ _ _ _ _).length_le.trans (Nat.not_lt.mp hleft))
  case case6 =>
    intro load tier tokens left shorter _ tokens' rest' shorter' halike
    exact absurd halike Alike.not_nil
  case case7 =>
    intro load tier tokens left operator after shorter hoperator fault later within hread _ ih
      tokens' rest' shorter' halike
    have htighter : (tiered limits load tier.tighter after).Fails fault later := ⟨within, hread⟩
    refine .of_fails (chain_fails_of_tighter left shorter hoperator htighter) fun hleft => ?_
    obtain ⟨after', rfl, hafter⟩ := halike.tail (Nat.lt_of_lt_of_le hleft within)
    obtain ⟨later', hlater, hother⟩ := (ih after' hafter).fails htighter hleft
    exact ⟨later', hlater, chain_fails_of_tighter left shorter' hoperator hother⟩
  case case8 =>
    intro load tier tokens left operator after shorter hoperator right later further hread _
      ihTighter ihChain tokens' rest' shorter' halike
    obtain ⟨_, hthis⟩ := chain_of_tighter left shorter hoperator ⟨further, hread⟩
    rw [hthis]
    by_cases hleft : hidden.length < later.length
    · obtain ⟨after', rfl, hafter⟩ := halike.tail (Nat.lt_trans hleft further)
      obtain ⟨later', hlater, hother⟩ := (ihTighter after' hafter).ends ⟨further, hread⟩ hleft
      obtain ⟨shorter'', hothers⟩ := chain_of_tighter left shorter' hoperator hother
      rw [hothers]
      exact ihChain tokens' later' shorter'' hlater
    · exact .of_beyond ((hchain _ _ _ _ _ _).length_le.trans (Nat.not_lt.mp hleft))
  case case9 =>
    intro load tier tokens left operator after shorter hoperator _ tokens' rest' shorter' halike
    obtain ⟨after', rfl⟩ := halike.exists_cons
    rw [chain, if_neg hoperator, chain, if_neg hoperator]
    exact .of_ends (Reading.ends_done.mpr ⟨rfl, rfl⟩) fun _ =>
      ⟨operator :: after', halike, Reading.ends_done.mpr ⟨rfl, rfl⟩⟩
  case case10 =>
    intro load tokens' halike
    exact absurd halike Alike.not_nil
  case case11 =>
    intro load first rest hsign hadmits fault later within hread ih tokens' halike
    have hinner : (operand limits (load.deeper unaryFrames) rest).Fails fault later :=
      ⟨within, hread⟩
    refine .of_fails (operand_fails_sign hsign hadmits hinner) fun hleft => ?_
    obtain ⟨rest', rfl, hrest⟩ := halike.tail (Nat.lt_of_lt_of_le hleft within)
    obtain ⟨later', hlater, hother⟩ := (ih rest' hrest).fails hinner hleft
    exact ⟨later', hlater, operand_fails_sign hsign hadmits hother⟩
  case case12 =>
    intro load first rest hsign hadmits inner later further hread ih tokens' halike
    have hinner : (operand limits (load.deeper unaryFrames) rest).Ends inner later :=
      ⟨further, hread⟩
    have hoperator := (isPrefixOperator_iff _).mp hsign
    refine .of_ends (operand_ends_sign hoperator hadmits hinner) fun hleft => ?_
    obtain ⟨rest', rfl, hrest⟩ := halike.tail (Nat.lt_trans hleft further)
    obtain ⟨later', hlater, hother⟩ := (ih rest' hrest).ends hinner hleft
    exact ⟨later', hlater, operand_ends_sign hoperator hadmits hother⟩
  case case13 =>
    intro load first rest hsign hadmits tokens' halike
    refine .of_fails (operand_fails_sign_tooDeep hsign hadmits) fun hleft => ?_
    obtain ⟨rest', rfl, hrest⟩ := halike.tail hleft
    exact ⟨rest', hrest, operand_fails_sign_tooDeep hsign hadmits⟩
  case case14 =>
    intro load first rest _ hliteral tokens' halike
    have hkind := (isLiteral_iff _).mp hliteral
    refine .of_ends (operand_ends_literal hkind) fun hleft => ?_
    obtain ⟨rest', rfl, hrest⟩ := halike.tail hleft
    exact ⟨rest', hrest, operand_ends_literal hkind⟩
  case case15 =>
    intro load first rest _ _ hname tokens' halike
    refine .of_ends (operand_ends_reference hname) fun hleft => ?_
    obtain ⟨rest', rfl, hrest⟩ := halike.tail hleft
    exact ⟨rest', hrest, operand_ends_reference hname⟩
  case case16 =>
    intro load first rest _ _ _ hopening fault later within hread ih tokens' halike
    have hinner : (expression limits (load.deeper groupFrames) rest).Fails fault later :=
      ⟨within, hread⟩
    refine .of_fails (operand_fails_group hopening hinner) fun hleft => ?_
    obtain ⟨rest', rfl, hrest⟩ := halike.tail (Nat.lt_of_lt_of_le hleft within)
    obtain ⟨later', hlater, hother⟩ := (ih rest' hrest).fails hinner hleft
    exact ⟨later', hlater, operand_fails_group hopening hother⟩
  case case17 =>
    intro load first rest _ _ _ hopening inner later further hread fault final within hexpect ih
      tokens' halike
    have hinner : (expression limits (load.deeper groupFrames) rest).Ends inner later :=
      ⟨further, hread⟩
    obtain ⟨-, -, hclosing⟩ := Reading.fails_expect_iff.mp ⟨within, hexpect⟩
    refine .of_fails (operand_fails_unclosed hopening hinner hclosing) fun hleft => ?_
    obtain ⟨rest', rfl, hrest⟩ := halike.tail (Nat.lt_trans hleft further)
    obtain ⟨later', hlater, hother⟩ := (ih rest' hrest).ends hinner hleft
    rw [← hlater.head?_eq] at hclosing
    exact ⟨later', hlater, operand_fails_unclosed hopening hother hclosing⟩
  case case18 =>
    intro load first rest _ _ _ hopening inner later further hread closing final last hexpect ih
      tokens' halike
    have hinner : (expression limits (load.deeper groupFrames) rest).Ends inner later :=
      ⟨further, hread⟩
    obtain ⟨rfl, hclosing⟩ := Reading.ends_expect_iff.mp ⟨last, hexpect⟩
    refine .of_ends (operand_ends_group hopening hclosing hinner) fun hleft => ?_
    have hleft' := Nat.lt_trans hleft last
    obtain ⟨rest', rfl, hrest⟩ := halike.tail (Nat.lt_trans hleft' further)
    obtain ⟨later', hlater, hother⟩ := (ih rest' hrest).ends hinner hleft'
    obtain ⟨final', rfl, hfinal⟩ := hlater.tail hleft
    exact ⟨final', hfinal, operand_ends_group hopening hclosing hother⟩
  case case19 =>
    intro load first rest hsign hliteral hname hopening tokens' halike
    obtain ⟨rest', rfl⟩ := halike.exists_cons
    exact .of_fails (operand_fails_other hsign hliteral hname hopening) fun _ =>
      ⟨first :: rest', halike, operand_fails_other hsign hliteral hname hopening⟩

/-! ## Declarations -/

theorem closedExpression_alike (fault : GrammarFault)
    (halike : Alike hidden hidden' tokens tokens') :
    ReadAlike hidden hidden' (closedExpression limits fault tokens)
      (closedExpression limits fault tokens') := by
  apply ((expression_alike limits hidden hidden').1 outermost _ _ halike).andThen
  intro value rest rest' hrest
  exact (ReadAlike.expect hrest .semicolon fault).map _

theorem first_alike (halike : Alike hidden hidden' (first :: rest) (first :: tokens')) :
    ReadAlike hidden hidden' (Reading.done first rest (Reading.tail_shorter first rest))
      (Reading.done first tokens' (Reading.tail_shorter first tokens')) := by
  refine .of_ends (Reading.ends_done.mpr ⟨rfl, rfl⟩) fun hleft => ?_
  obtain ⟨rest', hcons, hrest⟩ := halike.tail hleft
  obtain ⟨-, rfl⟩ := List.cons.inj hcons
  exact ⟨tokens', hrest, Reading.ends_done.mpr ⟨rfl, rfl⟩⟩

theorem initializer_of_equal (hequal : first.kind = .equal) (rest : List Token) :
    initializer limits (first :: rest) =
      (Reading.done first rest (Reading.tail_shorter first rest)).andThen fun _ rest =>
        (closedExpression limits .expectedEndOfDeclaration rest).map some := by
  rw [initializer, if_pos hequal, Reading.andThen]
  cases closedExpression limits .expectedEndOfDeclaration rest <;> rfl

theorem initializer_alike (halike : Alike hidden hidden' tokens tokens') :
    ReadAlike hidden hidden' (initializer limits tokens) (initializer limits tokens') := by
  cases tokens with
  | nil => exact absurd halike Alike.not_nil
  | cons first rest =>
      obtain ⟨rest', rfl⟩ := halike.exists_cons
      by_cases hequal : first.kind = .equal
      · rw [initializer_of_equal hequal, initializer_of_equal hequal]
        apply (first_alike halike).andThen
        intro equal after after' hafter
        exact (closedExpression_alike .expectedEndOfDeclaration hafter).map _
      · rw [initializer, if_neg hequal, initializer, if_neg hequal]
        exact (ReadAlike.expect halike .semicolon .expectedEndOfDeclaration).map _

/-- What is read as a declaration depends on nothing behind the token in
front. -/
theorem declaration_alike (halike : Alike hidden hidden' tokens tokens') :
    ReadAlike hidden hidden' (declaration limits tokens) (declaration limits tokens') := by
  cases tokens with
  | nil => exact absurd halike Alike.not_nil
  | cons first rest =>
      obtain ⟨rest', rfl⟩ := halike.exists_cons
      rw [declaration, declaration]
      split
      · apply (first_alike halike).andThen
        intro word after after' hafter
        apply (ReadAlike.expect hafter .identifier .expectedName).andThen
        intro name later later' hlater
        exact (initializer_alike hlater).map _
      · split
        · apply (first_alike halike).andThen
          intro word after after' hafter
          exact (closedExpression_alike .expectedEndOfPrint hafter).map _
        · exact (closedExpression_alike .expectedEndOfStatement halike).map _

/-! ## Where reading goes wrong -/

/-- The fault of an expression that is not all of the tokens, with the tokens from
the one at fault on. -/
def expressionMistake? (limits : Limits) (tokens : List Token) :
    Option (GrammarFault × List Token) :=
  match expression limits outermost tokens with
  | .failed fault rest _ => some (fault, rest)
  | .done _ [] _ => none
  | .done _ (first :: rest) _ => some (.expectedEndOfExpression, first :: rest)

/-- One expression goes wrong where its reading fails, or at the first token
that it leaves. -/
theorem expressionMistake?_eq_some_iff {fault : GrammarFault} :
    expressionMistake? limits tokens = some (fault, rest) ↔
      (expression limits outermost tokens).Fails fault rest ∨
        rest ≠ [] ∧ fault = .expectedEndOfExpression ∧
          ∃ expr, (expression limits outermost tokens).Ends expr rest := by
  rw [expressionMistake?]
  cases expression limits outermost tokens with
  | failed found later within => simp
  | done expr later shorter =>
      cases later with
      | nil => simp +contextual [eq_comm]
      | cons first more =>
          constructor
          · rintro ⟨⟩
            simp
          · rintro (hfails | ⟨-, rfl, _, hends⟩)
            · exact absurd hfails Reading.not_fails_done
            · obtain ⟨-, rfl⟩ := Reading.ends_done.mp hends
              rfl

theorem expressionMistake?_suffix {fault : GrammarFault}
    (hmistake : expressionMistake? limits tokens = some (fault, rest)) : rest <:+ tokens := by
  have hsuffix := (rest_suffix limits).1 outermost tokens
  rcases expressionMistake?_eq_some_iff.mp hmistake with hfails | ⟨-, -, expr, hends⟩
  · rwa [hfails.rest_eq] at hsuffix
  · rwa [hends.rest_eq] at hsuffix

/-- A mistake in an expression does not depend on what follows its token. -/
theorem expressionMistake?_alike {fault : GrammarFault}
    (halike : Alike hidden hidden' tokens tokens')
    (hmistake : expressionMistake? limits tokens = some (fault, rest))
    (hleft : hidden.length < rest.length) :
    ∃ rest', expressionMistake? limits tokens' = some (fault, rest') := by
  have hread := (expression_alike limits hidden hidden').1 outermost _ _ halike
  rcases expressionMistake?_eq_some_iff.mp hmistake with hfails | ⟨-, rfl, expr, hends⟩
  · obtain ⟨rest', -, hother⟩ := hread.fails hfails hleft
    exact ⟨rest', expressionMistake?_eq_some_iff.mpr (.inl hother)⟩
  · obtain ⟨rest', hrest, hother⟩ := hread.ends hends hleft
    exact ⟨rest', expressionMistake?_eq_some_iff.mpr (.inr ⟨hrest.ne_nil, rfl, expr, hother⟩)⟩

/-- The fault of an entry that could not be read, with the tokens from the one at
fault on. -/
def Entry.mistake? : Entry → Option (GrammarFault × List Token)
  | statement _ _ => none
  | mistake fault rest => some (fault, rest)

/-- The fault of the first declaration that cannot be read, with the tokens from the
one at fault on. -/
def programMistake? (limits : Limits) (tokens : List Token) : Option (GrammarFault × List Token) :=
  (entries limits tokens).findSome? Entry.mistake?

theorem programMistake?_nil (limits : Limits) : programMistake? limits [] = none := by
  rw [programMistake?, entries, List.findSome?_nil]

theorem programMistake?_of_ends {stmt : Stmt}
    (hends : (declaration limits tokens).Ends stmt rest) :
    programMistake? limits tokens = programMistake? limits rest := by
  rw [programMistake?, entries_of_ends hends]
  rfl

theorem programMistake?_of_fails {fault : GrammarFault} (htokens : tokens ≠ [])
    (hfails : (declaration limits tokens).Fails fault rest) :
    programMistake? limits tokens = some (fault, rest) := by
  rw [programMistake?, entries_of_fails htokens hfails]
  rfl

theorem programMistake?_suffix {fault : GrammarFault}
    (hmistake : programMistake? limits tokens = some (fault, rest)) : rest <:+ tokens := by
  induction tokens using entries.induct limits with
  | case1 =>
      rw [programMistake?_nil] at hmistake
      cases hmistake
  | case2 first more stmt later shorter hdone ih =>
      have hsuffix := rest_declaration_suffix limits (first :: more)
      rw [hdone] at hsuffix
      rw [programMistake?_of_ends ⟨shorter, hdone⟩] at hmistake
      exact (ih hmistake).trans hsuffix
  | case3 first more found later within hfailed _ =>
      have hsuffix := rest_declaration_suffix limits (first :: more)
      rw [hfailed] at hsuffix
      rw [programMistake?_of_fails (List.cons_ne_nil _ _) ⟨within, hfailed⟩] at hmistake
      cases hmistake
      exact hsuffix

/-- The first mistake in a program does not depend on what follows its token. -/
theorem programMistake?_alike {fault : GrammarFault}
    (halike : Alike hidden hidden' tokens tokens')
    (hmistake : programMistake? limits tokens = some (fault, rest))
    (hleft : hidden.length < rest.length) :
    ∃ rest', programMistake? limits tokens' = some (fault, rest') := by
  induction tokens using entries.induct limits generalizing tokens' with
  | case1 => exact absurd halike Alike.not_nil
  | case2 first more stmt later shorter hdone ih =>
      have hends : (declaration limits (first :: more)).Ends stmt later := ⟨shorter, hdone⟩
      rw [programMistake?_of_ends hends] at hmistake
      -- The mistake lies behind the declaration, and the common token behind the mistake.
      have hlater := Nat.lt_of_lt_of_le hleft (programMistake?_suffix hmistake).length_le
      obtain ⟨later', halike', hother⟩ := (declaration_alike halike).ends hends hlater
      rw [programMistake?_of_ends hother]
      exact ih halike' hmistake
  | case3 first more found later within hfailed _ =>
      have hfails : (declaration limits (first :: more)).Fails found later := ⟨within, hfailed⟩
      rw [programMistake?_of_fails (List.cons_ne_nil _ _) hfails] at hmistake
      cases hmistake
      obtain ⟨rest', -, hother⟩ := (declaration_alike halike).fails hfails hleft
      exact ⟨rest', programMistake?_of_fails halike.ne_nil hother⟩

end Grammar

end Lumen
