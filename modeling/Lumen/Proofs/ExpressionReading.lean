import Lumen.Grammar.Expression
import Lumen.Proofs.Derivation

/-!
# Reading expressions and deriving them

The reader takes operators greedily, layer by layer, and counts brackets and
prefix operators against the limits.  What it reads has a derivation within the
limits; this follows the recursion of the reader.  Whatever has a derivation is
read; this follows the derivation, where a chain that is still growing is read
as far as its last operand and then handed on to the loop of its layer.
-/

namespace Lumen

namespace Reading

variable {tokens : List Token} {α β : Type}

/-- The reading ends with a phrase and the tokens behind it. -/
def Ends (reading : Reading tokens α) (phrase : α) (rest : List Token) : Prop :=
  ∃ shorter, reading = .done phrase rest shorter

@[simp] theorem ends_done {phrase phrase' : α} {rest rest' : List Token}
    {shorter : rest.length < tokens.length} :
    (done phrase rest shorter).Ends phrase' rest' ↔ phrase = phrase' ∧ rest = rest' := by
  constructor
  · rintro ⟨_, hdone⟩
    exact ⟨(done.inj hdone).1, (done.inj hdone).2⟩
  · rintro ⟨rfl, rfl⟩
    exact ⟨shorter, rfl⟩

@[simp] theorem not_ends_failed {fault : GrammarFault} {rest rest' : List Token} {phrase : α}
    {within : rest.length ≤ tokens.length} :
    ¬ (failed fault rest within : Reading tokens α).Ends phrase rest' := by
  rintro ⟨_, hdone⟩
  cases hdone

/-- Readings in succession end where the second one does. -/
theorem ends_andThen_iff {reading : Reading tokens α}
    {next : α → (rest : List Token) → Reading rest β} {phrase : β} {rest : List Token} :
    (reading.andThen next).Ends phrase rest ↔
      ∃ middle between, reading.Ends middle between ∧
        (next middle between).Ends phrase rest := by
  cases reading with
  | failed fault left within => simp [andThen]
  | done middle between shorter =>
      have hends : ((done middle between shorter).andThen next).Ends phrase rest ↔
          (next middle between).Ends phrase rest := by
        cases hnext : next middle between with
        | failed fault later within => simp [andThen, hnext]
        | done following later further => simp [andThen, hnext]
      rw [hends]
      constructor
      · intro hnext
        exact ⟨middle, between, ends_done.mpr ⟨rfl, rfl⟩, hnext⟩
      · rintro ⟨_, _, hfirst, hnext⟩
        obtain ⟨rfl, rfl⟩ := ends_done.mp hfirst
        exact hnext

theorem ends_map_iff {reading : Reading tokens α} {change : α → β} {phrase : β}
    {rest : List Token} :
    (reading.map change).Ends phrase rest ↔
      ∃ former, reading.Ends former rest ∧ change former = phrase := by
  cases reading with
  | failed fault left within => simp [map]
  | done former left shorter =>
      simp only [map, ends_done]
      constructor
      · rintro ⟨hphrase, hrest⟩
        exact ⟨former, ⟨rfl, hrest⟩, hphrase⟩
      · rintro ⟨_, ⟨rfl, hrest⟩, hphrase⟩
        exact ⟨hphrase, hrest⟩

theorem ends_expect_iff {kind : Kind} {fault : GrammarFault} {tokens rest : List Token}
    {token : Token} :
    (expect kind fault tokens).Ends token rest ↔ tokens = token :: rest ∧ token.kind = kind := by
  cases tokens with
  | nil => simp [expect]
  | cons first more =>
      rw [List.cons.injEq]
      by_cases hkind : first.kind = kind
      · simp only [expect, hkind, if_true, ends_done]
        constructor
        · rintro ⟨rfl, rfl⟩
          exact ⟨⟨rfl, rfl⟩, hkind⟩
        · rintro ⟨hsame, -⟩
          exact hsame
      · simp only [expect, hkind, if_false, not_ends_failed, false_iff]
        rintro ⟨⟨rfl, -⟩, hkind'⟩
        exact hkind hkind'

end Reading

/-- Every bracket and prefix operator of the expression is within the limits
when it is read under a load. -/
def Expr.Fits (limits : Limits) : Load → Expr → Prop
  | load, .binary left _ right => left.Fits limits load ∧ right.Fits limits load
  | load, .grouping inner _ =>
      limits.admits (load.deeper Grammar.groupFrames) = true ∧
        inner.Fits limits (load.deeper Grammar.groupFrames)
  | _, .literal _ => True
  | load, .unary _ operand =>
      limits.admits (load.deeper Grammar.unaryFrames) = true ∧
        operand.Fits limits (load.deeper Grammar.unaryFrames)
  | _, .reference _ => True

namespace Grammar

variable {limits : Limits} {load : Load} {tokens rest : List Token}

/-! ## The layers and the reader's tiers -/

/-- The tier whose reader reads a phrase class. -/
def Phrase.tier : Phrase → Option Tier
  | equality => some .equality
  | comparison => some .comparison
  | term => some .term
  | factor => some .factor
  | unary => none
  | primary => none

/-- The phrase class that the reader of a tier reads. -/
def Phrase.ofTier : Option Tier → Phrase
  | some .equality => equality
  | some .comparison => comparison
  | some .term => term
  | some .factor => factor
  | none => unary

theorem layer_ofTier (tier : Tier) :
    Layer (.ofTier (some tier)) tier.operators (.ofTier tier.tighter) := by
  cases tier <;> constructor

/-- Every layer of the grammar is a tier of the reader. -/
theorem Layer.exists_tier {phrase operand : Phrase} {operators : List Kind}
    (layer : Layer phrase operators operand) :
    ∃ tier : Tier, phrase.tier = some tier ∧ operand.tier = tier.tighter ∧
      operators = tier.operators := by
  cases layer
  · exact ⟨.equality, rfl, rfl, rfl⟩
  · exact ⟨.comparison, rfl, rfl, rfl⟩
  · exact ⟨.term, rfl, rfl, rfl⟩
  · exact ⟨.factor, rfl, rfl, rfl⟩

theorem isPrefixOperator_iff (kind : Kind) :
    kind.isPrefixOperator = true ↔ kind ∈ [Kind.bang, Kind.minus] := by
  cases kind <;> simp [Kind.isPrefixOperator]

theorem isLiteral_iff (kind : Kind) :
    kind.isLiteral = true ↔
      kind ∈ [Kind.number, Kind.string, Kind.trueWord, Kind.falseWord, Kind.nilWord] := by
  cases kind <;> simp [Kind.isLiteral]

/-! ## Soundness -/

/-- A derivation within the limits accounts for the tokens in front of `rest`. -/
def Covers (limits : Limits) (load : Load) (phrase : Phrase) (tokens : List Token) (expr : Expr)
    (rest : List Token) : Prop :=
  ∃ derivation : Derivation phrase, derivation.tree = expr ∧
    derivation.yield ++ rest = tokens ∧ expr.Fits limits load

/-- What the readers take from the front of the tokens, the grammar derives
within the limits. -/
theorem reading_sound (limits : Limits) :
    (∀ load tokens expr rest, (expression limits load tokens).Ends expr rest →
      limits.admits load = true ∧ Covers limits load .equality tokens expr rest) ∧
    (∀ load tier tokens expr rest, (tiered limits load tier tokens).Ends expr rest →
      Covers limits load (.ofTier tier) tokens expr rest) ∧
    (∀ load tier tokens left rest shorter expr final,
      (chain limits load tier tokens left rest shorter).Ends expr final →
      Covers limits load (.ofTier (some tier)) tokens left rest →
      Covers limits load (.ofTier (some tier)) tokens expr final) ∧
    (∀ load tokens expr rest, (operand limits load tokens).Ends expr rest →
      Covers limits load .unary tokens expr rest) := by
  -- The loop of a tier is the one part that builds on what was read before it.
  apply expression.mutual_induct limits
  case case1 =>
    intro load tokens hadmits ih expr rest hends
    rw [expression, if_pos hadmits] at hends
    exact ⟨hadmits, ih expr rest hends⟩
  case case2 =>
    intro load tokens hadmits expr rest hends
    rw [expression, if_neg hadmits] at hends
    exact absurd hends Reading.not_ends_failed
  case case3 =>
    intro load tokens ih expr rest hends
    rw [tiered] at hends
    exact ih expr rest hends
  case case4 =>
    intro load tokens tier fault later within hread _ expr rest hends
    rw [tiered, hread] at hends
    exact absurd hends Reading.not_ends_failed
  case case5 =>
    intro load tokens tier left later shorter hread ihTighter ihChain expr rest hends
    rw [tiered, hread] at hends
    obtain ⟨derivation, htree, hyield, hfits⟩ := ihTighter left later ⟨shorter, hread⟩
    exact ihChain expr rest hends ⟨.only (layer_ofTier tier) derivation, htree, hyield, hfits⟩
  case case6 =>
    intro load tier tokens left shorter _ expr final hends hcovers
    rw [chain] at hends
    obtain ⟨rfl, rfl⟩ := Reading.ends_done.mp hends
    exact hcovers
  case case7 =>
    intro load tier tokens left operator after shorter hoperator fault later within hread _ _ expr
      final hends
    rw [chain, if_pos hoperator, hread] at hends
    exact absurd hends Reading.not_ends_failed
  case case8 =>
    intro load tier tokens left operator after shorter hoperator right later further hread _
      ihTighter ihChain expr final hends hcovers
    rw [chain, if_pos hoperator, hread] at hends
    obtain ⟨leftDerivation, hleftTree, hleftYield, hleftFits⟩ := hcovers
    obtain ⟨rightDerivation, hrightTree, hrightYield, hrightFits⟩ :=
      ihTighter right later ⟨further, hread⟩
    refine ihChain expr final hends
      ⟨.join (layer_ofTier tier) leftDerivation operator hoperator rightDerivation, ?_, ?_,
        hleftFits, hrightFits⟩
    · rw [Derivation.tree, hleftTree, hrightTree]
    · rw [Derivation.yield, List.append_assoc, List.cons_append, hrightYield, hleftYield]
  case case9 =>
    intro load tier tokens left operator after shorter hoperator _ expr final hends hcovers
    rw [chain, if_neg hoperator] at hends
    obtain ⟨rfl, rfl⟩ := Reading.ends_done.mp hends
    exact hcovers
  case case10 =>
    intro load expr rest hends
    rw [operand] at hends
    exact absurd hends Reading.not_ends_failed
  case case11 =>
    intro load first more hsign hadmits fault later within hread _ expr rest hends
    rw [operand, if_pos hsign, if_pos hadmits, hread] at hends
    exact absurd hends Reading.not_ends_failed
  case case12 =>
    intro load first more hsign hadmits inner later further hread ih expr rest hends
    rw [operand, if_pos hsign, if_pos hadmits, hread] at hends
    obtain ⟨rfl, rfl⟩ := Reading.ends_done.mp hends
    obtain ⟨derivation, htree, hyield, hfits⟩ := ih inner later ⟨further, hread⟩
    refine ⟨.sign first ((isPrefixOperator_iff _).mp hsign) derivation, ?_, ?_, hadmits, hfits⟩
    · rw [Derivation.tree, htree]
    · rw [Derivation.yield, List.cons_append, hyield]
  case case13 =>
    intro load first more hsign hadmits expr rest hends
    rw [operand, if_pos hsign, if_neg hadmits] at hends
    exact absurd hends Reading.not_ends_failed
  case case14 =>
    intro load first more hsign hliteral expr rest hends
    rw [operand, if_neg hsign, if_pos hliteral] at hends
    obtain ⟨rfl, rfl⟩ := Reading.ends_done.mp hends
    exact ⟨.plain (.literal first ((isLiteral_iff _).mp hliteral)), rfl, rfl, trivial⟩
  case case15 =>
    intro load first more hsign hliteral hname expr rest hends
    rw [operand, if_neg hsign, if_neg hliteral, if_pos hname] at hends
    obtain ⟨rfl, rfl⟩ := Reading.ends_done.mp hends
    exact ⟨.plain (.reference first hname), rfl, rfl, trivial⟩
  case case16 =>
    intro load first more hsign hliteral hname hopening fault later within hread _ expr rest hends
    rw [operand, if_neg hsign, if_neg hliteral, if_neg hname, if_pos hopening, hread] at hends
    exact absurd hends Reading.not_ends_failed
  case case17 =>
    intro load first more hsign hliteral hname hopening inner later further hread fault final
      within hexpect _ expr rest hends
    rw [operand, if_neg hsign, if_neg hliteral, if_neg hname, if_pos hopening, hread] at hends
    simp only [hexpect] at hends
    exact absurd hends Reading.not_ends_failed
  case case18 =>
    intro load first more hsign hliteral hname hopening inner later further hread closing final
      last hexpect ih expr rest hends
    rw [operand, if_neg hsign, if_neg hliteral, if_neg hname, if_pos hopening, hread] at hends
    simp only [hexpect] at hends
    obtain ⟨rfl, rfl⟩ := Reading.ends_done.mp hends
    obtain ⟨hadmits, derivation, htree, hyield, hfits⟩ := ih inner later ⟨further, hread⟩
    obtain ⟨rfl, hclosing⟩ := Reading.ends_expect_iff.mp ⟨last, hexpect⟩
    refine ⟨.plain (.group first hopening derivation closing hclosing), ?_, ?_, hadmits, hfits⟩
    · rw [Derivation.tree, Derivation.tree, htree]
    · rw [Derivation.yield, Derivation.yield, List.cons_append, List.append_assoc,
        List.singleton_append, hyield]
  case case19 =>
    intro load first more hsign hliteral hname hopening expr rest hends
    rw [operand, if_neg hsign, if_neg hliteral, if_neg hname, if_neg hopening] at hends
    exact absurd hends Reading.not_ends_failed

/-! ## Completeness -/

/-- The reader of a tier has taken in an expression and stands in front of
`rest`: the loop of the tier goes on from there, where there is one. -/
def Arrives (limits : Limits) (load : Load) (tier : Option Tier) (tokens : List Token)
    (expr : Expr) (rest : List Token) : Prop :=
  match tier with
  | none => (operand limits load tokens).Ends expr rest
  | some tier => ∃ shorter, tiered limits load (some tier) tokens =
      chain limits load tier tokens expr rest shorter

/-- `rest` does not begin with an operator of a layer below the given height. -/
def Stops (height : Nat) (rest : List Token) : Prop :=
  ∀ token ∈ rest.head?, height ≤ token.kind.looseness

theorem stops_cons {height : Nat} {first : Token} (hfirst : height ≤ first.kind.looseness)
    (more : List Token) : Stops height (first :: more) := by
  intro token htoken
  obtain rfl := Option.some.inj htoken
  exact hfirst

theorem Stops.mono {height height' : Nat} (hstops : Stops height' rest)
    (hle : height ≤ height') : Stops height rest := by
  intro token htoken
  exact Nat.le_trans hle (hstops token htoken)

theorem mem_operators_iff (tier : Tier) (kind : Kind) :
    kind ∈ tier.operators ↔ kind.looseness = (Phrase.ofTier (some tier)).height :=
  (layer_ofTier tier).mem_iff kind

theorem height_ofTier_tier (phrase : Phrase) :
    (Phrase.ofTier phrase.tier).height = phrase.height := by
  cases phrase <;> rfl

/-- A chain ends in front of a token that is none of its operators. -/
theorem chain_ends {tier : Tier} {expr : Expr} {shorter : rest.length < tokens.length}
    (hstops : Stops ((Phrase.ofTier (some tier)).height + 1) rest) :
    (chain limits load tier tokens expr rest shorter).Ends expr rest := by
  cases rest with
  | nil =>
      rw [chain]
      exact ⟨shorter, rfl⟩
  | cons operator after =>
      have hoperator : operator.kind ∉ tier.operators := by
        intro hmem
        have hloose := hstops operator rfl
        have hown := (mem_operators_iff tier operator.kind).mp hmem
        omega
      rw [chain, if_neg hoperator]
      exact ⟨shorter, rfl⟩

/-- An expression is read to its end where no operator goes on with it. -/
theorem Arrives.ends {tier : Option Tier} {expr : Expr}
    (harrives : Arrives limits load tier tokens expr rest)
    (hstops : Stops ((Phrase.ofTier tier).height + 1) rest) :
    (tiered limits load tier tokens).Ends expr rest := by
  cases tier with
  | none =>
      rw [tiered]
      exact harrives
  | some tier =>
      obtain ⟨shorter, hchain⟩ := harrives
      rw [hchain]
      exact chain_ends hstops

theorem Arrives.expression_ends {expr : Expr}
    (harrives : Arrives limits load (some .equality) tokens expr rest)
    (hadmits : limits.admits load = true) (hstops : Stops 5 rest) :
    (expression limits load tokens).Ends expr rest := by
  rw [expression, if_pos hadmits]
  exact harrives.ends hstops

/-- A chain begins with an operand of the next tighter tier. -/
theorem tiered_of_tighter {tier : Tier} {left : Expr}
    (hread : (tiered limits load tier.tighter tokens).Ends left rest) :
    ∃ shorter, tiered limits load (some tier) tokens =
      chain limits load tier tokens left rest shorter := by
  obtain ⟨shorter, hread⟩ := hread
  refine ⟨shorter, ?_⟩
  rw [tiered, hread]

/-- An operator with its operand makes the chain longer by one. -/
theorem chain_of_tighter {tier : Tier} {right : Expr} {operator : Token}
    {after later : List Token} (left : Expr) (shorter : (operator :: after).length < tokens.length)
    (hoperator : operator.kind ∈ tier.operators)
    (hread : (tiered limits load tier.tighter after).Ends right later) :
    ∃ shorter', chain limits load tier tokens left (operator :: after) shorter =
      chain limits load tier tokens (.binary left operator right) later shorter' := by
  obtain ⟨further, hread⟩ := hread
  refine ⟨?_, ?_⟩
  · simp only [List.length_cons] at shorter
    omega
  · rw [chain, if_pos hoperator, hread]

/-- A prefix operator is read with its operand, if the limits leave room. -/
theorem operand_ends_sign {operator : Token} {inner : Expr}
    (hoperator : operator.kind ∈ [Kind.bang, Kind.minus])
    (hadmits : limits.admits (load.deeper unaryFrames) = true)
    (hread : (operand limits (load.deeper unaryFrames) tokens).Ends inner rest) :
    (operand limits load (operator :: tokens)).Ends (.unary operator inner) rest := by
  obtain ⟨further, hread⟩ := hread
  rw [operand, if_pos ((isPrefixOperator_iff _).mpr hoperator), if_pos hadmits, hread]
  exact Reading.ends_done.mpr ⟨rfl, rfl⟩

theorem operand_ends_literal {token : Token}
    (htoken : token.kind ∈ [Kind.number, Kind.string, Kind.trueWord, Kind.falseWord,
      Kind.nilWord]) :
    (operand limits load (token :: rest)).Ends (.literal token.literal) rest := by
  have hliteral := (isLiteral_iff token.kind).mpr htoken
  have hsign : ¬ token.kind.isPrefixOperator = true := by
    cases hkind : token.kind <;> simp [hkind, Kind.isLiteral, Kind.isPrefixOperator] at hliteral ⊢
  rw [operand, if_neg hsign, if_pos hliteral]
  exact Reading.ends_done.mpr ⟨rfl, rfl⟩

theorem operand_ends_reference {name : Token} (hname : name.kind = .identifier) :
    (operand limits load (name :: rest)).Ends (.reference name) rest := by
  have hsign : ¬ name.kind.isPrefixOperator = true := by simp [hname, Kind.isPrefixOperator]
  have hliteral : ¬ name.kind.isLiteral = true := by simp [hname, Kind.isLiteral]
  rw [operand, if_neg hsign, if_neg hliteral, if_pos hname]
  exact Reading.ends_done.mpr ⟨rfl, rfl⟩

/-- A bracket is read with the expression in it and the bracket that closes
it. -/
theorem operand_ends_group {opening closing : Token} {inner : Expr}
    (hopening : opening.kind = .leftParen) (hclosing : closing.kind = .rightParen)
    (hread : (expression limits (load.deeper groupFrames) tokens).Ends inner (closing :: rest)) :
    (operand limits load (opening :: tokens)).Ends (.grouping inner (some opening)) rest := by
  have hsign : ¬ opening.kind.isPrefixOperator = true := by
    simp [hopening, Kind.isPrefixOperator]
  have hliteral : ¬ opening.kind.isLiteral = true := by simp [hopening, Kind.isLiteral]
  have hname : ¬ opening.kind = .identifier := by simp [hopening]
  obtain ⟨further, hread⟩ := hread
  rw [operand, if_neg hsign, if_neg hliteral, if_neg hname, if_pos hopening, hread]
  simp only [Reading.expect, if_pos hclosing]
  exact Reading.ends_done.mpr ⟨rfl, rfl⟩

/-- The reader of a phrase class takes in whatever the class derives, as long
as no tighter operator follows. -/
theorem Derivation.arrives {phrase : Phrase} (derivation : Derivation phrase) :
    ∀ load rest, derivation.tree.Fits limits load → Stops phrase.height rest →
      Arrives limits load phrase.tier (derivation.yield ++ rest) derivation.tree rest := by
  induction derivation with
  | only layer single ih =>
      intro load rest hfits hstops
      obtain ⟨tier, hphrase, hoperand, rfl⟩ := layer.exists_tier
      rw [layer.height_eq] at hstops
      have hends := (ih load rest hfits (hstops.mono (Nat.le_succ _))).ends
        (by rwa [height_ofTier_tier])
      rw [hoperand] at hends
      rw [hphrase]
      exact tiered_of_tighter hends
  | join layer left operator hoperator right ihLeft ihRight =>
      intro load rest hfits hstops
      obtain ⟨hleftFits, hrightFits⟩ := hfits
      obtain ⟨tier, hphrase, hoperand, rfl⟩ := layer.exists_tier
      have hown := (layer.mem_iff operator.kind).mp hoperator
      -- The left part is followed by an operator of its own layer, so the loop goes on.
      have hleft := ihLeft load (operator :: (right.yield ++ rest)) hleftFits
        (stops_cons (Nat.le_of_eq hown.symm) _)
      rw [layer.height_eq] at hstops
      have hright := (ihRight load rest hrightFits (hstops.mono (Nat.le_succ _))).ends
        (by rwa [height_ofTier_tier])
      rw [hphrase] at hleft ⊢
      rw [hoperand] at hright
      obtain ⟨shorter, hchain⟩ := hleft
      obtain ⟨shorter', hnext⟩ := chain_of_tighter left.tree shorter hoperator hright
      rw [yield, List.append_assoc, List.cons_append]
      exact ⟨shorter', hchain.trans hnext⟩
  | sign operator hoperator operand ih =>
      intro load rest hfits hstops
      obtain ⟨hadmits, hfits⟩ := hfits
      have hread := ih (load.deeper unaryFrames) rest hfits hstops
      exact operand_ends_sign hoperator hadmits hread
  | plain primary ih =>
      intro load rest hfits hstops
      exact ih load rest hfits hstops
  | literal token htoken =>
      intro load rest _ _
      exact operand_ends_literal htoken
  | reference name hname =>
      intro load rest _ _
      exact operand_ends_reference hname
  | group opening hopening inner closing hclosing ih =>
      intro load rest hfits _
      obtain ⟨hadmits, hfits⟩ := hfits
      have hloose : closing.kind.looseness = 5 := by rw [hclosing]; rfl
      have hstops : Stops 5 (closing :: rest) := stops_cons (Nat.le_of_eq hloose.symm) rest
      have hread := ih (load.deeper groupFrames) (closing :: rest) hfits (hstops.mono (by decide))
      rw [yield, List.cons_append, List.append_assoc, List.singleton_append]
      exact operand_ends_group hopening hclosing (hread.expression_ends hadmits hstops)

/-- An expression is read exactly where the grammar derives one within the
limits. -/
theorem expression_ends_iff {expr : Expr} (hstops : Stops 5 rest) :
    (expression limits load tokens).Ends expr rest ↔
      limits.admits load = true ∧ Covers limits load .equality tokens expr rest := by
  constructor
  · intro hends
    exact (reading_sound limits).1 load tokens expr rest hends
  · rintro ⟨hadmits, derivation, rfl, rfl, hfits⟩
    exact (derivation.arrives load rest hfits (hstops.mono (by decide))).expression_ends hadmits
      hstops

end Grammar

end Lumen
