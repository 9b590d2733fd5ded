import Lumen.Proofs.CursorScan
import Lumen.Proofs.Recovery

/-!
# Reading with a position

A reader that owns a list of tokens and a position in it asks for every token
by its position.  It can be interrupted: by a mistake in the source, by an
exhausted stack, or because it asks for a token where there is none or does not
come to an end.  The list has an end token, and the reader never moves beyond
it, so only the first two interruptions happen to an expression.  They happen
where an expression cannot be read off the tokens in front of the position, and
the reader stands at the token at fault then.
-/

namespace Lumen

namespace Grammar

/-- What ends the reading of a phrase early. -/
inductive Interrupt where
  | mistake (fault : GrammarFault)
  | overflow
  | crash (crash : Crash)
  deriving DecidableEq

/-- Whether an interruption is what a fault is about. -/
def Interrupt.Tells (interrupt : Interrupt) (fault : GrammarFault) : Prop :=
  interrupt = .mistake fault ∨ interrupt = .overflow ∧ fault = .tooDeep

/-- A way to read on from a position. -/
abbrev Reader := EStateM Interrupt Nat

namespace Reader

variable (tokens : List Token)

def current : Reader Token := fun position =>
  match tokens[position]? with
  | some token => .ok token position
  | none => .error (.crash (.token position)) position

def previous : Reader Token := fun position =>
  match position with
  | 0 => .error (.crash (.token 0)) 0
  | index + 1 =>
      match tokens[index]? with
      | some token => .ok token (index + 1)
      | none => .error (.crash (.token index)) (index + 1)

def atEnd : Reader Bool := do
  let token ← current tokens
  return token.kind == .eof

/-- Moves on, except at the end, and gives the token in front. -/
def advance : Reader Token := do
  if ← atEnd tokens then previous tokens
  else
    modify (· + 1)
    previous tokens

/-- Moves on and gives the token in front, if its kind meets a condition. -/
def accept (condition : Kind → Bool) : Reader (Option Token) := do
  if ← atEnd tokens then return none
  else
    let token ← current tokens
    if condition token.kind then
      let accepted ← advance tokens
      return some accepted
    else return none

def consume (kind : Kind) (fault : GrammarFault) : Reader Token := do
  match ← accept tokens (· == kind) with
  | some token => return token
  | none => throw (.mistake fault)

def enter (limits : Limits) (load : Load) : Reader Unit :=
  if !limits.holdsDepth load then throw (.mistake .tooDeep)
  else if !limits.holdsFrames load then throw .overflow
  else return

/-- Reads a literal, a name or a bracket with what `inside` reads. -/
def primary (inside : Reader Expr) : Reader Expr := do
  match ← accept tokens Kind.isLiteral with
  | some token => return .literal token.literal
  | none =>
    match ← accept tokens (· == .identifier) with
    | some name => return .reference name
    | none =>
      match ← accept tokens (· == .leftParen) with
      | some paren =>
          let inner ← inside
          let _ ← consume tokens .rightParen .expectedClosingParen
          return .grouping inner (some paren)
      | none => throw (.mistake .expectedExpression)

mutual

def expression (limits : Limits) : Nat → Load → Reader Expr
  | 0, _ => throw (.crash .endless)
  | fuel + 1, load => do
      enter limits load
      tiered limits fuel load (some .equality)

def tiered (limits : Limits) : Nat → Load → Option Tier → Reader Expr
  | 0, _, _ => throw (.crash .endless)
  | fuel + 1, load, none => operand limits fuel load
  | fuel + 1, load, some tier => do
      let left ← tiered limits fuel load tier.tighter
      chain limits fuel load tier left

def chain (limits : Limits) : Nat → Load → Tier → Expr → Reader Expr
  | 0, _, _, _ => throw (.crash .endless)
  | fuel + 1, load, tier, left => do
      match ← accept tokens (· ∈ tier.operators) with
      | some operator =>
          let right ← tiered limits fuel load tier.tighter
          chain limits fuel load tier (.binary left operator right)
      | none => return left

def operand (limits : Limits) : Nat → Load → Reader Expr
  | 0, _ => throw (.crash .endless)
  | fuel + 1, load => do
      match ← accept tokens Kind.isPrefixOperator with
      | some operator =>
          enter limits (load.deeper unaryFrames)
          let inner ← operand limits fuel (load.deeper unaryFrames)
          return .unary operator inner
      | none => primary tokens (expression limits fuel (load.deeper groupFrames))

end

/-! ## Places -/

section Steps

variable {α β : Type} {position behind : Nat} {reader : Reader α} {next : α → Reader β}

theorem bind_ok {phrase : α} (hreader : reader position = .ok phrase behind) :
    (reader >>= next) position = next phrase behind := by
  simp only [bind, EStateM.bind, hreader]

theorem bind_error {interrupt : Interrupt} (hreader : reader position = .error interrupt behind) :
    (reader >>= next) position = .error interrupt behind := by
  simp only [bind, EStateM.bind, hreader]

end Steps

/-- The position is in front of `rest`, behind which the first end token stands. -/
structure Stands (tokens : List Token) (stop : Token) (unused rest : List Token)
    (position : Nat) : Prop where
  ahead : tokens.drop position = rest ++ stop :: unused
  inside : ∀ token ∈ rest, token.kind ≠ .eof
  stops : stop.kind = .eof

section Places

variable {tokens unused rest : List Token} {stop first : Token} {position : Nat}

theorem Stands.tail (hstands : Stands tokens stop unused (first :: rest) position) :
    Stands tokens stop unused rest (position + 1) := by
  refine ⟨?_, fun token hmem => hstands.inside token (List.mem_cons_of_mem _ hmem), hstands.stops⟩
  rw [← List.drop_drop, hstands.ahead]
  rfl

/-- At the position stands the next token, or the end token. -/
theorem Stands.getElem? (hstands : Stands tokens stop unused rest position) :
    tokens[position]? = some (rest.headD stop) := by
  have hfront : (tokens.drop position)[0]? = (rest ++ stop :: unused)[0]? := by
    rw [hstands.ahead]
  rw [List.getElem?_drop, Nat.add_zero] at hfront
  rw [hfront]
  cases rest <;> rfl

theorem current_stands (hstands : Stands tokens stop unused rest position) :
    current tokens position = .ok (rest.headD stop) position := by
  rw [current, hstands.getElem?]

theorem previous_stands (hstands : Stands tokens stop unused rest position) :
    previous tokens (position + 1) = .ok (rest.headD stop) (position + 1) := by
  rw [previous, hstands.getElem?]

theorem atEnd_stands (hstands : Stands tokens stop unused rest position) :
    atEnd tokens position = .ok rest.isEmpty position := by
  rw [atEnd, bind_ok (current_stands hstands)]
  cases rest with
  | nil => simp [pure, EStateM.pure, hstands.stops]
  | cons first rest =>
      have hkind := hstands.inside first List.mem_cons_self
      simp [pure, EStateM.pure, hkind]

theorem advance_cons (hstands : Stands tokens stop unused (first :: rest) position) :
    advance tokens position = .ok first (position + 1) := by
  rw [advance, bind_ok (atEnd_stands hstands)]
  exact previous_stands hstands

theorem accept_cons (hstands : Stands tokens stop unused (first :: rest) position)
    {condition : Kind → Bool} (hcondition : condition first.kind = true) :
    accept tokens condition position = .ok (some first) (position + 1) := by
  rw [accept, bind_ok (atEnd_stands hstands)]
  simp only [List.isEmpty_cons, Bool.false_eq_true, if_false]
  rw [bind_ok (current_stands hstands)]
  simp only [List.headD_cons, hcondition, if_true]
  rw [bind_ok (advance_cons hstands)]
  rfl

theorem accept_none (hstands : Stands tokens stop unused rest position) {condition : Kind → Bool}
    (hcondition : ∀ token ∈ rest.head?, condition token.kind = false) :
    accept tokens condition position = .ok none position := by
  rw [accept, bind_ok (atEnd_stands hstands)]
  cases rest with
  | nil => rfl
  | cons first rest =>
      have hfirst := hcondition first rfl
      simp only [List.isEmpty_cons, Bool.false_eq_true, if_false]
      rw [bind_ok (current_stands hstands)]
      simp only [List.headD_cons, hfirst, Bool.false_eq_true, if_false]
      rfl

end Places

/-! ## Phrases -/

section Phrases

variable {α β : Type} {limits : Limits} {tokens unused : List Token} {stop : Token}

theorem enter_of_admits {load : Load} (hadmits : limits.admits load = true) (position : Nat) :
    enter limits load position = .ok () position := by
  obtain ⟨hdepth, hframes⟩ := Bool.and_eq_true_iff.mp hadmits
  simp [enter, hdepth, hframes, pure, EStateM.pure]

/-- Where a limit has no room, entering is interrupted. -/
theorem enter_of_not_admits {load : Load} (hadmits : ¬ limits.admits load = true)
    (position : Nat) :
    ∃ interrupt, enter limits load position = .error interrupt position ∧
      interrupt.Tells .tooDeep := by
  cases hdepth : limits.holdsDepth load with
  | false =>
      refine ⟨.mistake .tooDeep, ?_, .inl rfl⟩
      simp [enter, hdepth, throw, throwThe, MonadExceptOf.throw, EStateM.throw]
  | true =>
      have hframes : limits.holdsFrames load = false := by
        simpa [Limits.admits, hdepth] using hadmits
      refine ⟨.overflow, ?_, .inr ⟨rfl, rfl⟩⟩
      simp [enter, hdepth, hframes, throw, throwThe, MonadExceptOf.throw, EStateM.throw]

/-- Reading from a position ends as a reading off the tokens in front of it. -/
def Agrees (tokens : List Token) (stop : Token) (unused : List Token) {rest : List Token} :
    Reading rest α → EStateM.Result Interrupt Nat α → Prop
  | .done phrase later _, result =>
      ∃ position, result = .ok phrase position ∧ Stands tokens stop unused later position
  | .failed fault later _, result =>
      ∃ interrupt position, result = .error interrupt position ∧ interrupt.Tells fault ∧
        Stands tokens stop unused later position

/-- What interrupts a phrase interrupts what it is the front of. -/
theorem Agrees.interrupted {front whole later : List Token} {fault : GrammarFault}
    {within : later.length ≤ front.length} {within' : later.length ≤ whole.length}
    {reader : Reader α} {next : α → Reader β} {position : Nat}
    (hreading : Agrees tokens stop unused (.failed fault later within) (reader position)) :
    Agrees tokens stop unused (.failed fault later within') ((reader >>= next) position) := by
  obtain ⟨interrupt, behind, hresult, htells, hlater⟩ := hreading
  rw [bind_error hresult]
  exact ⟨interrupt, behind, rfl, htells, hlater⟩

/-- A token is asked for at a position as in the tokens there. -/
theorem agrees_expect (kind : Kind) (fault : GrammarFault) {rest : List Token} {position : Nat}
    (hstands : Stands tokens stop unused rest position) :
    Agrees tokens stop unused (Reading.expect kind fault rest)
      (consume tokens kind fault position) := by
  have hnone : (∀ token ∈ rest.head?, (token.kind == kind) = false) →
      consume tokens kind fault position = .error (.mistake fault) position := by
    intro hother
    rw [consume, bind_ok (accept_none hstands hother)]
    rfl
  cases rest with
  | nil => exact ⟨.mistake fault, position, hnone (by simp), .inl rfl, hstands⟩
  | cons first rest =>
      rw [Reading.expect]
      split
      · next hkind =>
          refine ⟨position + 1, ?_, hstands.tail⟩
          rw [consume, bind_ok (accept_cons hstands (by simpa using hkind))]
          rfl
      · next hkind =>
          exact ⟨.mistake fault, position, hnone (by simpa using hkind), .inl rfl, hstands⟩

section Primary

variable {first : Token} {rest : List Token} {position : Nat} {inside : Reader Expr}

theorem primary_literal (hliteral : first.kind.isLiteral = true)
    (hstands : Stands tokens stop unused (first :: rest) position) :
    primary tokens inside position = .ok (.literal first.literal) (position + 1) := by
  rw [primary, bind_ok (accept_cons hstands hliteral)]
  rfl

theorem primary_name (hliteral : ¬ first.kind.isLiteral = true) (hname : first.kind = .identifier)
    (hstands : Stands tokens stop unused (first :: rest) position) :
    primary tokens inside position = .ok (.reference first) (position + 1) := by
  rw [primary, bind_ok (accept_none hstands (by simpa using hliteral))]
  simp only
  rw [bind_ok (accept_cons hstands (by simpa using hname))]
  rfl

/-- A bracket is read as the expression in it and the token that closes it. -/
theorem primary_group (hliteral : ¬ first.kind.isLiteral = true)
    (hname : ¬ first.kind = .identifier) (hopening : first.kind = .leftParen)
    (hstands : Stands tokens stop unused (first :: rest) position) :
    primary tokens inside position = (do
      let inner ← inside
      let _ ← consume tokens .rightParen .expectedClosingParen
      return .grouping inner (some first) : Reader Expr) (position + 1) := by
  rw [primary, bind_ok (accept_none hstands (by simpa using hliteral))]
  simp only
  rw [bind_ok (accept_none hstands (by simpa using hname))]
  simp only
  rw [bind_ok (accept_cons hstands (by simpa using hopening))]

theorem primary_other {rest : List Token}
    (hother : ∀ token ∈ rest.head?, token.kind.isLiteral = false ∧ token.kind ≠ .identifier ∧
      token.kind ≠ .leftParen) (hstands : Stands tokens stop unused rest position) :
    primary tokens inside position = .error (.mistake .expectedExpression) position := by
  rw [primary, bind_ok (accept_none hstands fun token hmem => (hother token hmem).1)]
  simp only
  rw [bind_ok (accept_none hstands fun token hmem => by simpa using (hother token hmem).2.1)]
  simp only
  rw [bind_ok (accept_none hstands fun token hmem => by simpa using (hother token hmem).2.2)]
  rfl

end Primary

/-- With enough fuel, each phrase is read from a position as it is read off a list. -/
theorem agrees_phrases (limits : Limits) (tokens : List Token) (stop : Token)
    (unused : List Token) :
    (∀ load rest, ∀ fuel position, 10 * rest.length + 6 < fuel →
      Stands tokens stop unused rest position →
      Agrees tokens stop unused (Grammar.expression limits load rest)
        (expression tokens limits fuel load position)) ∧
    (∀ load tier rest, ∀ fuel position, 10 * rest.length + Tier.rank tier + 1 < fuel →
      Stands tokens stop unused rest position →
      Agrees tokens stop unused (Grammar.tiered limits load tier rest)
        (tiered tokens limits fuel load tier position)) ∧
    (∀ load tier start left rest shorter, ∀ fuel position, 10 * rest.length < fuel →
      Stands tokens stop unused rest position →
      Agrees tokens stop unused (Grammar.chain limits load tier start left rest shorter)
        (chain tokens limits fuel load tier left position)) ∧
    (∀ load rest, ∀ fuel position, 10 * rest.length < fuel →
      Stands tokens stop unused rest position →
      Agrees tokens stop unused (Grammar.operand limits load rest)
        (operand tokens limits fuel load position)) := by
  -- The induction is that of the reading off a list.  Each call of it uses up one unit
  -- of fuel, and ten units for a token are more than the calls that read none.
  apply Grammar.expression.mutual_induct limits
  case case1 =>
    intro load rest hadmits ih fuel position hfuel hstands
    obtain ⟨fuel, rfl⟩ := Nat.exists_eq_succ_of_ne_zero (Nat.ne_zero_of_lt hfuel)
    rw [Grammar.expression, if_pos hadmits, expression, bind_ok (enter_of_admits hadmits position)]
    exact ih fuel position (by simp only [Tier.rank]; omega) hstands
  case case2 =>
    intro load rest hadmits fuel position hfuel hstands
    obtain ⟨fuel, rfl⟩ := Nat.exists_eq_succ_of_ne_zero (Nat.ne_zero_of_lt hfuel)
    obtain ⟨interrupt, henter, htells⟩ := enter_of_not_admits hadmits position
    rw [Grammar.expression, if_neg hadmits, expression, bind_error henter]
    exact ⟨interrupt, position, rfl, htells, hstands⟩
  case case3 =>
    intro load rest ih fuel position hfuel hstands
    obtain ⟨fuel, rfl⟩ := Nat.exists_eq_succ_of_ne_zero (Nat.ne_zero_of_lt hfuel)
    rw [Grammar.tiered, tiered]
    exact ih fuel position (by simp only [Tier.rank] at hfuel; omega) hstands
  case case4 =>
    intro load rest tier fault later within hread ih fuel position hfuel hstands
    obtain ⟨fuel, rfl⟩ := Nat.exists_eq_succ_of_ne_zero (Nat.ne_zero_of_lt hfuel)
    have hrank := tier.rank_tighter_lt
    rw [hread] at ih
    rw [Grammar.tiered, hread, tiered]
    exact (ih fuel position (by omega) hstands).interrupted
  case case5 =>
    intro load rest tier left later shorter hread ihTighter ihChain fuel position hfuel hstands
    obtain ⟨fuel, rfl⟩ := Nat.exists_eq_succ_of_ne_zero (Nat.ne_zero_of_lt hfuel)
    have hrank := tier.rank_tighter_lt
    rw [hread] at ihTighter
    obtain ⟨behind, hresult, hlater⟩ := ihTighter fuel position (by omega) hstands
    rw [Grammar.tiered, hread, tiered, bind_ok hresult]
    exact ihChain fuel behind (by omega) hlater
  case case6 =>
    intro load tier start left shorter _ fuel position hfuel hstands
    obtain ⟨fuel, rfl⟩ := Nat.exists_eq_succ_of_ne_zero (Nat.ne_zero_of_lt hfuel)
    rw [Grammar.chain, chain, bind_ok (accept_none hstands (by simp))]
    exact ⟨position, rfl, hstands⟩
  case case7 =>
    intro load tier start left operator after shorter hoperator fault later within hread _ ih fuel
      position hfuel hstands
    obtain ⟨fuel, rfl⟩ := Nat.exists_eq_succ_of_ne_zero (Nat.ne_zero_of_lt hfuel)
    have hrank := Tier.rank_le tier.tighter
    rw [List.length_cons] at hfuel
    rw [hread] at ih
    rw [Grammar.chain, if_pos hoperator, hread, chain,
      bind_ok (accept_cons hstands (decide_eq_true hoperator))]
    exact (ih fuel (position + 1) (by omega) hstands.tail).interrupted
  case case8 =>
    intro load tier start left operator after shorter hoperator right later further hread _
      ihTighter ihChain fuel position hfuel hstands
    obtain ⟨fuel, rfl⟩ := Nat.exists_eq_succ_of_ne_zero (Nat.ne_zero_of_lt hfuel)
    have hrank := Tier.rank_le tier.tighter
    rw [List.length_cons] at hfuel
    rw [hread] at ihTighter
    obtain ⟨behind, hresult, hlater⟩ := ihTighter fuel (position + 1) (by omega) hstands.tail
    rw [Grammar.chain, if_pos hoperator, hread, chain,
      bind_ok (accept_cons hstands (decide_eq_true hoperator))]
    simp only
    rw [bind_ok hresult]
    exact ihChain fuel behind (by omega) hlater
  case case9 =>
    intro load tier start left operator after shorter hoperator _ fuel position hfuel hstands
    obtain ⟨fuel, rfl⟩ := Nat.exists_eq_succ_of_ne_zero (Nat.ne_zero_of_lt hfuel)
    rw [Grammar.chain, if_neg hoperator, chain,
      bind_ok (accept_none hstands (by simpa using hoperator))]
    exact ⟨position, rfl, hstands⟩
  case case10 =>
    intro load fuel position hfuel hstands
    obtain ⟨fuel, rfl⟩ := Nat.exists_eq_succ_of_ne_zero (Nat.ne_zero_of_lt hfuel)
    rw [Grammar.operand, operand, bind_ok (accept_none hstands (by simp))]
    simp only
    rw [primary_other (by simp) hstands]
    exact ⟨.mistake .expectedExpression, position, rfl, .inl rfl, hstands⟩
  case case11 =>
    intro load first more hsign hadmits fault later within hread ih fuel position hfuel hstands
    obtain ⟨fuel, rfl⟩ := Nat.exists_eq_succ_of_ne_zero (Nat.ne_zero_of_lt hfuel)
    rw [List.length_cons] at hfuel
    rw [hread] at ih
    rw [Grammar.operand, if_pos hsign, if_pos hadmits, hread, operand,
      bind_ok (accept_cons hstands hsign)]
    simp only
    rw [bind_ok (enter_of_admits hadmits _)]
    exact (ih fuel (position + 1) (by omega) hstands.tail).interrupted
  case case12 =>
    intro load first more hsign hadmits inner later further hread ih fuel position hfuel hstands
    obtain ⟨fuel, rfl⟩ := Nat.exists_eq_succ_of_ne_zero (Nat.ne_zero_of_lt hfuel)
    rw [List.length_cons] at hfuel
    rw [hread] at ih
    obtain ⟨behind, hresult, hlater⟩ := ih fuel (position + 1) (by omega) hstands.tail
    rw [Grammar.operand, if_pos hsign, if_pos hadmits, hread, operand,
      bind_ok (accept_cons hstands hsign)]
    simp only
    rw [bind_ok (enter_of_admits hadmits _), bind_ok hresult]
    exact ⟨behind, rfl, hlater⟩
  case case13 =>
    intro load first more hsign hadmits fuel position hfuel hstands
    obtain ⟨fuel, rfl⟩ := Nat.exists_eq_succ_of_ne_zero (Nat.ne_zero_of_lt hfuel)
    obtain ⟨interrupt, henter, htells⟩ := enter_of_not_admits hadmits (position + 1)
    rw [Grammar.operand, if_pos hsign, if_neg hadmits, operand,
      bind_ok (accept_cons hstands hsign)]
    simp only
    rw [bind_error henter]
    exact ⟨interrupt, position + 1, rfl, htells, hstands.tail⟩
  case case14 =>
    intro load first more hsign hliteral fuel position hfuel hstands
    obtain ⟨fuel, rfl⟩ := Nat.exists_eq_succ_of_ne_zero (Nat.ne_zero_of_lt hfuel)
    rw [Grammar.operand, if_neg hsign, if_pos hliteral, operand,
      bind_ok (accept_none hstands (by simpa using hsign))]
    exact ⟨position + 1, primary_literal hliteral hstands, hstands.tail⟩
  case case15 =>
    intro load first more hsign hliteral hname fuel position hfuel hstands
    obtain ⟨fuel, rfl⟩ := Nat.exists_eq_succ_of_ne_zero (Nat.ne_zero_of_lt hfuel)
    rw [Grammar.operand, if_neg hsign, if_neg hliteral, if_pos hname, operand,
      bind_ok (accept_none hstands (by simpa using hsign))]
    exact ⟨position + 1, primary_name hliteral hname hstands, hstands.tail⟩
  case case16 =>
    intro load first more hsign hliteral hname hopening fault later within hread ih fuel position
      hfuel hstands
    obtain ⟨fuel, rfl⟩ := Nat.exists_eq_succ_of_ne_zero (Nat.ne_zero_of_lt hfuel)
    rw [List.length_cons] at hfuel
    rw [hread] at ih
    rw [Grammar.operand, if_neg hsign, if_neg hliteral, if_neg hname, if_pos hopening, hread,
      operand, bind_ok (accept_none hstands (by simpa using hsign))]
    simp only
    rw [primary_group hliteral hname hopening hstands]
    exact (ih fuel (position + 1) (by omega) hstands.tail).interrupted
  case case17 =>
    intro load first more hsign hliteral hname hopening inner later further hread fault final
      within hexpect ih fuel position hfuel hstands
    obtain ⟨fuel, rfl⟩ := Nat.exists_eq_succ_of_ne_zero (Nat.ne_zero_of_lt hfuel)
    rw [List.length_cons] at hfuel
    rw [hread] at ih
    obtain ⟨behind, hresult, hlater⟩ := ih fuel (position + 1) (by omega) hstands.tail
    have hclose := agrees_expect .rightParen .expectedClosingParen hlater
    rw [hexpect] at hclose
    rw [Grammar.operand, if_neg hsign, if_neg hliteral, if_neg hname, if_pos hopening, hread,
      operand, bind_ok (accept_none hstands (by simpa using hsign))]
    simp only [hexpect]
    rw [primary_group hliteral hname hopening hstands, bind_ok hresult]
    exact hclose.interrupted
  case case18 =>
    intro load first more hsign hliteral hname hopening inner later further hread closing final
      last hexpect ih fuel position hfuel hstands
    obtain ⟨fuel, rfl⟩ := Nat.exists_eq_succ_of_ne_zero (Nat.ne_zero_of_lt hfuel)
    rw [List.length_cons] at hfuel
    rw [hread] at ih
    obtain ⟨behind, hresult, hlater⟩ := ih fuel (position + 1) (by omega) hstands.tail
    have hclose := agrees_expect .rightParen .expectedClosingParen hlater
    rw [hexpect] at hclose
    obtain ⟨ends, hconsume, hfinal⟩ := hclose
    rw [Grammar.operand, if_neg hsign, if_neg hliteral, if_neg hname, if_pos hopening, hread,
      operand, bind_ok (accept_none hstands (by simpa using hsign))]
    simp only [hexpect]
    rw [primary_group hliteral hname hopening hstands, bind_ok hresult, bind_ok hconsume]
    exact ⟨ends, rfl, hfinal⟩
  case case19 =>
    intro load first more hsign hliteral hname hopening fuel position hfuel hstands
    obtain ⟨fuel, rfl⟩ := Nat.exists_eq_succ_of_ne_zero (Nat.ne_zero_of_lt hfuel)
    rw [Grammar.operand, if_neg hsign, if_neg hliteral, if_neg hname, if_neg hopening, operand,
      bind_ok (accept_none hstands (by simpa using hsign))]
    simp only
    rw [primary_other (by simpa using ⟨Bool.eq_false_iff.mpr hliteral, hname, hopening⟩) hstands]
    exact ⟨.mistake .expectedExpression, position, rfl, .inl rfl, hstands⟩

end Phrases

end Reader

end Grammar

end Lumen
