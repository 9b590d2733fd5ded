import Lumen.Proofs.ProgramPosition

/-!
# Reading moves forward

A reader changes its position in one way only, by a step to the next token, and
takes no step at the end token.  So the positions that it takes are numbered
through, up to the first end token.  The loop over declarations ends there:
whether a declaration can be read or not, its round uses up a token, and reading
resumes behind the token at fault, so no later mistake is about that token again.
-/

namespace Lumen

namespace Grammar

namespace Reader

/-! ## The trail of a reader -/

/-- The position at the end of a reading, whether it was interrupted or not. -/
def final {α : Type} : EStateM.Result Interrupt Nat α → Nat
  | .ok _ position => position
  | .error _ position => position

/-- The positions that a reader takes one after the other, from a position on.
Looking at a token, giving a phrase and failing leave the position as it is. -/
inductive Trail (tokens : List Token) : {α : Type} → Reader α → Nat → List Nat → Prop
  | give {α : Type} (value : α) (position : Nat) : Trail tokens (pure value) position []
  | fail {α : Type} (interrupt : Interrupt) (position : Nat) :
      Trail tokens (throw interrupt : Reader α) position []
  | look (position : Nat) : Trail tokens (current tokens) position []
  | lookBack (position : Nat) : Trail tokens (previous tokens) position []
  | step (position : Nat) : Trail tokens (modify (· + 1)) position [position + 1]
  | andThen {α β : Type} {reader : Reader α} {next : α → Reader β} {position behind : Nat}
      {phrase : α} {taken later : List Nat} (hreader : Trail tokens reader position taken)
      (hresult : reader position = .ok phrase behind)
      (hnext : Trail tokens (next phrase) behind later) :
      Trail tokens (reader >>= next) position (taken ++ later)
  | interrupted {α β : Type} {reader : Reader α} {next : α → Reader β} {position behind : Nat}
      {interrupt : Interrupt} {taken : List Nat} (hreader : Trail tokens reader position taken)
      (hresult : reader position = .error interrupt behind) :
      Trail tokens (reader >>= next) position taken
  | caught {α : Type} {reader : Reader α} {position : Nat} {taken : List Nat}
      (hreader : Trail tokens reader position taken) : Trail tokens (caught reader) position taken

section Trails

variable {α β : Type} {tokens : List Token} {limits : Limits}

theorem final_caught (reader : Reader α) (position : Nat) :
    final (caught reader position) = final (reader position) := by
  rw [caught]
  split <;> simp_all [final]

theorem range'_of_final_eq {position last : Nat} (hstays : last = position) :
    position ≤ last ∧ [] = List.range' (position + 1) (last - position) := by
  simp [hstays]

/-- The positions on a trail follow one another without a gap. -/
theorem Trail.eq_range' {reader : Reader α} {position : Nat} {taken : List Nat}
    (htrail : Trail tokens reader position taken) :
    position ≤ final (reader position) ∧
      taken = List.range' (position + 1) (final (reader position) - position) := by
  induction htrail with
  | give value position => exact range'_of_final_eq rfl
  | fail interrupt position => exact range'_of_final_eq rfl
  | look position =>
      apply range'_of_final_eq
      rw [current]
      split <;> rfl
  | lookBack position =>
      apply range'_of_final_eq
      cases position with
      | zero => rfl
      | succ index =>
          rw [previous]
          split <;> rfl
  | step position =>
      have hmoves : final ((modify (· + 1) : Reader PUnit) position) = position + 1 := rfl
      simp [hmoves]
  | @andThen _ _ reader next position behind phrase taken later hreader hresult hnext ihReader
      ihNext =>
      obtain ⟨hle, rfl⟩ := ihReader
      obtain ⟨hle', rfl⟩ := ihNext
      rw [hresult, final] at hle ⊢
      rw [bind_ok hresult]
      refine ⟨hle.trans hle', ?_⟩
      have hstart : behind + 1 = position + 1 + 1 * (behind - position) := by omega
      rw [hstart, List.range'_append]
      congr 1
      omega
  | interrupted hreader hresult ih =>
      rw [bind_error hresult]
      rwa [hresult] at ih
  | caught hreader ih =>
      rwa [final_caught]

/-- A reader that is made of looks and steps. -/
def Steps (tokens : List Token) (reader : Reader α) : Prop :=
  ∀ position, ∃ taken, Trail tokens reader position taken

theorem Steps.bind {reader : Reader α} {next : α → Reader β} (hreader : Steps tokens reader)
    (hnext : ∀ phrase, Steps tokens (next phrase)) : Steps tokens (reader >>= next) := by
  intro position
  obtain ⟨taken, htaken⟩ := hreader position
  cases hresult : reader position with
  | error interrupt behind => exact ⟨taken, htaken.interrupted hresult⟩
  | ok phrase behind =>
      obtain ⟨later, hlater⟩ := hnext phrase behind
      exact ⟨taken ++ later, htaken.andThen hresult hlater⟩

theorem Steps.caught {reader : Reader α} (hreader : Steps tokens reader) :
    Steps tokens (caught reader) := by
  intro position
  obtain ⟨taken, htaken⟩ := hreader position
  exact ⟨taken, htaken.caught⟩

theorem steps_pure (value : α) : Steps tokens (pure value) :=
  fun position => ⟨[], .give value position⟩

theorem steps_throw (interrupt : Interrupt) : Steps tokens (throw interrupt : Reader α) :=
  fun position => ⟨[], .fail interrupt position⟩

theorem steps_current : Steps tokens (current tokens) :=
  fun position => ⟨[], .look position⟩

theorem steps_previous : Steps tokens (previous tokens) :=
  fun position => ⟨[], .lookBack position⟩

theorem steps_atEnd : Steps tokens (atEnd tokens) :=
  steps_current.bind fun _ => steps_pure _

theorem steps_advance : Steps tokens (advance tokens) := by
  apply steps_atEnd.bind
  intro ends
  have hstep : Steps tokens (modify (· + 1)) := fun position => ⟨[position + 1], .step position⟩
  split
  · exact steps_previous
  · exact hstep.bind fun _ => steps_previous

theorem steps_accept (condition : Kind → Bool) : Steps tokens (accept tokens condition) := by
  apply steps_atEnd.bind
  intro ends
  split
  · exact steps_pure none
  · apply steps_current.bind
    intro token
    split
    · exact steps_advance.bind fun accepted => steps_pure (some accepted)
    · exact steps_pure none

theorem steps_consume (kind : Kind) (fault : GrammarFault) :
    Steps tokens (consume tokens kind fault) := by
  apply (steps_accept _).bind
  intro accepted
  split
  · exact steps_pure _
  · exact steps_throw _

theorem steps_enter (load : Load) : Steps tokens (enter limits load) := by
  unfold enter
  split
  · exact steps_throw _
  · split
    · exact steps_throw _
    · exact steps_pure ()

theorem steps_primary {inside : Reader Expr} (hinside : Steps tokens inside) :
    Steps tokens (primary tokens inside) := by
  apply (steps_accept _).bind
  intro literal
  split
  · exact steps_pure _
  · apply (steps_accept _).bind
    intro name
    split
    · exact steps_pure _
    · apply (steps_accept _).bind
      intro paren
      split
      · exact hinside.bind fun inner => (steps_consume _ _).bind fun _ => steps_pure _
      · exact steps_throw _

/-- Each phrase of an expression is read by looks and steps, with whatever fuel. -/
theorem steps_phrases (tokens : List Token) (limits : Limits) (fuel : Nat) :
    (∀ load, Steps tokens (expression tokens limits fuel load)) ∧
    (∀ load tier, Steps tokens (tiered tokens limits fuel load tier)) ∧
    (∀ load tier left, Steps tokens (chain tokens limits fuel load tier left)) ∧
    (∀ load, Steps tokens (operand tokens limits fuel load)) := by
  induction fuel with
  | zero =>
      refine ⟨fun load => ?_, fun load tier => ?_, fun load tier left => ?_, fun load => ?_⟩
      · rw [expression]
        exact steps_throw _
      · rw [tiered]
        exact steps_throw _
      · rw [chain]
        exact steps_throw _
      · rw [operand]
        exact steps_throw _
  | succ fuel ih =>
      obtain ⟨hexpression, htiered, hchain, hoperand⟩ := ih
      refine ⟨fun load => ?_, fun load tier => ?_, fun load tier left => ?_, fun load => ?_⟩
      · rw [expression]
        exact (steps_enter load).bind fun _ => htiered load _
      · cases tier with
        | none =>
            rw [tiered]
            exact hoperand load
        | some tier =>
            rw [tiered]
            exact (htiered load _).bind fun left => hchain load tier left
      · rw [chain]
        apply (steps_accept _).bind
        intro operator
        split
        · exact (htiered load _).bind fun right => hchain load tier _
        · exact steps_pure left
      · rw [operand]
        apply (steps_accept _).bind
        intro operator
        split
        · exact (steps_enter _).bind fun _ => (hoperand _).bind fun inner => steps_pure _
        · exact steps_primary (hexpression _)

variable (fuel : Nat)

theorem steps_closedExpression (fault : GrammarFault) :
    Steps tokens (closedExpression tokens limits fuel fault) :=
  ((steps_phrases tokens limits fuel).1 outermost).bind fun value =>
    (steps_consume _ fault).bind fun _ => steps_pure value

theorem steps_initializer : Steps tokens (initializer tokens limits fuel) := by
  apply (steps_accept _).bind
  intro equal
  split
  · exact (steps_closedExpression fuel _).bind fun value => steps_pure _
  · exact (steps_consume _ _).bind fun _ => steps_pure _

/-- A declaration is read by looks and steps. -/
theorem steps_declaration : Steps tokens (declaration tokens limits fuel) := by
  apply (steps_accept _).bind
  intro word
  split
  · exact (steps_consume _ _).bind fun name =>
      (steps_initializer fuel).bind fun initial => steps_pure _
  · apply (steps_accept _).bind
    intro word
    split
    · exact (steps_closedExpression fuel _).bind fun value => steps_pure _
    · exact (steps_closedExpression fuel _).bind fun value => steps_pure _

theorem steps_skip : Steps tokens (skip tokens fuel) := by
  induction fuel with
  | zero => exact steps_throw _
  | succ fuel ih =>
      apply steps_atEnd.bind
      intro ends
      split
      · exact steps_pure ()
      · apply steps_previous.bind
        intro before
        split
        · exact steps_pure ()
        · apply steps_current.bind
          intro token
          split
          · exact steps_pure ()
          · exact steps_advance.bind fun _ => ih

/-- A whole program is read by looks and steps. -/
theorem steps_program (rounds : Nat) : Steps tokens (program tokens limits fuel rounds) := by
  induction rounds with
  | zero => exact steps_throw _
  | succ rounds ih =>
      apply steps_atEnd.bind
      intro ends
      split
      · exact steps_pure _
      · apply (steps_declaration fuel).caught.bind
        intro outcome
        split
        · exact ih.bind fun later => steps_pure _
        · apply steps_current.bind
          intro token
          apply (steps_advance.bind fun _ => steps_skip fuel).bind
          intro _
          exact ih.bind fun later => steps_pure _

end Trails

/-! ## Rounds of the loop -/

/-- What comes of a declaration: a statement, or a fault at the token with an index. -/
inductive Outcome where
  | statement (stmt : Stmt)
  | mistake (fault : GrammarFault) (index : Nat)

/-- A round of the loop over declarations, with the positions where it begins and
where the next one begins. -/
structure Round where
  start : Nat
  outcome : Outcome
  next : Nat

namespace Round

def statement? (round : Round) : Option Stmt :=
  match round.outcome with
  | .statement stmt => some stmt
  | .mistake _ _ => none

def index? (round : Round) : Option Nat :=
  match round.outcome with
  | .statement _ => none
  | .mistake _ index => some index

def error? (tokens : List Token) (round : Round) : Option Diagnostic :=
  match round.outcome with
  | .statement _ => none
  | .mistake fault index =>
      tokens[index]?.map fun token => .about .parsing token fault.message

end Round

section Rounds

variable (tokens : List Token) (limits : Limits) (fuel : Nat)

/-- Reads a declaration, or moves to where reading resumes after an interruption. -/
def declarationOrMistake : Reader Outcome := do
  match ← caught (declaration tokens limits fuel) with
  | .ok stmt => return .statement stmt
  | .error fault =>
      let index ← get
      resume tokens fuel
      return .mistake fault index

/-- Rounds from a position to the end, each from where the one before it ends. -/
inductive Rounds : Nat → List Round → Nat → Prop
  | done {position : Nat} (hend : atEnd tokens position = .ok true position) :
      Rounds position [] position
  | next {start next last : Nat} {outcome : Outcome} {later : List Round}
      (hbefore : atEnd tokens start = .ok false start)
      (hround : declarationOrMistake tokens limits fuel start = .ok outcome next)
      (hlater : Rounds next later last) : Rounds start (⟨start, outcome, next⟩ :: later) last

end Rounds

section Progress

variable {tokens unused rest : List Token} {stop : Token} {position fuel : Nat} {limits : Limits}

theorem declarationOrMistake_done {stmt : Stmt} {next : Nat}
    (hread : caught (declaration tokens limits fuel) position = .ok (.ok stmt) next) :
    declarationOrMistake tokens limits fuel position = .ok (.statement stmt) next := by
  rw [declarationOrMistake, bind_ok hread]
  rfl

theorem declarationOrMistake_failed {fault : GrammarFault} {index : Nat}
    (hread : caught (declaration tokens limits fuel) position = .ok (.error fault) index) :
    declarationOrMistake tokens limits fuel position =
      (resume tokens fuel >>= fun _ => pure (.mistake fault index)) index := by
  rw [declarationOrMistake, bind_ok hread]
  rfl

/-- A round ends behind a declaration, or where reading resumes. -/
theorem declarationOrMistake_cases {outcome : Outcome} {next : Nat}
    (hround : declarationOrMistake tokens limits fuel position = .ok outcome next) :
    (∃ stmt, outcome = .statement stmt ∧
      caught (declaration tokens limits fuel) position = .ok (.ok stmt) next) ∨
    ∃ fault index, outcome = .mistake fault index ∧
      caught (declaration tokens limits fuel) position = .ok (.error fault) index ∧
      resume tokens fuel index = .ok () next := by
  cases hread : caught (declaration tokens limits fuel) position with
  | error interrupt behind =>
      rw [declarationOrMistake, bind_error hread] at hround
      cases hround
  | ok result behind =>
      cases result with
      | ok stmt =>
          rw [declarationOrMistake_done hread] at hround
          cases hround
          exact .inl ⟨stmt, rfl, rfl⟩
      | error fault =>
          cases hresume : resume tokens fuel behind with
          | ok _ last =>
              rw [declarationOrMistake_failed hread, bind_ok hresume] at hround
              cases hround
              exact .inr ⟨fault, behind, rfl, rfl, hresume⟩
          | error interrupt last =>
              rw [declarationOrMistake_failed hread, bind_error hresume] at hround
              cases hround

/-- A round that begins in front of a token ends behind it, and behind the token
at fault unless that is the end token. -/
theorem exists_round (limits : Limits) (hfuel : 10 * tokens.length + 6 < fuel)
    (hstands : Stands tokens stop unused rest position) (hsome : rest ≠ []) :
    ∃ outcome next later,
      declarationOrMistake tokens limits fuel position = .ok outcome next ∧
      Stands tokens stop unused later next ∧ later.length < rest.length ∧
      ∀ index ∈ Round.index? ⟨position, outcome, next⟩, position ≤ index ∧
        (index < next ∨ index = next ∧ later = []) := by
  have hagrees := agrees_declaration limits hfuel hstands hsome
  have hplace := hstands.position_add
  cases hread : Grammar.declaration limits rest with
  | done stmt later shorter =>
      rw [hread] at hagrees
      obtain ⟨next, hresult, hlater⟩ := hagrees
      exact ⟨.statement stmt, next, later, declarationOrMistake_done (caught_done hresult), hlater,
        shorter, by simp [Round.index?]⟩
  | failed fault later within =>
      rw [hread] at hagrees
      obtain ⟨interrupt, index, hresult, htells, hlater⟩ := hagrees
      have hfuel' : tokens.length < fuel := by omega
      obtain ⟨next, hresume, hnext⟩ := resume_stands hfuel' hstands hsome hlater
      have hindex := hlater.position_add
      have hbehind := hnext.position_add
      have hshorter := length_resume_le later
      have hpositive := List.length_pos_of_ne_nil hsome
      have hround := declarationOrMistake_failed (caught_failed hresult htells)
      rw [bind_ok hresume] at hround
      refine ⟨.mistake fault index, next, Grammar.resume later, hround, hnext, by omega, ?_⟩
      rintro _ ⟨⟩
      refine ⟨by omega, ?_⟩
      cases later with
      | nil =>
          rw [Grammar.resume] at hbehind
          exact .inr ⟨by omega, rfl⟩
      | cons first later =>
          left
          rw [List.length_cons] at hindex hshorter
          omega

/-- Rounds that move on from a position to a last one, with mistakes at ever later
tokens. -/
structure Advances (position : Nat) (rounds : List Round) (last : Nat) : Prop where
  moves : ∀ round ∈ rounds, round.start < round.next ∧ round.next ≤ last
  increases : (rounds.filterMap Round.index?).Pairwise (· < ·)
  bounds : ∀ index ∈ rounds.filterMap Round.index?, position ≤ index ∧ index ≤ last

theorem Advances.cons {start next last : Nat} {outcome : Outcome} {later : List Round}
    (hlater : Advances next later last) (hmoves : start < next) (hwithin : next ≤ last)
    (hindex : ∀ index ∈ Round.index? ⟨start, outcome, next⟩, start ≤ index ∧
      (index < next ∨ index = next ∧ later = [])) :
    Advances start (⟨start, outcome, next⟩ :: later) last := by
  have hbounds : ∀ index ∈ later.filterMap Round.index?, start ≤ index ∧ index ≤ last := by
    intro index hmem
    have hbetween := hlater.bounds index hmem
    omega
  cases hfault : Round.index? ⟨start, outcome, next⟩ with
  | none =>
      refine ⟨List.forall_mem_cons.mpr ⟨⟨hmoves, hwithin⟩, hlater.moves⟩, ?_, ?_⟩
      · rw [List.filterMap_cons_none hfault]
        exact hlater.increases
      · rw [List.filterMap_cons_none hfault]
        exact hbounds
  | some index =>
      obtain ⟨hbehind, hplace⟩ := hindex index hfault
      refine ⟨List.forall_mem_cons.mpr ⟨⟨hmoves, hwithin⟩, hlater.moves⟩, ?_, ?_⟩
      · rw [List.filterMap_cons_some hfault]
        refine .cons ?_ hlater.increases
        intro other hmem
        rcases hplace with hless | ⟨-, rfl⟩
        · have hbetween := hlater.bounds other hmem
          omega
        · cases hmem
      · rw [List.filterMap_cons_some hfault]
        refine List.forall_mem_cons.mpr ⟨⟨hbehind, ?_⟩, hbounds⟩
        omega

/-- The loop comes to the end token.  Every round moves on, and no two rounds have
a mistake at the same token. -/
theorem exists_rounds (limits : Limits) (hfuel : 10 * tokens.length + 6 < fuel)
    (hstands : Stands tokens stop unused rest position) :
    ∃ rounds last, Rounds tokens limits fuel position rounds last ∧
      Stands tokens stop unused [] last ∧ rounds.length ≤ rest.length ∧
      Advances position rounds last := by
  induction hlength : rest.length using Nat.strong_induction_on generalizing rest position with
  | _ length ih =>
  subst hlength
  by_cases hnone : rest = []
  · subst hnone
    exact ⟨[], position, .done (atEnd_stands hstands), hstands, Nat.le_refl 0,
      by simp, .nil, by simp⟩
  · obtain ⟨outcome, next, later, hround, hnext, hshorter, hindex⟩ :=
      exists_round limits hfuel hstands hnone
    obtain ⟨rounds, last, hrounds, hlast, hcount, hadvances⟩ := ih later.length hshorter hnext rfl
    have hbefore : atEnd tokens position = .ok false position := by
      rw [atEnd_stands hstands, List.isEmpty_eq_false_iff.mpr hnone]
    have hstart := hstands.position_add
    have hplace := hnext.position_add
    have hend := hlast.position_add
    rw [List.length_nil] at hend
    refine ⟨⟨position, outcome, next⟩ :: rounds, last, .next hbefore hround hrounds, hlast, ?_, ?_⟩
    · rw [List.length_cons]
      omega
    · refine hadvances.cons (by omega) (by omega) ?_
      intro index hmem
      obtain ⟨hbehind, hless | ⟨hsame, rfl⟩⟩ := hindex index hmem
      · exact ⟨hbehind, .inl hless⟩
      · -- Nothing is left behind a mistake at the end token.
        exact ⟨hbehind, .inr ⟨hsame, List.eq_nil_of_length_eq_zero (Nat.le_zero.mp hcount)⟩⟩

/-- What the loop gives is what its rounds come to. -/
theorem Rounds.program_eq {rounds : List Round} {last : Nat}
    (hrounds : Rounds tokens limits fuel position rounds last)
    (hinside : ∀ index ∈ rounds.filterMap Round.index?, index < tokens.length) {count : Nat}
    (hcount : rounds.length < count) :
    program tokens limits fuel count position =
      .ok (rounds.filterMap Round.statement?, rounds.filterMap (Round.error? tokens)) last := by
  induction hrounds generalizing count with
  | done hend =>
      obtain ⟨count, rfl⟩ := Nat.exists_eq_succ_of_ne_zero (Nat.ne_zero_of_lt hcount)
      rw [program, bind_ok hend]
      rfl
  | next hbefore hround hlater ih =>
      obtain ⟨count, rfl⟩ := Nat.exists_eq_succ_of_ne_zero (Nat.ne_zero_of_lt hcount)
      have hcount' := Nat.lt_of_succ_lt_succ hcount
      rw [program, bind_ok hbefore]
      simp only [Bool.false_eq_true, if_false]
      rcases declarationOrMistake_cases hround with
        ⟨stmt, rfl, hread⟩ | ⟨fault, index, rfl, hread, hresume⟩
      · rw [bind_ok hread]
        simp only
        rw [bind_ok (ih hinside hcount')]
        rfl
      · simp only [List.filterMap_cons, Round.index?, List.forall_mem_cons] at hinside
        have hindex := List.getElem?_eq_getElem hinside.1
        have hcurrent : current tokens index = .ok tokens[index] index := by
          rw [current, hindex]
        rw [bind_ok hread]
        simp only
        rw [bind_ok hcurrent, bind_ok hresume, bind_ok (ih hinside.2 hcount')]
        simp only [List.filterMap_cons, Round.statement?, Round.error?, hindex, Option.map_some]
        rfl

end Progress

end Reader

/-! ## The end of the tokens -/

theorem findIdx_closed (tokens : List Token) :
    (closed tokens).findIdx (·.kind == .eof) = (Sentence.ofTokens tokens).body.length := by
  obtain ⟨unused, hclosed⟩ := exists_closed tokens
  have hstands := stands_closed hclosed
  have hbody : (Sentence.ofTokens tokens).body.findIdx (·.kind == .eof) =
      (Sentence.ofTokens tokens).body.length :=
    List.findIdx_eq_length.mpr fun token hmem => by simpa using hstands.inside token hmem
  rw [hclosed, List.findIdx_append, hbody, if_neg (Nat.lt_irrefl _), List.findIdx_cons]
  simp [hstands.stops]

/-- What stands behind the first end token does not belong to the sentence. -/
theorem sentence_take (tokens : List Token) :
    Sentence.ofTokens (tokens.take ((Sentence.ofTokens tokens).body.length + 1)) =
      Sentence.ofTokens tokens := by
  cases hfind : tokens.find? (·.kind == .eof) with
  | none =>
      have hbody : (Sentence.ofTokens tokens).body = tokens :=
        List.takeWhile_eq_self_iff.mpr (by simpa using List.find?_eq_none.mp hfind)
      rw [hbody, List.take_of_length_le (Nat.le_succ _)]
  | some stop =>
      obtain ⟨hstop, before, after, rfl, hbefore⟩ := List.find?_eq_some_iff_append.mp hfind
      have hbefore' : ∀ token ∈ before, token.kind ≠ .eof := by simpa using hbefore
      have hstop' : stop.kind = .eof := by simpa using hstop
      have htake : (before ++ stop :: after).take (before.length + 1) = before ++ [stop] := by
        simp [List.take_append]
      rw [Sentence.ofTokens_append_cons hbefore' hstop', htake,
        Sentence.ofTokens_append hbefore' hstop']

end Grammar

namespace Program

open Grammar

/-- A program is what the rounds of its reading come to. -/
theorem exists_rounds_ofTokens (limits : Limits) (tokens : List Token) :
    let stop := (Sentence.ofTokens tokens).body.length
    let found := ofTokens limits tokens
    ∃ rounds, Reader.Rounds (closed tokens) limits (fuel tokens) 0 rounds stop ∧
      Reader.program (closed tokens) limits (fuel tokens) (fuel tokens) 0 =
        .ok (found.statements, found.errors) stop ∧
      found.statements = rounds.filterMap Reader.Round.statement? ∧
      found.errors = rounds.filterMap (Reader.Round.error? (closed tokens)) ∧
      Reader.Advances 0 rounds stop := by
  intro stop found
  obtain ⟨unused, hclosed⟩ := exists_closed tokens
  have hstands := stands_closed hclosed
  obtain ⟨rounds, last, hrounds, hlast, hcount, hadvances⟩ :=
    Reader.exists_rounds limits (lt_fuel tokens) hstands
  have hstart := hstands.position_add
  have hplace := hlast.position_add
  rw [List.length_nil] at hplace
  have hend : last = stop := by omega
  have hinside : ∀ index ∈ rounds.filterMap Reader.Round.index?,
      index < (closed tokens).length := by
    intro index hmem
    have hbounds := hadvances.bounds index hmem
    omega
  have hfuel : rounds.length < fuel tokens := by
    rw [fuel]
    omega
  have hprogram := hrounds.program_eq hinside hfuel
  have hfound : found = ⟨rounds.filterMap Reader.Round.statement?,
      rounds.filterMap (Reader.Round.error? (closed tokens)), last⟩ := by
    have hattempt := attempt_eq limits tokens
    rw [attempt, hprogram] at hattempt
    exact (Except.ok.inj hattempt).symm
  subst hend
  rw [hfound]
  exact ⟨rounds, hrounds, hprogram, rfl, rfl, hadvances⟩

/-- A round from anywhere in front of the end token uses up a token. -/
theorem exists_round_of_lt (limits : Limits) {tokens : List Token} {position : Nat}
    (hposition : position < (Sentence.ofTokens tokens).body.length) :
    ∃ outcome next,
      Reader.declarationOrMistake (closed tokens) limits (fuel tokens) position =
        .ok outcome next ∧
      position < next ∧ next ≤ (Sentence.ofTokens tokens).body.length := by
  obtain ⟨unused, hclosed⟩ := exists_closed tokens
  have hstart := stands_closed hclosed
  have hstands := hstart.of_suffix (List.drop_suffix position (Sentence.ofTokens tokens).body)
  rw [List.length_drop, Nat.sub_sub_self hposition.le] at hstands
  have hsome : (Sentence.ofTokens tokens).body.drop position ≠ [] := by
    simpa using hposition
  obtain ⟨outcome, next, later, hround, hnext, hshorter, -⟩ :=
    Reader.exists_round limits (lt_fuel tokens) hstands hsome
  have htotal := hstart.position_add
  have hplace := hstands.position_add
  have hplace' := hnext.position_add
  exact ⟨outcome, next, hround, by omega, by omega⟩

/-- Reading any tokens under any limits comes to its end at the first end token,
which is added where the tokens do not end with one.  On the way the position
takes each value up to there once and in order.  A round of the loop uses up a
token from wherever it begins, and comes to a statement or to a diagnostic.  Each
diagnostic is about a token behind that of the one before it.  What stands behind
the first end token changes nothing. -/
theorem reading_progresses (limits : Limits) (tokens : List Token) :
    let all := closed tokens
    let stop := all.findIdx (·.kind == .eof)
    let reader := Reader.program all limits (fuel tokens) (fuel tokens)
    let round := Reader.declarationOrMistake all limits (fuel tokens)
    let found := ofTokens limits tokens
    stop < all.length ∧
    reader 0 = .ok (found.statements, found.errors) stop ∧ found.position = stop ∧
    (∃ trail, Reader.Trail all reader 0 trail) ∧
    (∀ trail, Reader.Trail all reader 0 trail → trail = List.range' 1 stop) ∧
    (∀ position < stop, ∃ outcome next, round position = .ok outcome next ∧
      position < next ∧ next ≤ stop) ∧
    (∃ rounds, Reader.Rounds all limits (fuel tokens) 0 rounds stop ∧
      found.statements = rounds.filterMap Reader.Round.statement? ∧
      found.errors = rounds.filterMap (Reader.Round.error? all) ∧
      Reader.Advances 0 rounds stop) ∧
    ofTokens limits (tokens.take (stop + 1)) = found := by
  intro all stop reader round found
  have hstop : stop = (Sentence.ofTokens tokens).body.length := findIdx_closed tokens
  obtain ⟨rounds, hrounds, hreader, hstatements, herrors, hadvances⟩ :=
    exists_rounds_ofTokens limits tokens
  rw [← hstop] at hrounds hreader hadvances
  replace hreader : reader 0 = .ok (found.statements, found.errors) stop := hreader
  have htrail : ∀ trail, Reader.Trail all reader 0 trail → trail = List.range' 1 stop := by
    intro trail htrail
    have hrange := htrail.eq_range'.2
    rwa [hreader] at hrange
  have hlength : stop < all.length := by
    obtain ⟨unused, hclosed⟩ := exists_closed tokens
    have hplace := (stands_closed hclosed).position_add
    change stop < (closed tokens).length
    omega
  have hcut : ofTokens limits (tokens.take (stop + 1)) = found := by
    rw [hstop]
    simp only [found, ofTokens, sentence_take]
  refine ⟨hlength, hreader, ?_, Reader.steps_program (fuel tokens) (fuel tokens) 0, htrail, ?_,
    ⟨rounds, hrounds, hstatements, herrors, hadvances⟩, hcut⟩
  · rw [hstop]
    exact position_ofTokens limits tokens
  · intro position hposition
    rw [hstop] at hposition ⊢
    exact exists_round_of_lt limits hposition

end Program

end Lumen
