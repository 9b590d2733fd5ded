import Lumen.Proofs.TokenPosition

/-!
# Programs read with a position

The position of a reader outlives an interruption.  A mistake or an exhausted
stack ends the declaration that is read, becomes a diagnostic about the token at
the position, and reading resumes from there at the next boundary.  No other
interruption happens, so a program is read to its end, and the statements and
diagnostics are those of the tokens.
-/

namespace Lumen

namespace Grammar

namespace Reader

section Definitions

variable (tokens : List Token)

def closedExpression (limits : Limits) (fuel : Nat) (fault : GrammarFault) : Reader Expr := do
  let value ← expression tokens limits fuel outermost
  let _ ← consume tokens .semicolon fault
  return value

def initializer (limits : Limits) (fuel : Nat) : Reader (Option Expr) := do
  match ← accept tokens (· == .equal) with
  | some _ =>
      let value ← closedExpression tokens limits fuel .expectedEndOfDeclaration
      return some value
  | none =>
      let _ ← consume tokens .semicolon .expectedEndOfDeclaration
      return none

def declaration (limits : Limits) (fuel : Nat) : Reader Stmt := do
  match ← accept tokens (· == .varWord) with
  | some _ =>
      let name ← consume tokens .identifier .expectedName
      let initial ← initializer tokens limits fuel
      return .declare name initial
  | none =>
    match ← accept tokens (· == .printWord) with
    | some _ =>
        let value ← closedExpression tokens limits fuel .expectedEndOfPrint
        return .print value
    | none =>
        let value ← closedExpression tokens limits fuel .expectedEndOfStatement
        return .expression value

def caught {α : Type} (reader : Reader α) : Reader (Except GrammarFault α) := fun position =>
  match reader position with
  | .ok phrase behind => .ok (.ok phrase) behind
  | .error (.mistake fault) behind => .ok (.error fault) behind
  | .error .overflow behind => .ok (.error .tooDeep) behind
  | .error (.crash crash) behind => .error (.crash crash) behind

/-- Skips to the next boundary behind the token in front. -/
def skip : Nat → Reader Unit
  | 0 => throw (.crash .endless)
  | fuel + 1 => do
      if ← atEnd tokens then return
      else
        let before ← previous tokens
        if before.kind = .semicolon then return
        else
          let token ← current tokens
          if token.kind.startsStatement then return
          else
            let _ ← advance tokens
            skip fuel

/-- Moves to where reading resumes after an interruption. -/
def resume (fuel : Nat) : Reader Unit := do
  let _ ← advance tokens
  skip tokens fuel

/-- Reads declarations to the end; gives the statements and the diagnostics. -/
def program (limits : Limits) (fuel : Nat) : Nat → Reader (List Stmt × List Diagnostic)
  | 0 => throw (.crash .endless)
  | rounds + 1 => do
      if ← atEnd tokens then return ([], [])
      else
        match ← caught (declaration tokens limits fuel) with
        | .ok stmt =>
            let (stmts, errors) ← program limits fuel rounds
            return (stmt :: stmts, errors)
        | .error fault =>
            let token ← current tokens
            resume tokens fuel
            let (stmts, errors) ← program limits fuel rounds
            return (stmts, .about .parsing token fault.message :: errors)

end Definitions

/-! ## Declarations -/

section Declarations

variable {α β : Type} {limits : Limits} {tokens unused rest : List Token} {stop : Token}
  {position fuel : Nat}

/-- The position and what is in front of it add up to the place of the end token. -/
theorem Stands.position_add (hstands : Stands tokens stop unused rest position) :
    position + rest.length + (unused.length + 1) = tokens.length := by
  have hlength := congrArg List.length hstands.ahead
  rw [List.length_drop, List.length_append, List.length_cons] at hlength
  omega

theorem Stands.length_le (hstands : Stands tokens stop unused rest position) :
    rest.length ≤ tokens.length := by
  have hplace := hstands.position_add
  omega

theorem Agrees.behind {phrase : α} {front : List Token} {shorter : rest.length < front.length}
    {following : α → (later : List Token) → Reading later β}
    {result : EStateM.Result Interrupt Nat β}
    (hagrees : Agrees tokens stop unused (following phrase rest) result) :
    Agrees tokens stop unused ((Reading.done phrase rest shorter).andThen following) result := by
  rw [Reading.andThen]
  cases hread : following phrase rest with
  | done last later further =>
      rw [hread] at hagrees
      exact hagrees
  | failed fault later within =>
      rw [hread] at hagrees
      exact hagrees

/-- Reading on agrees if each of the two readings does. -/
theorem Agrees.andThen {front : List Token} {reading : Reading front α} {reader : Reader α}
    {following : α → (later : List Token) → Reading later β} {next : α → Reader β}
    (hreading : Agrees tokens stop unused reading (reader position))
    (hnext : ∀ phrase later behind, Stands tokens stop unused later behind →
      Agrees tokens stop unused (following phrase later) (next phrase behind)) :
    Agrees tokens stop unused (reading.andThen following) ((reader >>= next) position) := by
  cases reading with
  | failed fault later within => exact hreading.interrupted
  | done phrase later shorter =>
      obtain ⟨behind, hresult, hlater⟩ := hreading
      rw [bind_ok hresult]
      exact (hnext phrase later behind hlater).behind

theorem Agrees.map {front : List Token} {reading : Reading front α} {reader : Reader α}
    (hreading : Agrees tokens stop unused reading (reader position)) (change : α → β) :
    Agrees tokens stop unused (reading.map change)
      ((reader >>= fun phrase => pure (change phrase)) position) := by
  cases reading with
  | failed fault later within => exact hreading.interrupted
  | done phrase later shorter =>
      obtain ⟨behind, hresult, hlater⟩ := hreading
      rw [bind_ok hresult]
      exact ⟨behind, rfl, hlater⟩

/-- Fuel for the whole list is enough for every phrase in it. -/
theorem agrees_closedExpression (hfuel : 10 * tokens.length + 6 < fuel) (fault : GrammarFault)
    (hstands : Stands tokens stop unused rest position) :
    Agrees tokens stop unused (Grammar.closedExpression limits fault rest)
      (closedExpression tokens limits fuel fault position) := by
  have hlength := hstands.length_le
  have hexpression := (agrees_phrases limits tokens stop unused).1 outermost rest fuel position
    (by omega) hstands
  apply hexpression.andThen
  intro value later behind hlater
  exact (agrees_expect .semicolon fault hlater).map fun _ => value

theorem agrees_initializer (hfuel : 10 * tokens.length + 6 < fuel)
    (hstands : Stands tokens stop unused rest position) :
    Agrees tokens stop unused (Grammar.initializer limits rest)
      (initializer tokens limits fuel position) := by
  have hplain : (∀ token ∈ rest.head?, (token.kind == Kind.equal) = false) →
      initializer tokens limits fuel position =
        (do
          let _ ← consume tokens .semicolon .expectedEndOfDeclaration
          return none : Reader (Option Expr)) position := by
    intro hother
    rw [initializer, bind_ok (accept_none hstands hother)]
  cases rest with
  | nil =>
      rw [Grammar.initializer, hplain (by simp)]
      exact (agrees_expect .semicolon .expectedEndOfDeclaration hstands).map fun _ => none
  | cons first rest =>
      rw [Grammar.initializer]
      split
      · next hequal =>
          rw [initializer, bind_ok (accept_cons hstands (by simpa using hequal))]
          have hclosed : Agrees tokens stop unused
              (Grammar.closedExpression limits .expectedEndOfDeclaration rest)
              (closedExpression tokens limits fuel .expectedEndOfDeclaration (position + 1)) :=
            agrees_closedExpression hfuel .expectedEndOfDeclaration hstands.tail
          have hsome := hclosed.map some
          cases hread : Grammar.closedExpression limits .expectedEndOfDeclaration rest with
          | done value later shorter =>
              rw [hread] at hsome
              exact hsome
          | failed fault later within =>
              rw [hread] at hsome
              exact hsome
      · next hequal =>
          rw [hplain (by simpa using hequal)]
          exact (agrees_expect .semicolon .expectedEndOfDeclaration hstands).map fun _ => none

/-- A declaration is read from a position as it is read off the tokens there. -/
theorem agrees_declaration (limits : Limits) (hfuel : 10 * tokens.length + 6 < fuel)
    (hstands : Stands tokens stop unused rest position) (hsome : rest ≠ []) :
    Agrees tokens stop unused (Grammar.declaration limits rest)
      (declaration tokens limits fuel position) := by
  obtain ⟨first, rest, rfl⟩ := List.exists_cons_of_ne_nil hsome
  rw [Grammar.declaration, declaration]
  split
  · next hvar =>
      rw [bind_ok (accept_cons hstands (by simpa using hvar))]
      apply Agrees.behind
      apply (agrees_expect .identifier .expectedName hstands.tail).andThen
      intro name later behind hlater
      exact (agrees_initializer hfuel hlater).map (Stmt.declare name)
  · next hvar =>
      rw [bind_ok (accept_none hstands (by simpa using hvar))]
      simp only
      split
      · next hprint =>
          rw [bind_ok (accept_cons hstands (by simpa using hprint))]
          apply Agrees.behind
          exact (agrees_closedExpression hfuel .expectedEndOfPrint hstands.tail).map Stmt.print
      · next hprint =>
          rw [bind_ok (accept_none hstands (by simpa using hprint))]
          exact (agrees_closedExpression hfuel .expectedEndOfStatement hstands).map
            Stmt.expression

/-! ## Programs -/

theorem caught_done {reader : Reader α} {phrase : α} {behind : Nat}
    (hresult : reader position = .ok phrase behind) :
    caught reader position = .ok (.ok phrase) behind := by
  rw [caught, hresult]

/-- An interruption of a declaration is known by its fault. -/
theorem caught_failed {reader : Reader α} {interrupt : Interrupt} {fault : GrammarFault}
    {behind : Nat} (hresult : reader position = .error interrupt behind)
    (htells : interrupt.Tells fault) : caught reader position = .ok (.error fault) behind := by
  rw [caught, hresult]
  rcases htells with rfl | ⟨rfl, rfl⟩ <;> rfl

theorem Stands.of_suffix {body : List Token} (hstands : Stands tokens stop unused body 0)
    (hsuffix : rest <:+ body) :
    Stands tokens stop unused rest (body.length - rest.length) := by
  obtain ⟨front, rfl⟩ := hsuffix
  have hahead : tokens = front ++ rest ++ stop :: unused := hstands.ahead
  refine ⟨?_, fun token hmem => hstands.inside token (List.mem_append_right _ hmem),
    hstands.stops⟩
  rw [List.length_append, Nat.add_sub_cancel, hahead, List.append_assoc, List.drop_left]

theorem Stands.position_lt {behind : Nat} (hsome : rest ≠ [])
    (hstands : Stands tokens stop unused rest position)
    (hbehind : Stands tokens stop unused [] behind) : position < behind := by
  have hplace := hstands.position_add
  have hplace' := hbehind.position_add
  have hpositive := List.length_pos_of_ne_nil hsome
  rw [List.length_nil] at hplace'
  omega

theorem advance_nil (hpositive : 0 < position)
    (hstands : Stands tokens stop unused [] position) :
    ∃ token, advance tokens position = .ok token position := by
  obtain ⟨index, rfl⟩ := Nat.exists_eq_succ_of_ne_zero (Nat.ne_of_gt hpositive)
  have hindex : index < tokens.length := by
    have hplace := hstands.position_add
    omega
  refine ⟨tokens[index], ?_⟩
  rw [advance, bind_ok (atEnd_stands hstands)]
  simp only [List.isEmpty_nil, if_true, previous, List.getElem?_eq_getElem hindex]

theorem skip_nil (hpositive : 0 < fuel) (hstands : Stands tokens stop unused [] position) :
    skip tokens fuel position = .ok () position := by
  obtain ⟨fuel, rfl⟩ := Nat.exists_eq_succ_of_ne_zero (Nat.ne_of_gt hpositive)
  rw [skip, bind_ok (atEnd_stands hstands)]
  rfl

theorem skip_cons {first : Token} (hfuel : rest.length < fuel)
    (hstands : Stands tokens stop unused (first :: rest) position) :
    ∃ behind, skip tokens fuel (position + 1) = .ok () behind ∧
      Stands tokens stop unused (skipFrom first rest) behind := by
  induction rest generalizing first fuel position with
  | nil => exact ⟨position + 1, skip_nil hfuel hstands.tail, hstands.tail⟩
  | cons second rest ih =>
      obtain ⟨fuel, rfl⟩ := Nat.exists_eq_succ_of_ne_zero (Nat.ne_zero_of_lt hfuel)
      rw [skip, bind_ok (atEnd_stands hstands.tail)]
      simp only [List.isEmpty_cons, Bool.false_eq_true, if_false]
      rw [bind_ok (previous_stands hstands), skipFrom]
      by_cases hsemicolon : first.kind = .semicolon
      · rw [if_pos hsemicolon, List.headD_cons, if_pos hsemicolon]
        exact ⟨position + 1, rfl, hstands.tail⟩
      · rw [if_neg hsemicolon, List.headD_cons, if_neg hsemicolon,
          bind_ok (current_stands hstands.tail), List.headD_cons]
        by_cases hstarts : second.kind.startsStatement = true
        · rw [if_pos hstarts, if_pos hstarts]
          exact ⟨position + 1, rfl, hstands.tail⟩
        · rw [if_neg hstarts, if_neg hstarts, bind_ok (advance_cons hstands.tail)]
          exact ih (Nat.lt_of_succ_lt_succ hfuel) hstands.tail

/-- Resuming from a position leads to where reading resumes in the tokens. -/
theorem resume_stands {start : Nat} {tried : List Token} (hfuel : tokens.length < fuel)
    (htried : Stands tokens stop unused tried start) (hsome : tried ≠ [])
    (hstands : Stands tokens stop unused rest position) :
    ∃ behind, resume tokens fuel position = .ok () behind ∧
      Stands tokens stop unused (Grammar.resume rest) behind := by
  cases rest with
  | nil =>
      -- Something was read before the end, so there is a token in front of it.
      have hless := htried.position_lt hsome hstands
      obtain ⟨token, hadvance⟩ := advance_nil (Nat.zero_lt_of_lt hless) hstands
      refine ⟨position, ?_, hstands⟩
      rw [resume, bind_ok hadvance]
      exact skip_nil (Nat.zero_lt_of_lt hfuel) hstands
  | cons first rest =>
      have hlength := hstands.length_le
      have hrest : rest.length < fuel := by
        rw [List.length_cons] at hlength
        omega
      obtain ⟨behind, hskip, hbehind⟩ := skip_cons hrest hstands
      refine ⟨behind, ?_, hbehind⟩
      rw [resume, bind_ok (advance_cons hstands)]
      exact hskip

/-- Reading a program with a position never fails, and it finds what the tokens
hold. -/
theorem program_stands (limits : Limits) (hfuel : 10 * tokens.length + 6 < fuel)
    (sentence : Sentence) (hstop : sentence.stop = stop) {rounds : Nat}
    (hrounds : rest.length < rounds)
    (hstands : Stands tokens stop unused rest position) :
    ∃ behind, program tokens limits fuel rounds position =
        .ok ((entries limits rest).filterMap Entry.statement?,
          (entries limits rest).filterMap (Entry.diagnostic? sentence)) behind ∧
      Stands tokens stop unused [] behind := by
  induction rest using entries.induct limits generalizing position rounds with
  | case1 =>
      obtain ⟨rounds, rfl⟩ := Nat.exists_eq_succ_of_ne_zero (Nat.ne_zero_of_lt hrounds)
      refine ⟨position, ?_, hstands⟩
      rw [program, bind_ok (atEnd_stands hstands), entries]
      rfl
  | case2 first more stmt rest shorter hdone ih =>
      obtain ⟨rounds, rfl⟩ := Nat.exists_eq_succ_of_ne_zero (Nat.ne_zero_of_lt hrounds)
      have hagrees : Agrees tokens stop unused (Grammar.declaration limits (first :: more))
          (declaration tokens limits fuel position) :=
        agrees_declaration limits hfuel hstands (List.cons_ne_nil _ _)
      rw [hdone] at hagrees
      obtain ⟨behind, hresult, hrest⟩ := hagrees
      have hrounds' : rest.length < rounds := by
        rw [List.length_cons] at hrounds shorter
        omega
      obtain ⟨last, hprogram, hlast⟩ := ih hrounds' hrest
      refine ⟨last, ?_, hlast⟩
      rw [program, bind_ok (atEnd_stands hstands)]
      simp only [List.isEmpty_cons, Bool.false_eq_true, if_false]
      rw [bind_ok (caught_done hresult)]
      simp only
      rw [bind_ok hprogram, entries, hdone]
      rfl
  | case3 first more fault rest within hfailed ih =>
      obtain ⟨rounds, rfl⟩ := Nat.exists_eq_succ_of_ne_zero (Nat.ne_zero_of_lt hrounds)
      have hagrees : Agrees tokens stop unused (Grammar.declaration limits (first :: more))
          (declaration tokens limits fuel position) :=
        agrees_declaration limits hfuel hstands (List.cons_ne_nil _ _)
      rw [hfailed] at hagrees
      obtain ⟨interrupt, behind, hresult, htells, hrest⟩ := hagrees
      obtain ⟨resumed, hresume, hresumed⟩ :=
        resume_stands (show tokens.length < fuel by omega) hstands (List.cons_ne_nil _ _) hrest
      have hlength := length_resume_le rest
      have hrounds' : (Grammar.resume rest).length < rounds := by
        rw [List.length_cons] at hrounds within
        omega
      obtain ⟨last, hprogram, hlast⟩ := ih hrounds' hresumed
      refine ⟨last, ?_, hlast⟩
      rw [program, bind_ok (atEnd_stands hstands)]
      simp only [List.isEmpty_cons, Bool.false_eq_true, if_false]
      rw [bind_ok (caught_failed hresult htells)]
      simp only
      rw [bind_ok (current_stands hrest), bind_ok hresume, bind_ok hprogram, entries, hfailed,
        ← hstop]
      rfl

-- Without an end token the reader would ask for a token that is not there.
example : program [] (.standard 1) 1 1 0 = .error (.crash (.token 0)) 0 :=
  rfl

end Declarations

end Reader

/-- The tokens, with an end token behind them if the last one is none. -/
def closed (tokens : List Token) : List Token :=
  if tokens.getLast?.any (·.kind == .eof) then tokens
  else tokens ++ [Token.endAt (tokens.getLast?.elim 1 Token.line)]

/-- With an end token added where there is none, the tokens are those up to the
first end token and some that are not used. -/
theorem exists_closed (tokens : List Token) :
    ∃ unused, closed tokens =
      (Sentence.ofTokens tokens).body ++ (Sentence.ofTokens tokens).stop :: unused := by
  cases hfind : tokens.find? (·.kind == .eof) with
  | none =>
      have hinside : ∀ token ∈ tokens, (token.kind == Kind.eof) = false := by
        simpa using List.find?_eq_none.mp hfind
      have hlast : ¬ tokens.getLast?.any (·.kind == .eof) = true := by
        cases hlast : tokens.getLast? with
        | none => simp
        | some last => simpa using hinside last (List.mem_of_getLast? hlast)
      have hbody : tokens.takeWhile (·.kind != .eof) = tokens :=
        List.takeWhile_eq_self_iff.mpr fun token hmem => by simpa using hinside token hmem
      exact ⟨[], by rw [closed, if_neg hlast, Sentence.ofTokens, hbody, hfind]; rfl⟩
  | some stop =>
      obtain ⟨hstop, before, after, rfl, hbefore⟩ := List.find?_eq_some_iff_append.mp hfind
      rw [Sentence.ofTokens_append_cons (by simpa using hbefore) (by simpa using hstop), closed]
      split
      · exact ⟨after, rfl⟩
      · exact ⟨after ++ [_], by rw [List.append_assoc, List.cons_append]⟩

/-- A reader begins in front of the body of its tokens. -/
theorem stands_closed {tokens unused : List Token}
    (hclosed : closed tokens =
      (Sentence.ofTokens tokens).body ++ (Sentence.ofTokens tokens).stop :: unused) :
    Reader.Stands (closed tokens) (Sentence.ofTokens tokens).stop unused
      (Sentence.ofTokens tokens).body 0 where
  ahead := hclosed
  inside := by
    intro token hmem
    simpa using List.mem_takeWhile_imp hmem
  stops := by
    simp only [Sentence.ofTokens]
    cases hfind : tokens.find? (·.kind == .eof) with
    | none => rfl
    | some stop => simpa using List.find?_some hfind

end Grammar

namespace Program

open Grammar

/-- More rounds than any loop makes while the tokens are read. -/
def fuel (tokens : List Token) : Nat :=
  10 * (closed tokens).length + 7

theorem lt_fuel (tokens : List Token) : 10 * (closed tokens).length + 6 < fuel tokens :=
  Nat.lt_succ_self _

/-- Reads the program of a token sequence with a position.  An interruption that
no declaration catches ends it. -/
def attempt (limits : Limits) (tokens : List Token) : Except Crash Program :=
  match Reader.program (closed tokens) limits (fuel tokens) (fuel tokens) 0 with
  | .ok (stmts, errors) position => .ok ⟨stmts, errors, position⟩
  | .error (.crash crash) _ => .error crash
  | .error (.mistake fault) _ => .error (.mistake fault)
  | .error .overflow _ => .error .overflow

/-- All tokens are used up in the end. -/
theorem position_ofTokens (limits : Limits) (tokens : List Token) :
    (ofTokens limits tokens).position = (Sentence.ofTokens tokens).body.length := by
  have hunread : unread (Sentence.ofTokens tokens).body
      (entries limits (Sentence.ofTokens tokens).body) = [] := by
    obtain ⟨-, hnone⟩ := entries_unread (List.append_nil (entries limits _)).symm
    cases hleft : unread (Sentence.ofTokens tokens).body
        (entries limits (Sentence.ofTokens tokens).body) with
    | nil => rfl
    | cons first more =>
        rw [hleft, entries] at hnone
        split at hnone <;> cases hnone
  rw [ofTokens]
  simp only [hunread, List.length_nil, Nat.sub_zero]

/-- Reading with a position does not fail, and gives the program of the
tokens. -/
theorem attempt_eq (limits : Limits) (tokens : List Token) :
    attempt limits tokens = .ok (ofTokens limits tokens) := by
  obtain ⟨unused, hclosed⟩ := exists_closed tokens
  have hstands := stands_closed hclosed
  have hrounds : (Sentence.ofTokens tokens).body.length < fuel tokens := by
    have hlength := hstands.length_le
    rw [fuel]
    omega
  obtain ⟨behind, hprogram, hbehind⟩ :=
    Reader.program_stands limits (lt_fuel tokens) (Sentence.ofTokens tokens) rfl hrounds hstands
  have hposition : behind = (ofTokens limits tokens).position := by
    have hplace := hstands.position_add
    have hplace' := hbehind.position_add
    rw [List.length_nil] at hplace'
    rw [position_ofTokens]
    omega
  rw [attempt, hprogram, hposition]
  rfl

/-- The stack is exhausted at a position, while the declaration behind some entries
is read. -/
def OverflowsAt (limits : Limits) (tokens : List Token) (position : Nat) : Prop :=
  ∃ before entry after,
    entries limits (Sentence.ofTokens tokens).body = before ++ entry :: after ∧
      Reader.declaration (closed tokens) limits (fuel tokens)
          ((Sentence.ofTokens tokens).body.length -
            (unread (Sentence.ofTokens tokens).body before).length) =
        .error .overflow position

/-- An exhausted stack becomes a diagnostic about the token where it happens. -/
theorem overflow_mem_errors {limits : Limits} {tokens : List Token} {position : Nat}
    (hoverflows : OverflowsAt limits tokens position) :
    ∃ token, (closed tokens)[position]? = some token ∧
      Diagnostic.about .parsing token tooDeepMessage ∈ (ofTokens limits tokens).errors := by
  obtain ⟨before, entry, after, hentries, hinterrupted⟩ := hoverflows
  obtain ⟨unused, hclosed⟩ := exists_closed tokens
  obtain ⟨hsuffix, hlater⟩ := entries_unread hentries
  obtain ⟨hsome, -, hentry⟩ := entries_eq_cons hlater.symm
  have hstands := (stands_closed hclosed).of_suffix hsuffix
  have hagrees := Reader.agrees_declaration limits (lt_fuel tokens) hstands hsome
  rw [hinterrupted] at hagrees
  rcases hentry with ⟨stmt, rest, shorter, rfl, hdone⟩ | ⟨fault, rest, within, rfl, hfailed⟩
  · rw [hdone] at hagrees
    obtain ⟨behind, hresult, -⟩ := hagrees
    cases hresult
  · rw [hfailed] at hagrees
    obtain ⟨interrupt, behind, hresult, htells, hrest⟩ := hagrees
    cases hresult
    obtain rfl : fault = .tooDeep := by
      rcases htells with hmistake | ⟨-, htooDeep⟩
      · cases hmistake
      · exact htooDeep
    refine ⟨_, hrest.getElem?, List.mem_filterMap.mpr ⟨.mistake .tooDeep rest, ?_, rfl⟩⟩
    rw [hentries]
    simp

end Program

end Lumen
