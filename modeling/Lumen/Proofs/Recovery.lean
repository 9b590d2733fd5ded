import Mathlib.Order.Bounds.Basic
import Lumen.Scan
import Lumen.Proofs.Acceptance

/-!
# Where reading resumes

A declaration that cannot be read leaves the tokens from the one at fault on.
Skipping goes from there to the next boundary: the end, a word that begins a
statement, or the place behind a semicolon.  The token at fault itself is
always skipped.  So reading resumes at the nearest boundary, unless the token
at fault is a word that begins a statement and the declaration had begun before
it; that statement is lost.
-/

namespace Lumen

namespace Reading

variable {tokens : List Token} {α β : Type}

/-- The tokens that a reading leaves: those behind the phrase, or those from the
one at fault on. -/
def rest : Reading tokens α → List Token
  | done _ rest _ => rest
  | failed _ rest _ => rest

theorem rest_map (change : α → β) (reading : Reading tokens α) :
    (reading.map change).rest = reading.rest := by
  cases reading <;> rfl

theorem rest_expect_suffix (kind : Kind) (fault : GrammarFault) (tokens : List Token) :
    (expect kind fault tokens).rest <:+ tokens := by
  cases tokens with
  | nil => exact List.suffix_refl []
  | cons first more =>
      rw [expect]
      split
      · exact List.suffix_cons first more
      · exact List.suffix_refl (first :: more)

theorem rest_andThen_suffix {reading : Reading tokens α}
    {next : α → (rest : List Token) → Reading rest β} (hreading : reading.rest <:+ tokens)
    (hnext : ∀ phrase rest, (next phrase rest).rest <:+ rest) :
    (reading.andThen next).rest <:+ tokens := by
  cases reading with
  | failed fault rest within => exact hreading
  | done phrase rest shorter =>
      have hrest := (hnext phrase rest).trans hreading
      rw [andThen]
      cases hread : next phrase rest with
      | failed fault later within =>
          rw [hread] at hrest
          exact hrest
      | done following later further =>
          rw [hread] at hrest
          exact hrest

end Reading

namespace Grammar

variable {limits : Limits} {tokens rest : List Token}

/-! ## Reading leaves an end of its tokens -/

/-- Reading an expression leaves an end of its tokens. -/
theorem rest_suffix (limits : Limits) :
    (∀ load tokens, (expression limits load tokens).rest <:+ tokens) ∧
    (∀ load tier tokens, (tiered limits load tier tokens).rest <:+ tokens) ∧
    (∀ load tier tokens left rest shorter,
      (chain limits load tier tokens left rest shorter).rest <:+ rest) ∧
    (∀ load tokens, (operand limits load tokens).rest <:+ tokens) := by
  -- The loop of a tier leaves an end of what it was handed, not only of all tokens.
  apply expression.mutual_induct limits
  case case1 =>
    intro load tokens hadmits ih
    rw [expression, if_pos hadmits]
    exact ih
  case case2 =>
    intro load tokens hadmits
    rw [expression, if_neg hadmits]
    exact List.suffix_refl tokens
  case case3 =>
    intro load tokens ih
    rw [tiered]
    exact ih
  case case4 =>
    intro load tokens tier fault later within hread ih
    rw [hread] at ih
    rw [tiered, hread]
    exact ih
  case case5 =>
    intro load tokens tier left later shorter hread ihTighter ihChain
    rw [hread] at ihTighter
    rw [tiered, hread]
    exact ihChain.trans ihTighter
  case case6 =>
    intro load tier tokens left shorter _
    rw [chain]
    exact List.suffix_refl []
  case case7 =>
    intro load tier tokens left operator after shorter hoperator fault later within hread _ ih
    rw [hread] at ih
    rw [chain, if_pos hoperator, hread]
    exact ih.trans (List.suffix_cons operator after)
  case case8 =>
    intro load tier tokens left operator after shorter hoperator right later further hread _
      ihTighter ihChain
    rw [hread] at ihTighter
    rw [chain, if_pos hoperator, hread]
    exact (ihChain.trans ihTighter).trans (List.suffix_cons operator after)
  case case9 =>
    intro load tier tokens left operator after shorter hoperator _
    rw [chain, if_neg hoperator]
    exact List.suffix_refl (operator :: after)
  case case10 =>
    intro load
    rw [operand]
    exact List.suffix_refl []
  case case11 =>
    intro load first more hsign hadmits fault later within hread ih
    rw [hread] at ih
    rw [operand, if_pos hsign, if_pos hadmits, hread]
    exact ih.trans (List.suffix_cons first more)
  case case12 =>
    intro load first more hsign hadmits inner later further hread ih
    rw [hread] at ih
    rw [operand, if_pos hsign, if_pos hadmits, hread]
    exact ih.trans (List.suffix_cons first more)
  case case13 =>
    intro load first more hsign hadmits
    rw [operand, if_pos hsign, if_neg hadmits]
    exact List.suffix_cons first more
  case case14 =>
    intro load first more hsign hliteral
    rw [operand, if_neg hsign, if_pos hliteral]
    exact List.suffix_cons first more
  case case15 =>
    intro load first more hsign hliteral hname
    rw [operand, if_neg hsign, if_neg hliteral, if_pos hname]
    exact List.suffix_cons first more
  case case16 =>
    intro load first more hsign hliteral hname hopening fault later within hread ih
    rw [hread] at ih
    rw [operand, if_neg hsign, if_neg hliteral, if_neg hname, if_pos hopening, hread]
    exact ih.trans (List.suffix_cons first more)
  case case17 =>
    intro load first more hsign hliteral hname hopening inner later further hread fault final
      within hexpect ih
    have hclose := Reading.rest_expect_suffix .rightParen .expectedClosingParen later
    rw [hexpect] at hclose
    rw [hread] at ih
    rw [operand, if_neg hsign, if_neg hliteral, if_neg hname, if_pos hopening, hread]
    simp only [hexpect]
    exact (hclose.trans ih).trans (List.suffix_cons first more)
  case case18 =>
    intro load first more hsign hliteral hname hopening inner later further hread closing final
      last hexpect ih
    have hclose := Reading.rest_expect_suffix .rightParen .expectedClosingParen later
    rw [hexpect] at hclose
    rw [hread] at ih
    rw [operand, if_neg hsign, if_neg hliteral, if_neg hname, if_pos hopening, hread]
    simp only [hexpect]
    exact (hclose.trans ih).trans (List.suffix_cons first more)
  case case19 =>
    intro load first more hsign hliteral hname hopening
    rw [operand, if_neg hsign, if_neg hliteral, if_neg hname, if_neg hopening]
    exact List.suffix_refl (first :: more)

theorem rest_closedExpression_suffix (limits : Limits) (fault : GrammarFault)
    (tokens : List Token) : (closedExpression limits fault tokens).rest <:+ tokens := by
  apply Reading.rest_andThen_suffix ((rest_suffix limits).1 outermost tokens)
  intro value rest
  rw [Reading.rest_map]
  exact Reading.rest_expect_suffix .semicolon fault rest

theorem rest_initializer_suffix (limits : Limits) (tokens : List Token) :
    (initializer limits tokens).rest <:+ tokens := by
  cases tokens with
  | nil => exact List.suffix_refl []
  | cons first more =>
      rw [initializer]
      split
      · have hvalue := rest_closedExpression_suffix limits .expectedEndOfDeclaration more
        cases hread : closedExpression limits .expectedEndOfDeclaration more with
        | done value later shorter =>
            rw [hread] at hvalue
            exact hvalue.trans (List.suffix_cons first more)
        | failed fault later within =>
            rw [hread] at hvalue
            exact hvalue.trans (List.suffix_cons first more)
      · rw [Reading.rest_map]
        exact Reading.rest_expect_suffix .semicolon .expectedEndOfDeclaration (first :: more)

/-- Reading a declaration leaves an end of its tokens. -/
theorem rest_declaration_suffix (limits : Limits) (tokens : List Token) :
    (declaration limits tokens).rest <:+ tokens := by
  cases tokens with
  | nil => exact List.suffix_refl []
  | cons first more =>
      rw [declaration]
      split
      · apply Reading.rest_andThen_suffix
        · exact List.suffix_cons first more
        · intro word rest
          apply Reading.rest_andThen_suffix
          · exact Reading.rest_expect_suffix .identifier .expectedName rest
          · intro name rest
            rw [Reading.rest_map]
            exact rest_initializer_suffix limits rest
      · split
        · apply Reading.rest_andThen_suffix
          · exact List.suffix_cons first more
          · intro word rest
            rw [Reading.rest_map]
            exact rest_closedExpression_suffix limits .expectedEndOfPrint rest
        · rw [Reading.rest_map]
          exact rest_closedExpression_suffix limits .expectedEndOfStatement (first :: more)

/-! ## Boundaries -/

def startsAt (tokens : List Token) (index : Nat) : Bool :=
  tokens[index]?.any (·.kind.startsStatement)

def closesAt (tokens : List Token) (index : Nat) : Bool :=
  tokens[index]?.any (·.kind == .semicolon)

/-- After a declaration that starts at one index and fails at another, reading
may resume at the end, in front of a word that begins a statement, and behind a
semicolon, as long as it does not return to tokens that were read. -/
def Boundary (tokens : List Token) (start fault index : Nat) : Prop :=
  start < index ∧ fault ≤ index ∧ index ≤ tokens.length ∧
    (index = tokens.length ∨ startsAt tokens index = true ∨
      fault < index ∧ closesAt tokens (index - 1) = true)

instance (tokens : List Token) (start fault index : Nat) :
    Decidable (Boundary tokens start fault index) :=
  inferInstanceAs (Decidable (_ ∧ _))

/-- Skipping that has reached an index goes no further. -/
def StopsAt (tokens : List Token) (index : Nat) : Prop :=
  index = tokens.length ∨ startsAt tokens index = true ∨ closesAt tokens (index - 1) = true

/-- Skipping moves on to the first place behind the token where it may stop. -/
theorem skipFrom_eq_drop (tokens : List Token) (index : Nat) (hindex : index < tokens.length) :
    ∃ next, skipFrom tokens[index] (tokens.drop (index + 1)) = tokens.drop next ∧
      index < next ∧ next ≤ tokens.length ∧ StopsAt tokens next ∧
      ∀ between, index < between → between < next → ¬ StopsAt tokens between := by
  have hcurrent : tokens[index]? = some tokens[index] := List.getElem?_eq_getElem hindex
  by_cases hend : index + 1 = tokens.length
  · refine ⟨index + 1, ?_, by omega, by omega, .inl hend, by omega⟩
    rw [List.drop_eq_nil_of_le (by omega), skipFrom]
  · have hnext : index + 1 < tokens.length := by omega
    rw [List.drop_eq_getElem_cons hnext, skipFrom]
    by_cases hclose : tokens[index].kind = .semicolon
    · rw [if_pos hclose, ← List.drop_eq_getElem_cons hnext]
      have hcloses : closesAt tokens (index + 1 - 1) = true := by
        simp [closesAt, hcurrent, hclose]
      exact ⟨index + 1, rfl, by omega, by omega, .inr (.inr hcloses), by omega⟩
    · rw [if_neg hclose]
      by_cases hstart : tokens[index + 1].kind.startsStatement = true
      · rw [if_pos hstart, ← List.drop_eq_getElem_cons hnext]
        have hstarts : startsAt tokens (index + 1) = true := by
          simp [startsAt, List.getElem?_eq_getElem hnext, hstart]
        exact ⟨index + 1, rfl, by omega, by omega, .inr (.inl hstarts), by omega⟩
      · rw [if_neg hstart]
        -- Nothing stops skipping here, so it goes on from the next token.
        have hnot : ¬ StopsAt tokens (index + 1) := by
          rintro (hlength | hstarts | hcloses)
          · exact hend hlength
          · simp [startsAt, List.getElem?_eq_getElem hnext, hstart] at hstarts
          · simp [closesAt, hcurrent, hclose] at hcloses
        obtain ⟨next, hskip, hbehind, hwithin, hstops, hleast⟩ :=
          skipFrom_eq_drop tokens (index + 1) hnext
        refine ⟨next, hskip, by omega, hwithin, hstops, ?_⟩
        intro between hafter hbefore
        by_cases hfirst : between = index + 1
        · rw [hfirst]
          exact hnot
        · exact hleast between (by omega) hbefore
termination_by tokens.length - index

/-- Reading resumes at the first place behind the fault where skipping stops. -/
theorem resume_eq_drop (tokens : List Token) (fault : Nat) (hfault : fault ≤ tokens.length) :
    ∃ next, resume (tokens.drop fault) = tokens.drop next ∧ fault ≤ next ∧
      (fault < next ∨ fault = tokens.length) ∧ next ≤ tokens.length ∧ StopsAt tokens next ∧
      ∀ between, fault < between → between < next → ¬ StopsAt tokens between := by
  by_cases hend : fault = tokens.length
  · refine ⟨fault, ?_, by omega, .inr hend, hfault, .inl hend, by omega⟩
    rw [List.drop_eq_nil_of_le (by omega), resume]
  · have hinside : fault < tokens.length := by omega
    obtain ⟨next, hskip, hbehind, hwithin, hstops, hleast⟩ :=
      skipFrom_eq_drop tokens fault hinside
    refine ⟨next, ?_, by omega, .inl hbehind, hwithin, hstops, hleast⟩
    rw [List.drop_eq_getElem_cons hinside, resume, hskip]

theorem Boundary.stopsAt {start fault index : Nat} (hboundary : Boundary tokens start fault index) :
    StopsAt tokens index := by
  obtain ⟨-, -, -, hend | hstarts | ⟨-, hcloses⟩⟩ := hboundary
  · exact .inl hend
  · exact .inr (.inl hstarts)
  · exact .inr (.inr hcloses)

theorem startsAt_lt {index : Nat} (hstarts : startsAt tokens index = true) :
    index < tokens.length := by
  by_contra hlength
  rw [startsAt, List.getElem?_eq_none (by omega)] at hstarts
  cases hstarts

/-- Skipping ends at the first boundary behind the token at fault. -/
theorem isLeast_behind {start fault : Nat} (hstart : start < tokens.length)
    (horder : start ≤ fault) (hfault : fault ≤ tokens.length) :
    IsLeast {index | Boundary tokens start fault index ∧ (fault < index ∨ fault = tokens.length)}
      (tokens.length - (resume (tokens.drop fault)).length) := by
  obtain ⟨next, hresume, hafter, hbehind, hwithin, hstops, hleast⟩ :=
    resume_eq_drop tokens fault hfault
  have hnext : tokens.length - (resume (tokens.drop fault)).length = next := by
    rw [hresume, List.length_drop]
    omega
  rw [hnext]
  constructor
  · refine ⟨⟨by omega, hafter, hwithin, ?_⟩, hbehind⟩
    rcases hstops with hend | hstarts | hcloses
    · exact .inl hend
    · exact .inr (.inl hstarts)
    · rcases hbehind with hbehind | hend
      · exact .inr (.inr ⟨hbehind, hcloses⟩)
      · exact .inl (by omega)
  · rintro index ⟨hboundary, hplace⟩
    by_contra hsmaller
    rcases hplace with hplace | hend
    · exact hleast index hplace (by omega) hboundary.stopsAt
    · have hindex := hboundary.2.1
      omega

/-- The first boundary behind the token at fault is the first one of all, unless
the token itself is one. -/
theorem isLeast_boundary_iff {start fault : Nat} (hstart : start < tokens.length)
    (horder : start ≤ fault) (hfault : fault ≤ tokens.length) :
    IsLeast {index | Boundary tokens start fault index}
        (tokens.length - (resume (tokens.drop fault)).length) ↔
      ¬ (start < fault ∧ startsAt tokens fault = true) := by
  have hbehind := isLeast_behind hstart horder hfault
  constructor
  · rintro hleast ⟨hbefore, hstarts⟩
    have hinside := startsAt_lt hstarts
    have hself : Boundary tokens start fault fault :=
      ⟨hbefore, Nat.le_refl fault, hfault, .inr (.inl hstarts)⟩
    have hle := hleast.2 hself
    have hplace := hbehind.1.2
    omega
  · intro hnot
    refine ⟨hbehind.1.1, ?_⟩
    intro index hboundary
    apply hbehind.2
    refine ⟨hboundary, ?_⟩
    obtain ⟨hafter, hplace, -, hcase⟩ := hboundary
    by_cases hself : index = fault
    · rw [hself] at hafter hcase
      rcases hcase with hend | hstarts | ⟨hless, -⟩
      · exact .inr hend
      · exact absurd ⟨hafter, hstarts⟩ hnot
      · exact absurd hless (Nat.lt_irrefl fault)
    · exact .inl (by omega)

/-! ## Declarations that cannot be read -/

/-- The first entry is what the first declaration gives. -/
theorem entries_eq_cons {entry : Entry} {later : List Entry}
    (hentries : entries limits tokens = entry :: later) :
    tokens ≠ [] ∧ later = entries limits entry.remaining ∧
      ((∃ stmt rest shorter, entry = .statement stmt rest ∧
          declaration limits tokens = .done stmt rest shorter) ∨
        ∃ fault rest within, entry = .mistake fault rest ∧
          declaration limits tokens = .failed fault rest within) := by
  cases tokens with
  | nil =>
      rw [entries] at hentries
      cases hentries
  | cons first more =>
      rw [entries] at hentries
      cases hread : declaration limits (first :: more) with
      | done stmt rest shorter =>
          simp only [hread, List.cons.injEq] at hentries
          obtain ⟨rfl, rfl⟩ := hentries
          exact ⟨by simp, rfl, .inl ⟨stmt, rest, shorter, rfl, rfl⟩⟩
      | failed fault rest within =>
          simp only [hread, List.cons.injEq] at hentries
          obtain ⟨rfl, rfl⟩ := hentries
          exact ⟨by simp, rfl, .inr ⟨fault, rest, within, rfl, rfl⟩⟩

theorem resume_suffix (tokens : List Token) : resume tokens <:+ tokens := by
  obtain ⟨next, hresume, -⟩ := resume_eq_drop tokens 0 (Nat.zero_le _)
  rw [List.drop_zero] at hresume
  rw [hresume]
  exact List.drop_suffix next tokens

theorem remaining_suffix {entry : Entry} {later : List Entry}
    (hentries : entries limits tokens = entry :: later) : entry.remaining <:+ tokens := by
  have hrest := rest_declaration_suffix limits tokens
  obtain ⟨-, -, ⟨stmt, rest, shorter, rfl, hdone⟩ | ⟨fault, rest, within, rfl, hfailed⟩⟩ :=
    entries_eq_cons hentries
  · rw [hdone] at hrest
    exact hrest
  · rw [hfailed] at hrest
    exact (resume_suffix rest).trans hrest

/-- Behind some entries reading goes on with the tokens that they leave. -/
theorem entries_unread {before after : List Entry}
    (hentries : entries limits tokens = before ++ after) :
    unread tokens before <:+ tokens ∧ after = entries limits (unread tokens before) := by
  induction before generalizing tokens with
  | nil => exact ⟨List.suffix_refl tokens, hentries.symm⟩
  | cons entry before ih =>
      rw [List.cons_append] at hentries
      obtain ⟨-, hlater, -⟩ := entries_eq_cons hentries
      obtain ⟨hsuffix, hafter⟩ := ih hlater.symm
      exact ⟨hsuffix.trans (remaining_suffix hentries), hafter⟩

/-- A declaration that starts at one index and cannot be read, with the token at
another one at fault, is followed by what stands at the first boundary behind
that token.  This is the first boundary of all if and only if the token does not
begin a statement, or the declaration begins with it. -/
theorem resumes_behind_fault (limits : Limits) (tokens : List Token) (before after : List Entry)
    (fault : GrammarFault) (rest : List Token)
    (hentries : entries limits (Sentence.ofTokens tokens).body =
      before ++ .mistake fault rest :: after) :
    let sentence := Sentence.ofTokens tokens
    let body := sentence.body
    let start := body.length - (unread body before).length
    let error := body.length - rest.length
    let next := body.length - (resume rest).length
    (∃ within, declaration limits (body.drop start) = .failed fault (body.drop error) within) ∧
      sentence.diagnostic fault rest =
        .about .parsing (body[error]?.getD sentence.stop) fault.message ∧
      after = entries limits (body.drop next) ∧
      IsLeast {index | Boundary body start error index ∧ (error < index ∨ error = body.length)}
        next ∧
      (IsLeast {index | Boundary body start error index} next ↔
        ¬ (start < error ∧ startsAt body error = true)) := by
  intro sentence body start error next
  obtain ⟨hunread, hlater⟩ := entries_unread hentries
  obtain ⟨hnonempty, hafter, ⟨_, _, _, hentry, _⟩ | ⟨_, _, within, hentry, hfailed⟩⟩ :=
    entries_eq_cons hlater.symm
  · cases hentry
  · obtain ⟨rfl, rfl⟩ := Entry.mistake.inj hentry
    have hsuffix := rest_declaration_suffix limits (unread body before)
    rw [hfailed] at hsuffix
    change rest <:+ unread body before at hsuffix
    have hstart : unread body before = body.drop start := List.suffix_iff_eq_drop.mp hunread
    have herror : rest = body.drop error :=
      List.suffix_iff_eq_drop.mp (hsuffix.trans hunread)
    have hnext : resume rest = body.drop next :=
      List.suffix_iff_eq_drop.mp ((resume_suffix rest).trans (hsuffix.trans hunread))
    have hlength := hunread.length_le
    have hpositive := List.length_pos_iff.mpr hnonempty
    have hinside : start < body.length := Nat.sub_lt_of_pos_le hpositive hlength
    have horder : start ≤ error := Nat.sub_le_sub_left hsuffix.length_le body.length
    have hwithin : error ≤ body.length := Nat.sub_le body.length rest.length
    refine ⟨?_, ?_, ?_, ?_, ?_⟩
    · rw [← hstart, ← herror]
      exact ⟨within, hfailed⟩
    · rw [Sentence.diagnostic, Sentence.current, List.headD_eq_head?_getD, herror, List.head?_drop]
    · rw [← hnext]
      exact hafter
    · have hleast := isLeast_behind hinside horder hwithin
      rw [← herror] at hleast
      exact hleast
    · have hiff := isLeast_boundary_iff hinside horder hwithin
      rw [← herror] at hiff
      exact hiff

/-- In `print a; nil + + nil print b;` the second declaration starts at index 3
and fails at the second plus sign, index 5.  The nearest boundary is the word at
index 7, and the statement behind it is read. -/
theorem resumes_behind_fault_plus :
    let tokens := (Scan.ofSource "print a; nil + + nil print b;").tokens
    let body := (Sentence.ofTokens tokens).body
    let before := [Entry.statement (.print (.reference ⟨.identifier, "a", none, 1⟩)) (body.drop 3)]
    let after := [Entry.statement (.print (.reference ⟨.identifier, "b", none, 1⟩)) []]
    entries (.standard 100) body = before ++ .mistake .expectedExpression (body.drop 5) :: after ∧
      (∃ within, declaration (.standard 100) (body.drop 3) =
        .failed .expectedExpression (body.drop 5) within) ∧
      after = entries (.standard 100) (body.drop 7) ∧
      IsLeast {index | Boundary body 3 5 index} 7 := by
  intro tokens body before after
  have hentries : entries (.standard 100) body =
      before ++ .mistake .expectedExpression (body.drop 5) :: after := by decide +kernel
  have hstart : body.length - (unread body before).length = 3 := by decide +kernel
  have herror : body.length - (body.drop 5).length = 5 := by decide +kernel
  have hnext : body.length - (resume (body.drop 5)).length = 7 := by decide +kernel
  have hword : ¬ (3 < 5 ∧ startsAt body 5 = true) := by decide +kernel
  obtain ⟨hfailed, -, hafter, -, hnearest⟩ := resumes_behind_fault (.standard 100) tokens before
    after .expectedExpression (body.drop 5) hentries
  change ∃ within, declaration (.standard 100)
      (body.drop (body.length - (unread body before).length)) =
    .failed .expectedExpression (body.drop (body.length - (body.drop 5).length)) within at hfailed
  rw [hstart, herror] at hfailed
  rw [hnext] at hafter
  rw [hstart, herror, hnext] at hnearest
  exact ⟨hentries, hfailed, hafter, hnearest.mpr hword⟩

/-- In `print nil print true;` the first declaration starts at index 0 and fails
at the second `print`, index 2, which is the nearest boundary.  Reading resumes
at the end all the same, and no statement is read. -/
theorem resume_loses_statement :
    let tokens := (Scan.ofSource "print nil print true;").tokens
    let body := (Sentence.ofTokens tokens).body
    entries (.standard 100) body = [.mistake .expectedEndOfPrint (body.drop 2)] ∧
      (Program.ofTokens (.standard 100) tokens).statements = [] ∧
      IsLeast {index | Boundary body 0 2 index} 2 ∧
      body.length - (resume (body.drop 2)).length = 5 := by
  intro tokens body
  have hword : Boundary body 0 2 2 := by decide +kernel
  refine ⟨by decide +kernel, by decide +kernel, ⟨hword, ?_⟩, by decide +kernel⟩
  intro index hboundary
  exact hboundary.2.1

/-! ## Entries and the tokens they come from -/

/-- Every entry is what a declaration somewhere in the tokens gives. -/
theorem exists_declaration {entry : Entry} (hmem : entry ∈ entries limits tokens) :
    ∃ start, start <:+ tokens ∧
      ((∃ stmt rest shorter, entry = .statement stmt rest ∧
          declaration limits start = .done stmt rest shorter) ∨
        ∃ fault rest within, entry = .mistake fault rest ∧
          declaration limits start = .failed fault rest within) := by
  obtain ⟨before, after, hentries⟩ := List.append_of_mem hmem
  obtain ⟨hsuffix, hlater⟩ := entries_unread hentries
  obtain ⟨-, -, hread⟩ := entries_eq_cons hlater.symm
  exact ⟨unread tokens before, hsuffix, hread⟩

end Grammar

/-- Every statement that is read is derived from some of the tokens. -/
theorem Program.exists_clause {limits : Limits} {tokens : List Token} {stmt : Stmt}
    (hmem : stmt ∈ (Program.ofTokens limits tokens).statements) :
    ∃ clause : Grammar.Clause, clause.tree = stmt ∧ ∀ token ∈ clause.yield, token ∈ tokens := by
  obtain ⟨entry, hentry, hstmt⟩ := List.mem_filterMap.mp hmem
  obtain ⟨start, hsuffix, ⟨found, rest, shorter, rfl, hdone⟩ | ⟨fault, rest, within, rfl, -⟩⟩ :=
    Grammar.exists_declaration hentry
  · obtain rfl := Option.some.inj hstmt
    obtain ⟨clause, htree, hyield, -⟩ := Grammar.declaration_sound ⟨shorter, hdone⟩
    refine ⟨clause, htree, fun token htoken => ?_⟩
    have hstart : token ∈ start := by
      rw [← hyield]
      exact List.mem_append_left rest htoken
    exact (List.takeWhile_prefix _).subset (hsuffix.subset hstart)
  · cases hstmt

/-- Every mistake is found in front of some of the last tokens of the body. -/
theorem Program.exists_mistake {limits : Limits} {tokens : List Token} {diagnostic : Diagnostic}
    (hmem : diagnostic ∈ (Program.ofTokens limits tokens).errors) :
    ∃ fault rest, rest <:+ (Sentence.ofTokens tokens).body ∧
      diagnostic = (Sentence.ofTokens tokens).diagnostic fault rest := by
  obtain ⟨entry, hentry, hfound⟩ := List.mem_filterMap.mp hmem
  obtain ⟨start, hsuffix, ⟨stmt, rest, shorter, rfl, -⟩ | ⟨fault, rest, within, rfl, hfailed⟩⟩ :=
    Grammar.exists_declaration hentry
  · cases hfound
  · have hrest := Grammar.rest_declaration_suffix limits start
    rw [hfailed] at hrest
    exact ⟨fault, rest, hrest.trans hsuffix, (Option.some.inj hfound).symm⟩

end Lumen
