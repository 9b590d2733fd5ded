import Lumen.Proofs.Juxtaposition

/-!
# Sources that spell given tokens

Signs and keywords have one spelling each.  Tokens of these kinds, written one
after the other with a blank behind each, are scanned as they were written.  So
whatever the grammar derives from such tokens within the limits is what some
source is read as.
-/

namespace Lumen

/-- The token of a kind with a fixed spelling, on the first line. -/
def Token.ofKind (kind : Kind) : Token :=
  ⟨kind, kind.spelling?.getD "", Scan.wordLiteral kind, 1⟩

/-- The token is on the first line and otherwise determined by its kind. -/
def Token.Fixed (token : Token) : Prop :=
  token.kind.spelling? = some token.lexeme ∧ token.literal = Scan.wordLiteral token.kind ∧
    token.line = 1

theorem Token.fixed_ofKind {kind : Kind} {spelling : String}
    (hspelling : kind.spelling? = some spelling) : (ofKind kind).Fixed := by
  refine ⟨?_, rfl, rfl⟩
  simp only [ofKind, hspelling, Option.getD_some]

theorem Token.fixed_of_mem_map {kinds : List Kind}
    (hspelled : ∀ kind ∈ kinds, kind.spelling?.isSome = true) {token : Token}
    (hmem : token ∈ kinds.map ofKind) : token.Fixed := by
  obtain ⟨kind, hkind, rfl⟩ := List.mem_map.mp hmem
  obtain ⟨spelling, hspelling⟩ := Option.isSome_iff_exists.mp (hspelled kind hkind)
  exact fixed_ofKind hspelling

namespace Scan

/-- The texts of tokens with a blank behind each. -/
def spell (tokens : List Token) : List Char :=
  tokens.flatMap fun token => token.lexeme.toList ++ [' ']

theorem lineCount_spelling {kind : Kind} {spelling : String}
    (hspelling : kind.spelling? = some spelling) : lineCount spelling.toList = 0 := by
  cases kind <;> cases hspelling <;> rfl

/-- The spelling of a kind in front of a blank is scanned as the kind. -/
theorem classify_spelling {kind : Kind} {spelling : String} {first : Char} {more : List Char}
    (hspelling : kind.spelling? = some spelling) (htext : spelling.toList = first :: more)
    (rest : List Char) :
    classify first (more ++ ' ' :: rest) = (.token kind (wordLiteral kind), more.length) := by
  cases kind <;> cases hspelling <;> cases htext <;> rfl

theorem pieces_blank (line : Int) (rest : List Char) :
    pieces line (' ' :: rest) = ⟨.blank, [' '], line⟩ :: pieces line rest := by
  have hclassify : classify ' ' ([] ++ rest) = (.blank, ([] : List Char).length) := rfl
  have hpieces := pieces_of_classify hclassify line
  have hlines : line + (lineCount [' '] : Int) = line := Int.add_zero line
  rwa [hlines] at hpieces

/-- A fixed token in front of a blank is a piece, and so is the blank. -/
theorem pieces_fixed {token : Token} (hfixed : token.Fixed) (rest : List Char) :
    pieces 1 (token.lexeme.toList ++ ' ' :: rest) =
      ⟨.token token.kind token.literal, token.lexeme.toList, 1⟩ :: ⟨.blank, [' '], 1⟩ ::
        pieces 1 rest := by
  obtain ⟨hspelling, hliteral, -⟩ := hfixed
  obtain ⟨first, more, htext, -⟩ := spelling?_begins hspelling
  have hpieces := pieces_of_classify (classify_spelling hspelling htext rest) 1
  have hlines : (1 : Int) + lineCount (first :: more) = 1 := by
    rw [← htext, lineCount_spelling hspelling]
    rfl
  rw [hlines, pieces_blank] at hpieces
  rw [htext, hliteral]
  exact hpieces

theorem token?_fixed {token : Token} (hfixed : token.Fixed) :
    Piece.token? ⟨.token token.kind token.literal, token.lexeme.toList, 1⟩ = some token := by
  obtain ⟨-, -, hline⟩ := hfixed
  simp only [Piece.token?, String.ofList_toList, ← hline]

/-- Fixed tokens are scanned as they were written, without a mistake. -/
theorem scan_spell {tokens : List Token} (hfixed : ∀ token ∈ tokens, token.Fixed) :
    (pieces 1 (spell tokens)).filterMap Piece.token? = tokens ∧
      (pieces 1 (spell tokens)).filterMap Piece.diagnostic? = [] := by
  induction tokens with
  | nil =>
      have hnone : pieces 1 (spell []) = [] := by
        rw [spell, List.flatMap_nil, pieces]
      rw [hnone]
      exact ⟨rfl, rfl⟩
  | cons token tokens ih =>
      have hfirst := hfixed token List.mem_cons_self
      obtain ⟨hwords, herrors⟩ := ih fun other hother => hfixed other (List.mem_cons_of_mem _ hother)
      have hpieces : pieces 1 (spell (token :: tokens)) =
          ⟨.token token.kind token.literal, token.lexeme.toList, 1⟩ :: ⟨.blank, [' '], 1⟩ ::
            pieces 1 (spell tokens) := by
        rw [← pieces_fixed hfirst, spell, List.flatMap_cons, List.append_assoc]
        rfl
      rw [hpieces]
      constructor
      · rw [List.filterMap_cons_some (token?_fixed hfirst), List.filterMap_cons_none rfl, hwords]
      · rw [List.filterMap_cons_none rfl, List.filterMap_cons_none rfl, herrors]

/-- Tokens that are spelled out are scanned back. -/
theorem words_spell {tokens : List Token} (hfixed : ∀ token ∈ tokens, token.Fixed) :
    words (String.ofList (spell tokens)) = tokens := by
  rw [words, String.toList_ofList]
  exact (scan_spell hfixed).1

theorem errors_spell {tokens : List Token} (hfixed : ∀ token ∈ tokens, token.Fixed) :
    (ofSource (String.ofList (spell tokens))).errors = [] := by
  rw [ofSource, String.toList_ofList]
  exact (scan_spell hfixed).2

end Scan

open Grammar

/-- Derivations from fixed tokens within the limits are what some source is read
as. -/
theorem Analysis.ofSource_spell {limits : Limits} {clauses : List Clause}
    (hfixed : ∀ token ∈ clauses.flatMap Clause.yield, token.Fixed)
    (hfits : ∀ clause ∈ clauses, clause.tree.Fits limits) :
    let source := String.ofList (Scan.spell (clauses.flatMap Clause.yield))
    (ofSource limits source).errors = [] ∧
      (ofSource limits source).program.statements = clauses.map Clause.tree := by
  intro source
  have hwords : Scan.words source = clauses.flatMap Clause.yield := Scan.words_spell hfixed
  have hsentence : Sentence.ofTokens (Scan.ofSource source).tokens =
      ⟨clauses.flatMap Clause.yield, Token.endAt (Scan.endLine source.toList)⟩ := by
    rw [Scan.tokens_ofSource, ← hwords]
    exact Sentence.ofTokens_append (fun token hmem => Scan.kind_ne_eof_of_mem_words hmem) rfl
  have hstrict : Program.strict limits (Scan.ofSource source).tokens =
      .ok (clauses.map Clause.tree) := by
    apply Program.strict_eq_ok_iff.mpr
    refine ⟨clauses, by rw [hsentence], rfl, ?_⟩
    intro stmt hstmt
    obtain ⟨clause, hclause, rfl⟩ := List.mem_map.mp hstmt
    exact hfits clause hclause
  obtain ⟨herrors, hstatements⟩ := Program.strict_eq_ok_iff_errors.mp hstrict
  refine ⟨?_, hstatements⟩
  exact List.append_eq_nil_iff.mpr ⟨Scan.errors_spell hfixed, herrors⟩

end Lumen
