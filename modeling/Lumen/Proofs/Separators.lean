import Lumen.Proofs.Munch
import Lumen.Proofs.Spelling

/-!
# Blanks and line breaks separate tokens

The scanner looks at most two characters beyond a token, and neither a blank nor
the end of the text extends one.  So a token in front of a blank is scanned as it
was wherever it comes from, and the lexemes of a source, written with blanks in
between, are its tokens again.  For the same reason a line break cuts a source
into two that are scanned by themselves, unless it stands in a string or in a
block comment.
-/

namespace Lumen

/-- All of a token but its line. -/
def Token.content (token : Token) : Kind × String × Option Value :=
  (token.kind, token.lexeme, token.literal)

namespace Scan

/-- The tokens that are not the end token are those of the pieces. -/
theorem filter_tokens (source : String) :
    (ofSource source).tokens.filter (·.kind != .eof) = words source := by
  rw [tokens_ofSource, List.filter_append, List.filter_eq_self.mpr]
  · exact List.append_nil (words source)
  · intro token hmem
    simpa using kind_ne_eof_of_mem_words hmem

/-! ## Tokens in front of a blank -/

/-- Nothing or a blank is in front. -/
def BlankFirst (text : List Char) : Prop :=
  ∀ c ∈ text.head?, isSpace c = true

theorem eq_of_isSpace {c : Char} (hspace : isSpace c = true) :
    c = ' ' ∨ c = '\r' ∨ c = '\t' ∨ c = '\n' := by
  simpa [isSpace, or_assoc] using hspace

section Tokens

variable {first : Char} {taken after behind : List Char} {kind : Kind} {literal : Option Value}

theorem BlankFirst.takeWhile_append (hbehind : BlankFirst behind) {condition : Char → Bool}
    (hblank : ∀ c, isSpace c = true → condition c = false) {run : List Char}
    (hrun : ∀ c ∈ run, condition c = true) : (run ++ behind).takeWhile condition = run := by
  rw [List.takeWhile_append_of_pos hrun]
  cases behind with
  | nil => simp
  | cons c behind =>
      have hc := hblank c (hbehind c rfl)
      rw [List.takeWhile_cons_of_neg (by simp [hc]), List.append_nil]

theorem BlankFirst.ofPair? (hbehind : BlankFirst behind) (first : Char) :
    behind.head?.bind (Kind.ofPair? first) = none := by
  cases behind with
  | nil => rfl
  | cons c behind =>
      rcases eq_of_isSpace (hbehind c rfl) with rfl | rfl | rfl | rfl <;>
        · simp only [List.head?_cons, Option.bind_some, Kind.ofPair?]
          split <;> simp_all

theorem not_isDigit_of_isSpace (c : Char) (hspace : isSpace c = true) : isDigit c = false := by
  rcases eq_of_isSpace hspace with rfl | rfl | rfl | rfl <;> rfl

theorem not_isNamePart_of_isSpace (c : Char) (hspace : isSpace c = true) :
    isNamePart c = false := by
  rcases eq_of_isSpace hspace with rfl | rfl | rfl | rfl <;> rfl

/-- A blank ends a name as what stood there did. -/
theorem classifyWord_blankFirst (hbehind : BlankFirst behind)
    (htoken : classifyWord first (taken ++ after) = (.token kind literal, taken.length)) :
    classifyWord first (taken ++ behind) = (.token kind literal, taken.length) := by
  obtain ⟨more, rest, hsplit, htake, hmore, -⟩ := exists_span isNamePart (taken ++ after)
  rw [classifyWord, htake] at htoken
  obtain ⟨rfl, -⟩ := List.append_inj hsplit.symm (congrArg Prod.snd htoken)
  rw [classifyWord, hbehind.takeWhile_append not_isNamePart_of_isSpace hmore]
  exact htoken

theorem classifyString_append_of_token
    (htoken : classifyString (taken ++ after) = (.token kind literal, taken.length))
    (behind : List Char) :
    classifyString (taken ++ behind) = (.token kind literal, taken.length) := by
  obtain ⟨body, rest, hsplit, htake, hbody, hrest⟩ := exists_span (· != '"') (taken ++ after)
  rw [classifyString, htake, hsplit] at htoken
  cases rest with
  | nil =>
      rw [if_neg (by simp)] at htoken
      cases htoken
  | cons quote rest =>
      obtain rfl : quote = '"' := by simpa using hrest quote rfl
      rw [if_pos (by simp)] at htoken
      have hlength : (body ++ ['"']).length = taken.length := by
        simpa using congrArg Prod.snd htoken
      have hsplit' : (body ++ ['"']) ++ rest = taken ++ after := by simpa using hsplit.symm
      obtain ⟨rfl, -⟩ := List.append_inj hsplit' hlength
      have htake' : (body ++ ['"'] ++ behind).takeWhile (· != '"') = body := by
        rw [List.append_assoc, List.takeWhile_append_of_pos hbody]
        simp
      rw [classifyString, htake', if_pos (by simp)]
      exact htoken

theorem classifyNumber_blankFirst (hbehind : BlankFirst behind)
    (htoken : classifyNumber first (taken ++ after) = (.token kind literal, taken.length)) :
    classifyNumber first (taken ++ behind) = (.token kind literal, taken.length) := by
  obtain ⟨whole, rest, hsplit, htake, hwhole, -⟩ := exists_span isDigit (taken ++ after)
  rw [hsplit] at htoken htake
  by_cases hpoint : ∃ tenth more, rest = '.' :: tenth :: more ∧ isDigit tenth = true
  · obtain ⟨tenth, more, rfl, htenth⟩ := hpoint
    obtain ⟨finer, later, rfl, hfiner, hfraction, -⟩ := exists_span isDigit more
    rw [classifyNumber_fraction htake htenth hfiner] at htoken
    have hsplit' : (whole ++ '.' :: tenth :: finer) ++ later = taken ++ after := by
      simpa using hsplit.symm
    obtain ⟨rfl, -⟩ := List.append_inj hsplit' (congrArg Prod.snd htoken)
    have htake' : (whole ++ '.' :: tenth :: (finer ++ behind)).takeWhile isDigit = whole := by
      rw [List.takeWhile_append_of_pos hwhole, List.takeWhile_cons_of_neg (by decide),
        List.append_nil]
    rw [List.append_assoc, List.cons_append, List.cons_append, classifyNumber_fraction htake' htenth
      (hbehind.takeWhile_append not_isDigit_of_isSpace hfraction)]
    exact htoken
  · rw [classifyNumber_whole htake hpoint] at htoken
    obtain ⟨rfl, -⟩ := List.append_inj hsplit.symm (congrArg Prod.snd htoken)
    have hpoint' : ¬ ∃ tenth more, behind = '.' :: tenth :: more ∧ isDigit tenth = true := by
      rintro ⟨tenth, more, rfl, -⟩
      cases hbehind '.' rfl
    rw [classifyNumber_whole (hbehind.takeWhile_append not_isDigit_of_isSpace hwhole) hpoint']
    exact htoken

theorem classifySlash_blankFirst (hbehind : BlankFirst behind)
    (htoken : classifySlash (taken ++ after) = (.token kind literal, taken.length)) :
    classifySlash (taken ++ behind) = (.token kind literal, taken.length) := by
  unfold classifySlash at htoken
  split at htoken
  · cases htoken
  · split at htoken <;> cases htoken
  · obtain rfl := List.eq_nil_of_length_eq_zero (congrArg Prod.snd htoken).symm
    rw [← htoken, List.nil_append]
    cases behind with
    | nil => rfl
    | cons c behind =>
        rcases eq_of_isSpace (hbehind c rfl) with rfl | rfl | rfl | rfl <;> rfl

/-- A token stays what it is if a blank or the end comes behind it. -/
theorem classify_blankFirst (hbehind : BlankFirst behind)
    (htoken : classify first (taken ++ after) = (.token kind literal, taken.length)) :
    classify first (taken ++ behind) = (.token kind literal, taken.length) := by
  -- Where no pair begins in the old text, none begins in the new one.
  have hnoPair : (taken ++ after).head?.bind (Kind.ofPair? first) = none →
      (taken ++ behind).head?.bind (Kind.ofPair? first) = none := by
    intro hnone
    cases taken with
    | nil => exact hbehind.ofPair? first
    | cons c taken => exact hnone
  fun_cases classify first (taken ++ after) with
  | case1 hspace =>
      rw [classify, if_pos hspace] at htoken
      cases htoken
  | case2 hspace pair hpair =>
      simp only [classify, if_neg hspace, hpair] at htoken
      obtain ⟨second, rfl⟩ := List.length_eq_one_iff.mp (congrArg Prod.snd htoken).symm
      have hpair' : ([second] ++ behind).head?.bind (Kind.ofPair? first) = some pair := hpair
      simp only [classify, if_neg hspace, hpair']
      exact htoken
  | case3 hspace hpair hslash =>
      simp only [classify, if_neg hspace, hpair, if_pos hslash] at htoken
      simp only [classify, if_neg hspace, hnoPair hpair, if_pos hslash]
      exact classifySlash_blankFirst hbehind htoken
  | case4 hspace hpair hslash sign hsign =>
      simp only [classify, if_neg hspace, hpair, if_neg hslash, hsign] at htoken
      simp only [classify, if_neg hspace, hnoPair hpair, if_neg hslash, hsign]
      exact htoken
  | case5 hspace hpair hslash hsign hquote =>
      simp only [classify, if_neg hspace, hpair, if_neg hslash, hsign, if_pos hquote] at htoken
      simp only [classify, if_neg hspace, hnoPair hpair, if_neg hslash, hsign, if_pos hquote]
      exact classifyString_append_of_token htoken behind
  | case6 hspace hpair hslash hsign hquote hdigit =>
      simp only [classify, if_neg hspace, hpair, if_neg hslash, hsign, if_neg hquote,
        if_pos hdigit] at htoken
      simp only [classify, if_neg hspace, hnoPair hpair, if_neg hslash, hsign, if_neg hquote,
        if_pos hdigit]
      exact classifyNumber_blankFirst hbehind htoken
  | case7 hspace hpair hslash hsign hquote hdigit hname =>
      simp only [classify, if_neg hspace, hpair, if_neg hslash, hsign, if_neg hquote,
        if_neg hdigit, if_pos hname] at htoken
      simp only [classify, if_neg hspace, hnoPair hpair, if_neg hslash, hsign, if_neg hquote,
        if_neg hdigit, if_pos hname]
      exact classifyWord_blankFirst hbehind htoken
  | case8 hspace hpair hslash hsign hquote hdigit hname =>
      simp only [classify, if_neg hspace, hpair, if_neg hslash, hsign, if_neg hquote,
        if_neg hdigit, if_neg hname] at htoken
      cases htoken

end Tokens

/-! ## Lexemes with blanks in between -/

/-- In front of a blank or of the end, the lexeme of the token is scanned as the
token. -/
def StandsAlone (token : Token) : Prop :=
  ∃ first more, token.lexeme.toList = first :: more ∧ ∀ behind, BlankFirst behind →
    classify first (more ++ behind) = (.token token.kind token.literal, more.length)

/-- Every token of a source can stand alone. -/
theorem standsAlone_of_mem_words {source : String} {token : Token}
    (hmem : token ∈ words source) : StandsAlone token := by
  obtain ⟨piece, hpiece, htoken⟩ := List.mem_filterMap.mp hmem
  obtain ⟨before, after, hsplit⟩ := List.append_of_mem hpiece
  have hsplits := splits_pieces 1 source.toList
  rw [hsplit] at hsplits
  obtain ⟨first, more, htext⟩ := List.exists_cons_of_ne_nil hsplits.cut.1.ne_nil
  have hremaining : (piece :: after).flatMap Piece.text =
      first :: (more ++ after.flatMap Piece.text) := by
    rw [List.flatMap_cons, htext, List.cons_append]
  obtain ⟨taken, behind, hrest, htaken, hclassify, -⟩ := piece_eq_classify hsplit hremaining
  obtain rfl : more = taken := (List.cons.inj (htext.symm.trans htaken)).2
  cases hshape : piece.shape with
  | blank => simp [Piece.token?, hshape] at htoken
  | comment => simp [Piece.token?, hshape] at htoken
  | fault cause => simp [Piece.token?, hshape] at htoken
  | token kind literal =>
      simp only [Piece.token?, hshape, Option.some.injEq] at htoken
      rw [hshape] at hclassify
      subst htoken
      refine ⟨first, more, by rw [String.toList_ofList, htext], ?_⟩
      intro later hlater
      exact classify_blankFirst hlater hclassify

/-- A token that stands alone is scanned in front of what follows. -/
theorem StandsAlone.scan_append {token : Token} (halone : StandsAlone token)
    {behind : List Char} (hbehind : BlankFirst behind) (line : Int) :
    let found := pieces line (token.lexeme.toList ++ behind)
    let later := pieces (line + lineCount token.lexeme.toList) behind
    (found.filterMap Piece.token?).map Token.content =
        token.content :: (later.filterMap Piece.token?).map Token.content ∧
      found.filterMap Piece.diagnostic? = later.filterMap Piece.diagnostic? := by
  intro found later
  obtain ⟨first, more, htext, hclassify⟩ := halone
  have hfound : found =
      ⟨.token token.kind token.literal, token.lexeme.toList, line⟩ :: later := by
    simp only [found, later, htext, List.cons_append]
    exact pieces_of_classify (hclassify behind hbehind) line
  rw [hfound]
  constructor
  · simp only [List.filterMap_cons, Piece.token?, String.ofList_toList, List.map_cons,
      Token.content]
  · exact List.filterMap_cons_none rfl

/-- The texts of tokens with a blank between each two of them. -/
def spaced (tokens : List Token) : List Char :=
  [' '].intercalate (tokens.map fun token => token.lexeme.toList)

/-- Tokens that stand alone are scanned as they were written. -/
theorem scan_spaced {tokens : List Token} (halone : ∀ token ∈ tokens, StandsAlone token)
    (line : Int) :
    ((pieces line (spaced tokens)).filterMap Piece.token?).map Token.content =
        tokens.map Token.content ∧
      (pieces line (spaced tokens)).filterMap Piece.diagnostic? = [] := by
  induction tokens generalizing line with
  | nil =>
      rw [spaced, List.map_nil, List.intercalate_nil, pieces]
      exact ⟨rfl, rfl⟩
  | cons token tokens ih =>
      obtain ⟨hfirst, hmore⟩ := List.forall_mem_cons.mp halone
      cases tokens with
      | nil =>
          have hnothing : BlankFirst [] := by simp [BlankFirst]
          have hscan := hfirst.scan_append hnothing line
          rw [List.append_nil, pieces] at hscan
          rw [spaced, List.map_cons, List.map_nil, List.intercalate_singleton]
          exact hscan
      | cons next tokens =>
          have hblank : BlankFirst (' ' :: spaced (next :: tokens)) := by
            simp [BlankFirst, isSpace]
          have htext : spaced (token :: next :: tokens) =
              token.lexeme.toList ++ ' ' :: spaced (next :: tokens) := by
            simp [spaced, List.intercalate_cons_cons]
          obtain ⟨htokens, herrors⟩ := hfirst.scan_append hblank line
          obtain ⟨htokens', herrors'⟩ := ih hmore (line + lineCount token.lexeme.toList)
          rw [pieces_blank, List.filterMap_cons_none rfl] at htokens herrors
          rw [htext, List.map_cons]
          exact ⟨htokens.trans (congrArg (token.content :: ·) htokens'), herrors.trans herrors'⟩

/-- The lexemes of the tokens of a source, with a blank between each two of them,
are scanned without a mistake and as the tokens that they come from. -/
theorem lexemes_scan_back (source : String) :
    let lexemes := ((ofSource source).tokens.filter (·.kind != .eof)).map Token.lexeme
    let again := ofSource (" ".intercalate lexemes)
    again.errors = [] ∧
      again.tokens.map Token.content = (ofSource source).tokens.map Token.content := by
  intro lexemes again
  have htext : (" ".intercalate lexemes).toList = spaced (words source) := by
    simp only [lexemes, filter_tokens, String.toList_intercalate, List.map_map, spaced]
    rfl
  have halone : ∀ token ∈ words source, StandsAlone token :=
    fun token hmem => standsAlone_of_mem_words hmem
  obtain ⟨htokens, herrors⟩ := scan_spaced halone 1
  rw [← htext] at htokens herrors
  refine ⟨herrors, ?_⟩
  calc again.tokens.map Token.content
      = (words (" ".intercalate lexemes)).map Token.content ++ [(.eof, "", none)] := by
        rw [tokens_ofSource, List.map_append]
        rfl
    _ = (words source).map Token.content ++ [(.eof, "", none)] := by
        rw [words, htokens]
    _ = (ofSource source).tokens.map Token.content := by
        rw [tokens_ofSource, List.map_append]
        rfl

/-! ## Lines -/

/-- A source without a diagnostic about an open string or comment is complete. -/
theorem complete_of_messages {source : String}
    (hstring : ∀ error ∈ (ofSource source).errors, error.message ≠ "Unterminated string.")
    (hcomment : ∀ error ∈ (ofSource source).errors,
      error.message ≠ "Unterminated block comment.") : Complete source := by
  intro piece hmem
  have herror : ∀ error, piece.diagnostic? = some error → error ∈ (ofSource source).errors :=
    fun error hsome => List.mem_filterMap.mpr ⟨piece, hmem, hsome⟩
  cases hshape : piece.shape with
  | blank => rfl
  | comment => rfl
  | token kind literal => rfl
  | fault cause =>
      rw [Piece.diagnostic?, hshape] at herror
      cases cause with
      | unexpected c => rfl
      | unterminatedString => exact absurd rfl (hstring _ (herror _ rfl))
      | unterminatedComment => exact absurd rfl (hcomment _ (herror _ rfl))

/-- A line break separates two sources, unless the first one leaves a string or a
comment open.  Both are scanned by themselves, with the tokens and diagnostics of
the second one as many lines further down as the first one and the break take. -/
theorem lines_scan_apart (first second : String)
    (hstring : ∀ error ∈ (ofSource first).errors, error.message ≠ "Unterminated string.")
    (hcomment : ∀ error ∈ (ofSource first).errors,
      error.message ≠ "Unterminated block comment.") :
    let lines : Int := 1 + (first.toList.count '\n' : Nat)
    let joined := ofSource (first ++ "\n" ++ second)
    joined.tokens = (ofSource first).tokens.filter (·.kind != .eof) ++
        (ofSource second).tokens.map (Token.shift lines) ∧
      joined.errors =
        (ofSource first).errors ++ (ofSource second).errors.map (Diagnostic.shift lines) := by
  intro lines joined
  have hcomplete := complete_of_messages hstring hcomment
  have hend : endLine (first ++ "\n" ++ second).toList = endLine second.toList + lines := by
    simp only [endLine, lineCount, lines, String.toList_append, List.count_append]
    simp
    omega
  refine ⟨?_, errors_joined hcomplete second⟩
  calc joined.tokens
      = words (first ++ "\n" ++ second) ++
          [Token.endAt (endLine (first ++ "\n" ++ second).toList)] := rfl
    _ = words first ++ ((words second).map (Token.shift lines) ++
          [(Token.endAt (endLine second.toList)).shift lines]) := by
        rw [words_joined hcomplete, hend, List.append_assoc]
        rfl
    _ = (ofSource first).tokens.filter (·.kind != .eof) ++
          (ofSource second).tokens.map (Token.shift lines) := by
        rw [filter_tokens, tokens_ofSource, List.map_append]
        rfl

/-- The line break keeps `!` and `=` apart, and the line break in the string counts
as well. -/
theorem lines_scan_apart_sign :
    let first := "@\"x\ny\" !"
    let second := "= #"
    (∀ error ∈ (ofSource first).errors, error.message ≠ "Unterminated string." ∧
        error.message ≠ "Unterminated block comment.") ∧
      (ofSource (first ++ "\n" ++ second)).tokens =
        [⟨.string, "\"x\ny\"", some (.text "x\ny"), 1⟩, ⟨.bang, "!", none, 2⟩,
          ⟨.equal, "=", none, 3⟩, ⟨.eof, "", none, 3⟩] ∧
      (ofSource (first ++ "\n" ++ second)).errors =
        [⟨.scanning, 1, none, "Unexpected character '@'."⟩,
          ⟨.scanning, 3, none, "Unexpected character '#'."⟩] := by
  intro first second
  have hclosed : ∀ error ∈ (ofSource first).errors, error.message ≠ "Unterminated string." ∧
      error.message ≠ "Unterminated block comment." := by decide +kernel
  obtain ⟨htokens, herrors⟩ := lines_scan_apart first second
    (fun error hmem => (hclosed error hmem).1) (fun error hmem => (hclosed error hmem).2)
  refine ⟨hclosed, htokens.trans ?_, herrors.trans ?_⟩
  · decide +kernel
  · decide +kernel

end Scan

end Lumen
