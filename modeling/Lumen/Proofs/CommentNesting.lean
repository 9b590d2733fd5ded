import Lumen.Proofs.CursorScan

/-!
# Block comments nest

A block comment contains comments and characters at which no mark begins.  The
scanner knows nothing of this structure: it counts the comments that are open,
one more at each opening mark and one less at each closing mark.  Counting comes
to zero exactly where the comment ends, and no text has two comments in front of
it.  So the comment is skipped as a whole, and if there is none, everything up to
the end of the source is one mistake.
-/

namespace Lumen

namespace Scan

open Cursor

/-! ## The comment in front of a text -/

/-- A body ends at the first place where one can end. -/
theorem CommentBody.eq_of_append_eq {body other behind behind' : List Char}
    (hbody : CommentBody body) (hother : CommentBody other)
    (hsame : body ++ behind = other ++ behind') : body = other := by
  have hcount := hbody.commentLength?_append 0 0 behind
  rw [hsame, hother.commentLength?_append, commentLength?, commentLength?] at hcount
  have hlength : body.length = other.length := by
    simpa using hcount.symm
  exact (List.append_inj hsame hlength).1

/-- At most one block comment stands in front of a text. -/
theorem BlockComment.eq_of_prefix {comment other text : List Char} (hcomment : BlockComment comment)
    (hother : BlockComment other) (hfront : comment <+: text) (hfront' : other <+: text) :
    other = comment := by
  obtain ⟨body, rfl, hbody⟩ := hcomment
  obtain ⟨body', rfl, hbody'⟩ := hother
  obtain ⟨behind, rfl⟩ := hfront
  obtain ⟨behind', hsame⟩ := hfront'
  have hbodies : body' ++ behind' = body ++ behind := by simpa using hsame
  rw [hbody'.eq_of_append_eq hbody hbodies]

/-- The count runs to the end of the text if and only if no comment is in front. -/
theorem commentLength?_one_eq_none_iff {rest : List Char} :
    commentLength? 1 1 rest = none ↔
      ∀ comment, comment <+: '/' :: '*' :: rest → ¬ BlockComment comment := by
  constructor
  · rintro hnone comment ⟨behind, hsplit⟩ ⟨body, rfl, hbody⟩
    have hrest : rest = body ++ behind := by simpa using hsplit.symm
    have hsome := commentLength?_one_eq_some_iff.mpr ⟨body, behind, hrest, rfl, hbody⟩
    rw [hnone] at hsome
    cases hsome
  · intro hnone
    cases hlength : commentLength? 1 1 rest with
    | none => rfl
    | some length =>
        obtain ⟨body, behind, rfl, -, hbody⟩ := commentLength?_one_eq_some_iff.mp hlength
        exact absurd ⟨body, rfl, hbody⟩ (hnone ('/' :: '*' :: body) ⟨behind, rfl⟩)

/-- A block comment in front of a text is one piece, which ends with the mark
that closes it. -/
theorem classify_comment {body : List Char} (hbody : CommentBody body) (behind : List Char) :
    classify '/' ('*' :: body ++ behind) = (.comment, ('*' :: body).length) := by
  have hlength := commentLength?_one_eq_some_iff.mpr ⟨body, behind, rfl, rfl, hbody⟩
  simp [classify, classifySlash, isSpace, Kind.ofPair?, hlength]

/-- Where no block comment stands in front of the text, the rest of the source
is a comment that never ends. -/
theorem classify_openComment {rest : List Char}
    (hnone : ∀ comment, comment <+: '/' :: '*' :: rest → ¬ BlockComment comment) :
    classify '/' ('*' :: rest ++ []) = (.fault .unterminatedComment, ('*' :: rest).length) := by
  have hlength := commentLength?_one_eq_none_iff.mpr hnone
  simp [classify, classifySlash, isSpace, Kind.ofPair?, hlength]

/-! ## Sources -/

/-- The final line of a source is that behind what was read and what remains. -/
theorem lineBehind_add (read remaining : List Char) :
    lineBehind read + lineCount remaining = lineBehind (read ++ remaining) := by
  rw [lineBehind, lineBehind, Int.add_assoc, ← Int.natCast_add]
  exact congrArg (fun count : Nat => 1 + (count : Int)) List.count_append.symm

/-- Where the scanner comes to an opening mark, at most one comment is in front of
it.  If there is one, a cursor moves behind it, neither a token nor a diagnostic
comes of it, and scanning goes on with what follows, as many lines further down
as the comment has line breaks.  If there is none, a cursor moves to the end of
the source, and all that follows is one diagnostic on the final line. -/
theorem comments_balance (source : String) (before after : List Piece) (rest : List Char)
    (hpieces : pieces 1 source.toList = before ++ after)
    (hremaining : after.flatMap Piece.text = '/' :: '*' :: rest) :
    let read := before.flatMap Piece.text
    let start := between read ('/' :: '*' :: rest) (lineBehind read)
    start.source = source.toList ∧
    (∀ comment behind, '/' :: '*' :: rest = comment ++ behind → BlockComment comment →
      let line := lineBehind read + lineCount comment
      (∀ other, other <+: '/' :: '*' :: rest → BlockComment other → other = comment) ∧
        attemptPiece start = .ok (.comment, between (read ++ comment) behind line) ∧
        (ofSource source).tokens = before.filterMap Piece.token? ++
          (pieces line behind).filterMap Piece.token? ++ [Token.endAt (endLine source.toList)] ∧
        (ofSource source).errors = before.filterMap Piece.diagnostic? ++
          (pieces line behind).filterMap Piece.diagnostic?) ∧
    ((∀ comment, comment <+: '/' :: '*' :: rest → ¬ BlockComment comment) →
      attemptPiece start = .ok (.fault .unterminatedComment,
          between source.toList [] (endLine source.toList)) ∧
        (ofSource source).tokens =
          before.filterMap Piece.token? ++ [Token.endAt (endLine source.toList)] ∧
        (ofSource source).errors = before.filterMap Piece.diagnostic? ++
          [⟨.scanning, endLine source.toList, none, "Unterminated block comment."⟩]) := by
  intro read start
  have hsource : read ++ '/' :: '*' :: rest = source.toList := by
    have hcovers := (splits_pieces 1 source.toList).flatMap_text
    rw [hpieces, List.flatMap_append, hremaining] at hcovers
    exact hcovers
  have hafter : after = pieces (lineBehind read) ('/' :: '*' :: rest) := by
    have hbehind := pieces_behind hpieces
    rw [hremaining] at hbehind
    exact hbehind
  have htokens : (ofSource source).tokens = before.filterMap Piece.token? ++
      after.filterMap Piece.token? ++ [Token.endAt (endLine source.toList)] := by
    rw [← List.filterMap_append, ← hpieces]
    rfl
  have herrors : (ofSource source).errors =
      before.filterMap Piece.diagnostic? ++ after.filterMap Piece.diagnostic? := by
    rw [← List.filterMap_append, ← hpieces]
    rfl
  refine ⟨hsource, ?_, ?_⟩
  · rintro comment behind hsplit hcomment line
    have hfront : comment <+: '/' :: '*' :: rest := ⟨behind, hsplit.symm⟩
    have hunique : ∀ other, other <+: '/' :: '*' :: rest → BlockComment other → other = comment :=
      fun other hfront' hother => hcomment.eq_of_prefix hother hfront hfront'
    obtain ⟨body, rfl, hbody⟩ := hcomment
    obtain rfl : rest = body ++ behind := by simpa using hsplit
    have hclassify := classify_comment hbody behind
    have hpieces' : after = ⟨.comment, '/' :: '*' :: body, lineBehind read⟩ :: pieces line behind :=
      hafter.trans (pieces_of_classify hclassify (lineBehind read))
    refine ⟨hunique, attemptPiece_between hclassify read (lineBehind read), ?_, ?_⟩
    · rw [htokens, hpieces', List.filterMap_cons_none rfl]
    · rw [herrors, hpieces', List.filterMap_cons_none rfl]
  · intro hnone
    have hclassify := classify_openComment hnone
    have hline : lineBehind read + lineCount ('/' :: '*' :: rest) = endLine source.toList := by
      rw [lineBehind_add, hsource]
      rfl
    have hmoved := attemptPiece_between hclassify read (lineBehind read)
    have hpieces' := hafter
    rw [← List.append_nil rest, ← List.cons_append, pieces_of_classify hclassify, pieces]
      at hpieces'
    rw [hline, hsource, List.append_nil] at hmoved
    refine ⟨hmoved, ?_, ?_⟩
    · rw [htokens, hpieces', List.filterMap_cons_none rfl, List.filterMap_nil, List.append_nil]
    · rw [herrors, hpieces', ← hline]
      rfl

/-- In `a/*/ /**/\n**/b/*/` the slash behind the first mark opens no comment, and
the first of three characters that end the comment is not part of its closing
mark.  The second comment never ends, since a star cannot open and close it. -/
theorem comments_balance_overlap :
    let source := "a/*/ /**/\n**/b/*/"
    attemptPiece (between ['a'] "/*/ /**/\n**/b/*/".toList 1) =
        .ok (.comment, between "a/*/ /**/\n**/".toList "b/*/".toList 2) ∧
      attemptPiece (between "a/*/ /**/\n**/b".toList "/*/".toList 2) =
        .ok (.fault .unterminatedComment, between source.toList [] 2) ∧
      (ofSource source).tokens =
        [⟨.identifier, "a", none, 1⟩, ⟨.identifier, "b", none, 2⟩, ⟨.eof, "", none, 2⟩] ∧
      (ofSource source).errors = [⟨.scanning, 2, none, "Unterminated block comment."⟩] := by
  intro source
  let name (c : Char) (line : Int) : Piece := ⟨.token .identifier none, [c], line⟩
  let comment : Piece := ⟨.comment, "/*/ /**/\n**/".toList, 1⟩
  let mistake : Piece := ⟨.fault .unterminatedComment, "/*/".toList, 2⟩
  have hcomment : BlockComment "/*/ /**/\n**/".toList := by
    have hlast : CommentBody ['\n', '*', '*', '/'] :=
      .plain '\n' _ (by simp) (by simp) (.plain '*' _ (by simp) (by simp) .close)
    have hnested : CommentBody ['/', '*', '*', '/', '\n', '*', '*', '/'] :=
      .nested ['*', '/'] _ .close hlast
    exact ⟨'/' :: ' ' :: ['/', '*', '*', '/', '\n', '*', '*', '/'], rfl,
      .plain '/' _ (by simp) (by simp) (.plain ' ' _ (by simp) (by simp) hnested)⟩
  obtain ⟨-, hskipped, -⟩ := comments_balance source [name 'a' 1] [comment, name 'b' 2, mistake]
    "/ /**/\n**/b/*/".toList (by decide +kernel) (by decide +kernel)
  obtain ⟨-, hbehind, -⟩ := hskipped "/*/ /**/\n**/".toList "b/*/".toList rfl hcomment
  obtain ⟨-, -, hopen⟩ := comments_balance source [name 'a' 1, comment, name 'b' 2] [mistake] ['/']
    (by decide +kernel) (by decide +kernel)
  obtain ⟨hend, htokens, herrors⟩ := hopen (commentLength?_one_eq_none_iff.mp rfl)
  have hline : endLine source.toList = 2 := by decide +kernel
  rw [hline] at hend htokens herrors
  exact ⟨hbehind, hend, htokens, herrors⟩

end Scan

end Lumen
