import Mathlib.Data.List.Basic
import Lumen.Proofs.Lexeme

/-!
# Scanning splits the source

The pieces that scanning finds cover the source without gap or overlap.  Every
piece is cut as the language prescribes, in view of the text behind it, and
carries the line of its first character.  Tokens and diagnostics are read off
the pieces in order, so their lines are right as well; only an unterminated
comment is reported where the source ends.
-/

namespace Lumen

namespace Scan

def lineBehind (text : List Char) : Int :=
  1 + (text.count '\n' : Int)

def errorOf (source : List Char) (piece : Piece) : Option Diagnostic :=
  match piece.shape with
  | .fault (.unexpected c) =>
      some ⟨.scanning, piece.line, none, "Unexpected character '" ++ String.singleton c ++ "'."⟩
  | .fault .unterminatedString => some ⟨.scanning, piece.line, none, "Unterminated string."⟩
  | .fault .unterminatedComment =>
      some ⟨.scanning, lineBehind source, none, "Unterminated block comment."⟩
  | _ => none

/-- Shapes of a piece that can only be the last one. -/
def isOpen : Shape → Bool
  | .fault .unterminatedString | .fault .unterminatedComment => true
  | _ => false

/-- A split of a source into pieces that explains a scan of it. -/
structure Explains (source : List Char) (split : List Piece) (scan : Scan) : Prop where
  covers : split.flatMap Piece.text = source
  cut : ∀ before piece after, split = before ++ piece :: after →
    Cut (after.flatMap Piece.text) piece.shape piece.text
  line : ∀ before piece after, split = before ++ piece :: after →
    piece.line = lineBehind (before.flatMap Piece.text)
  last : ∀ before piece after, split = before ++ piece :: after →
    isOpen piece.shape = true → after = []
  tokens : scan.tokens =
    split.filterMap Piece.token? ++ [⟨.eof, "", none, lineBehind source⟩]
  errors : scan.errors = split.filterMap (errorOf source)

/-! ## One piece and those behind it -/

theorem Cut.ne_nil {after text : List Char} {shape : Shape} (hcut : Cut after shape text) :
    text ≠ [] := by
  cases hcut with
  | blockComment text htext =>
      obtain ⟨body, rfl, -⟩ := htext
      simp
  | token kind literal text hlexeme =>
      cases hlexeme with
      | fixed hspelling =>
          obtain ⟨first, more, hbegins, -⟩ := spelling?_begins hspelling
          simp [hbegins]
      | name => simp
      | whole => simp
      | fraction => simp
      | string => simp
  | blank => simp
  | lineComment => simp
  | unexpected => simp
  | openString => simp
  | openComment => simp

/-- Nothing stands behind a piece that only the end of the text ends. -/
theorem Cut.after_eq_nil {after text : List Char} {shape : Shape} (hcut : Cut after shape text)
    (hopen : isOpen shape = true) : after = [] := by
  cases hcut with
  | openString body hbody hafter => exact hafter
  | openComment body hnone hafter => exact hafter
  | blank => cases hopen
  | lineComment => cases hopen
  | blockComment => cases hopen
  | token => cases hopen
  | unexpected => cases hopen

/-- Pieces that split a text which begins on a given line. -/
inductive Splits : Int → List Char → List Piece → Prop
  | nil (line : Int) : Splits line [] []
  | cons {line : Int} {shape : Shape} {text after : List Char} {later : List Piece}
      (hcut : Cut after shape text) (hlater : Splits (line + lineCount text) after later) :
      Splits line (text ++ after) (⟨shape, text, line⟩ :: later)

theorem pieces_of_classify {first : Char} {taken after : List Char} {shape : Shape}
    (hclassify : classify first (taken ++ after) = (shape, taken.length)) (line : Int) :
    pieces line (first :: (taken ++ after)) =
      ⟨shape, first :: taken, line⟩ :: pieces (line + lineCount (first :: taken)) after := by
  rw [pieces]
  simp only [hclassify, List.take_left, List.drop_left]

theorem splits_pieces (line : Int) (text : List Char) : Splits line text (pieces line text) := by
  induction line, text using pieces.induct with
  | case1 line =>
      rw [pieces]
      exact .nil line
  | case2 line first rest shape length hclassify text ih =>
      obtain ⟨taken, after, rfl, hlength, hcut⟩ := cuts_classify first rest
      rw [hclassify] at hlength hcut
      obtain rfl : length = taken.length := hlength
      simp only [text, List.take_left, List.drop_left] at ih
      rw [pieces_of_classify hclassify]
      exact .cons hcut ih

variable {line : Int} {text : List Char} {split : List Piece}

theorem Splits.flatMap_text (hsplits : Splits line text split) :
    split.flatMap Piece.text = text := by
  induction hsplits with
  | nil line => rfl
  | cons hcut hlater ih => rw [List.flatMap_cons, ih]

theorem lineCount_append (first second : List Char) :
    lineCount (first ++ second) = lineCount first + lineCount second :=
  List.count_append

/-- What stands behind some pieces is split by the pieces behind them. -/
theorem Splits.behind {before after : List Piece} (hsplits : Splits line text (before ++ after)) :
    Splits (line + lineCount (before.flatMap Piece.text)) (after.flatMap Piece.text) after := by
  induction before generalizing line text with
  | nil =>
      rw [List.nil_append] at hsplits
      rw [hsplits.flatMap_text]
      simpa [lineCount] using hsplits
  | cons piece before ih =>
      cases hsplits with
      | cons hcut hlater =>
          have hbehind := ih hlater
          rw [List.flatMap_cons, lineCount_append, Int.natCast_add, ← Int.add_assoc]
          exact hbehind

theorem Splits.head {piece : Piece} {later : List Piece}
    (hsplits : Splits line text (piece :: later)) :
    Cut (later.flatMap Piece.text) piece.shape piece.text ∧ piece.line = line := by
  cases hsplits with
  | cons hcut hlater =>
      rw [hlater.flatMap_text]
      exact ⟨hcut, rfl⟩

/-- Every piece is one that may stand in front of what follows it, on the line
that the text before it leads to. -/
theorem Splits.cut {before after : List Piece} {piece : Piece}
    (hsplits : Splits line text (before ++ piece :: after)) :
    Cut (after.flatMap Piece.text) piece.shape piece.text ∧
      piece.line = line + lineCount (before.flatMap Piece.text) :=
  hsplits.behind.head

theorem Splits.eq_nil_of_isOpen {before after : List Piece} {piece : Piece}
    (hsplits : Splits line text (before ++ piece :: after))
    (hopen : isOpen piece.shape = true) : after = [] := by
  have hempty := hsplits.cut.1.after_eq_nil hopen
  cases after with
  | nil => rfl
  | cons next later =>
      have hsplits' : Splits line text ((before ++ [piece]) ++ next :: later) := by
        simpa using hsplits
      rw [List.flatMap_cons] at hempty
      exact absurd (List.append_eq_nil_iff.mp hempty).1 hsplits'.cut.1.ne_nil

/-! ## Lines -/

theorem Splits.line_le {piece : Piece} (hsplits : Splits line text split)
    (hmem : piece ∈ split) : line ≤ piece.line := by
  obtain ⟨before, after, rfl⟩ := List.append_of_mem hmem
  have hline := hsplits.cut.2
  omega

/-- The pieces come line by line. -/
theorem Splits.pairwise_lines (hsplits : Splits line text split) :
    split.Pairwise fun first second => first.lastLine ≤ second.line := by
  induction hsplits with
  | nil line => exact .nil
  | cons hcut hlater ih => exact .cons (fun piece hmem => hlater.line_le hmem) ih

/-- The diagnostics that the pieces call for are those that the scanner reads
off them. -/
theorem Splits.diagnostic?_eq (hsplits : Splits 1 text split) {piece : Piece}
    (hmem : piece ∈ split) : piece.diagnostic? = errorOf text piece := by
  cases hshape : piece.shape with
  | blank => rw [Piece.diagnostic?, errorOf, hshape]
  | comment => rw [Piece.diagnostic?, errorOf, hshape]
  | token kind literal => rw [Piece.diagnostic?, errorOf, hshape]
  | fault cause =>
      cases cause with
      | unexpected c =>
          rw [Piece.diagnostic?, errorOf, hshape]
          rfl
      | unterminatedString =>
          rw [Piece.diagnostic?, errorOf, hshape]
          rfl
      | unterminatedComment =>
          have hlast : piece.lastLine = lineBehind text := by
            obtain ⟨before, after, rfl⟩ := List.append_of_mem hmem
            obtain rfl := hsplits.eq_nil_of_isOpen (by rw [hshape]; rfl)
            have htext : before.flatMap Piece.text ++ piece.text = text := by
              rw [← hsplits.flatMap_text, List.flatMap_append, List.flatMap_singleton]
            calc piece.lastLine
                = 1 + lineCount (before.flatMap Piece.text) + lineCount piece.text := by
                  rw [Piece.lastLine, hsplits.cut.2]
              _ = 1 + lineCount (before.flatMap Piece.text ++ piece.text) := by
                  rw [lineCount_append, Int.natCast_add, Int.add_assoc]
              _ = lineBehind text := by
                  rw [htext]
                  rfl
          rw [Piece.diagnostic?, errorOf, hshape, ← hlast]
          rfl

theorem line_bounds_of_diagnostic? {piece : Piece} {error : Diagnostic}
    (herror : piece.diagnostic? = some error) :
    piece.line ≤ error.line ∧ error.line ≤ piece.lastLine := by
  have hlast : piece.line ≤ piece.lastLine := by
    rw [Piece.lastLine]
    omega
  cases hshape : piece.shape with
  | blank => simp [Piece.diagnostic?, hshape] at herror
  | comment => simp [Piece.diagnostic?, hshape] at herror
  | token kind literal => simp [Piece.diagnostic?, hshape] at herror
  | fault cause =>
      rw [Piece.diagnostic?, hshape] at herror
      obtain rfl := Option.some.inj herror
      cases cause with
      | unexpected c => exact ⟨Int.le_refl _, hlast⟩
      | unterminatedString => exact ⟨Int.le_refl _, hlast⟩
      | unterminatedComment => exact ⟨hlast, Int.le_refl _⟩

/-- The diagnostics come line by line. -/
theorem Splits.pairwise_diagnostics (hsplits : Splits line text split) :
    ((split.filterMap Piece.diagnostic?).map Diagnostic.line).Pairwise (· ≤ ·) := by
  rw [List.pairwise_map, List.pairwise_filterMap]
  refine hsplits.pairwise_lines.imp ?_
  intro first second hlines error herror error' herror'
  have hfirst := (line_bounds_of_diagnostic? herror).2
  have hsecond := (line_bounds_of_diagnostic? herror').1
  omega

/-- Scanning splits every source into pieces that explain its tokens and its
diagnostics.  The diagnostics come in the order of their lines, and no token but
the end token stands behind a string or a comment that never closes. -/
theorem scan_explained (source : String) :
    Explains source.toList (pieces 1 source.toList) (ofSource source) ∧
      ((ofSource source).errors.map Diagnostic.line).Pairwise (· ≤ ·) ∧
      ∀ before piece after, pieces 1 source.toList = before ++ piece :: after →
        isOpen piece.shape = true →
        (ofSource source).tokens =
            before.filterMap Piece.token? ++ [⟨.eof, "", none, lineBehind source.toList⟩] ∧
          (ofSource source).errors =
            before.filterMap (errorOf source.toList) ++
              (errorOf source.toList piece).toList := by
  have hsplits := splits_pieces 1 source.toList
  have herrors : (ofSource source).errors =
      (pieces 1 source.toList).filterMap (errorOf source.toList) :=
    List.filterMap_congr fun piece hmem => hsplits.diagnostic?_eq hmem
  refine ⟨⟨hsplits.flatMap_text, ?_, ?_, ?_, rfl, herrors⟩, hsplits.pairwise_diagnostics, ?_⟩
  · intro before piece after hpieces
    rw [hpieces] at hsplits
    exact hsplits.cut.1
  · intro before piece after hpieces
    rw [hpieces] at hsplits
    exact hsplits.cut.2
  · intro before piece after hpieces hopen
    rw [hpieces] at hsplits
    exact hsplits.eq_nil_of_isOpen hopen
  · intro before piece after hpieces hopen
    rw [hpieces] at hsplits herrors
    obtain rfl := hsplits.eq_nil_of_isOpen hopen
    have htoken : piece.token? = none := by
      cases hshape : piece.shape <;> simp [hshape, isOpen, Piece.token?] at hopen ⊢
    constructor
    · have htokens : (ofSource source).tokens =
          (pieces 1 source.toList).filterMap Piece.token? ++
            [⟨.eof, "", none, lineBehind source.toList⟩] := rfl
      rw [htokens, hpieces, List.filterMap_append, List.filterMap_cons_none htoken]
      simp
    · rw [herrors, List.filterMap_append]
      cases hfound : errorOf source.toList piece <;> simp [hfound]

end Scan

end Lumen
