import Lumen.Session
import Lumen.Proofs.Relocation

/-!
# Two sources as one script

A line break between two sources keeps them apart.  No token and no comment of
the first one reaches over it, unless the first source ends within a string or
a comment.  What the grammar derives ends with its semicolon, and a run keeps
nothing from statement to statement but the bindings.  So one run of both
sources does what two runs in succession do, with the diagnostics of the second
source further down.
-/

namespace Lumen

namespace Scan

/-! ## Pieces in front of a line break -/

theorem takeWhile_append_newline (condition : Char → Bool) (hnewline : condition '\n' = false)
    (text more : List Char) :
    (text ++ '\n' :: more).takeWhile condition = text.takeWhile condition := by
  induction text with
  | nil => simp [hnewline]
  | cons c text ih =>
      by_cases hc : condition c = true
      · simp [hc, ih]
      · simp [hc]

theorem ofPair?_newline (first : Char) : Kind.ofPair? first '\n' = none := by
  unfold Kind.ofPair?
  split <;> simp_all

theorem classifyWord_append (first : Char) (rest more : List Char) :
    classifyWord first (rest ++ '\n' :: more) = classifyWord first rest := by
  rw [classifyWord, takeWhile_append_newline isNamePart rfl]
  rfl

theorem classifyNumber_append (first : Char) (rest more : List Char) :
    classifyNumber first (rest ++ '\n' :: more) = classifyNumber first rest := by
  obtain ⟨whole, behind, rfl, htake, -, -⟩ := exists_span isDigit rest
  have htake' : (whole ++ behind ++ '\n' :: more).takeWhile isDigit = whole := by
    rw [takeWhile_append_newline isDigit rfl, htake]
  rw [classifyNumber, classifyNumber, htake, htake', List.append_assoc, List.drop_left,
    List.drop_left]
  cases behind with
  | nil => rfl
  | cons c behind =>
      by_cases hpoint : c = '.'
      · subst hpoint
        simp only [List.cons_append, takeWhile_append_newline isDigit rfl]
      · simp [hpoint]

/-- A string that ends is not changed by what follows. -/
theorem classifyString_append {rest : List Char}
    (hclosed : isOpen (classifyString rest).1 = false) (more : List Char) :
    classifyString (rest ++ more) = classifyString rest := by
  rw [classifyString] at hclosed
  split at hclosed
  · next hshort =>
      have htake : (rest ++ more).takeWhile (· != '"') = rest.takeWhile (· != '"') := by
        rw [List.takeWhile_append, if_neg (by omega)]
      rw [classifyString, classifyString, htake, if_pos hshort,
        if_pos (by rw [List.length_append]; omega)]
  · cases hclosed

/-- A comment that ends is not changed by what follows. -/
theorem commentLength?_append {rest : List Char} {length : Nat}
    (hlength : commentLength? 1 1 rest = some length) (more : List Char) :
    commentLength? 1 1 (rest ++ more) = some length := by
  obtain ⟨body, behind, rfl, rfl, hbody⟩ := commentLength?_one_eq_some_iff.mp hlength
  exact commentLength?_one_eq_some_iff.mpr
    ⟨body, behind ++ more, List.append_assoc body behind more, rfl, hbody⟩

theorem classifySlash_append {rest : List Char}
    (hclosed : isOpen (classifySlash rest).1 = false) (more : List Char) :
    classifySlash (rest ++ '\n' :: more) = classifySlash rest := by
  unfold classifySlash at hclosed ⊢
  split at hclosed
  · next behind =>
      have hrun := takeWhile_append_newline (· != '\n') rfl ('/' :: behind) more
      simp only [List.cons_append, runLength] at hrun ⊢
      rw [hrun]
  · next body =>
      cases hlength : commentLength? 1 1 body with
      | none => simp [hlength, isOpen] at hclosed
      | some length => simp [commentLength?_append hlength]
  · next hline hblock =>
      cases rest with
      | nil => simp
      | cons c behind =>
          have hslash : c ≠ '/' := fun hc => hline behind (by rw [hc])
          have hstar : c ≠ '*' := fun hc => hblock behind (by rw [hc])
          simp [hslash, hstar]

/-- What a piece is does not depend on the text behind the line, unless the
piece never ends. -/
theorem classify_append {first : Char} {rest : List Char}
    (hclosed : isOpen (classify first rest).1 = false) (more : List Char) :
    classify first (rest ++ '\n' :: more) = classify first rest := by
  have hpair : (rest ++ '\n' :: more).head?.bind (Kind.ofPair? first) =
      rest.head?.bind (Kind.ofPair? first) := by
    cases rest with
    | nil => exact ofPair?_newline first
    | cons second rest => rfl
  -- Only strings and block comments look beyond the line, and these have ended before.
  unfold classify at hclosed ⊢
  rw [hpair]
  split
  · rfl
  · next hspace =>
      rw [if_neg hspace] at hclosed
      split
      · rfl
      · next hnone =>
          simp only [hnone] at hclosed
          split
          · next hslash =>
              rw [if_pos hslash] at hclosed
              exact classifySlash_append hclosed more
          · next hslash =>
              rw [if_neg hslash] at hclosed
              split
              · rfl
              · next hsign =>
                  simp only [hsign] at hclosed
                  split
                  · next hquote =>
                      rw [if_pos hquote] at hclosed
                      exact classifyString_append hclosed ('\n' :: more)
                  · next hquote =>
                      split
                      · exact classifyNumber_append first rest more
                      · split
                        · exact classifyWord_append first rest more
                        · rfl

/-- The line break is a piece of its own. -/
theorem pieces_newline (line : Int) (more : List Char) :
    pieces line ('\n' :: more) = ⟨.blank, ['\n'], line⟩ :: pieces (line + 1) more := by
  rw [pieces]
  rfl

/-- Behind a line break the pieces begin anew, if those before it are closed. -/
theorem pieces_append {line : Int} {text : List Char}
    (hclosed : ∀ piece ∈ pieces line text, isOpen piece.shape = false) (more : List Char) :
    pieces line (text ++ '\n' :: more) =
      pieces line text ++ pieces (line + lineCount text) ('\n' :: more) := by
  induction line, text using pieces.induct with
  | case1 line =>
      rw [pieces, List.nil_append, List.nil_append]
      simp [lineCount]
  | case2 line first rest shape length hclassify text ih =>
      obtain ⟨taken, after, rfl, hlength, -⟩ := cuts_classify first rest
      rw [hclassify] at hlength
      obtain rfl : length = taken.length := hlength
      rw [pieces_of_classify hclassify, List.forall_mem_cons] at hclosed
      simp only [text, List.take_left, List.drop_left] at ih
      have hsame : classify first (taken ++ (after ++ '\n' :: more)) = (shape, taken.length) := by
        rw [← List.append_assoc, classify_append (by rw [hclassify]; exact hclosed.1), hclassify]
      have hlines : (lineCount (first :: (taken ++ after)) : Int) =
          lineCount (first :: taken) + lineCount after := by
        rw [← List.cons_append, lineCount_append, Int.natCast_add]
      rw [List.cons_append, List.append_assoc, pieces_of_classify hsame,
        pieces_of_classify hclassify, ih hclosed.2, hlines, ← Int.add_assoc, List.cons_append]

/-! ## Tokens of both sources -/

/-- The tokens of a source without the end token. -/
def words (source : String) : List Token :=
  (pieces 1 source.toList).filterMap Piece.token?

theorem tokens_ofSource (source : String) :
    (ofSource source).tokens = words source ++ [Token.endAt (endLine source.toList)] :=
  rfl

theorem Lexeme.kind_ne_eof {kind : Kind} {text : List Char} (hlexeme : Lexeme kind text) :
    kind ≠ .eof := by
  rintro rfl
  cases hlexeme with
  | fixed hspelling => cases hspelling

theorem kind_ne_eof_of_mem_words {source : String} {token : Token}
    (hmem : token ∈ words source) : token.kind ≠ .eof := by
  obtain ⟨piece, hpiece, htoken⟩ := List.mem_filterMap.mp hmem
  obtain ⟨before, after, hsplit⟩ := List.append_of_mem hpiece
  have hsplits := splits_pieces 1 source.toList
  rw [hsplit] at hsplits
  have hcut := hsplits.cut.1
  cases hshape : piece.shape with
  | blank => simp [Piece.token?, hshape] at htoken
  | comment => simp [Piece.token?, hshape] at htoken
  | fault cause => simp [Piece.token?, hshape] at htoken
  | token kind literal =>
      rw [hshape] at hcut
      simp only [Piece.token?, hshape, Option.some.injEq] at htoken
      cases hcut with
      | token _ _ _ hlexeme =>
          rw [← htoken]
          exact hlexeme.kind_ne_eof

/-- Every string and every comment of a source ends in it. -/
def Complete (source : String) : Prop :=
  ∀ piece ∈ pieces 1 source.toList, isOpen piece.shape = false

theorem complete_of_errors {source : String} (hnone : (ofSource source).errors = []) :
    Complete source := by
  intro piece hmem
  have hdiagnostic : piece.diagnostic? = none := List.filterMap_eq_nil_iff.mp hnone piece hmem
  cases hshape : piece.shape with
  | blank => rfl
  | comment => rfl
  | token kind literal => rfl
  | fault cause => simp [Piece.diagnostic?, hshape] at hdiagnostic

section Joined

variable {first : String} (hcomplete : Complete first) (second : String)

include hcomplete

theorem pieces_joined :
    pieces 1 (first ++ "\n" ++ second).toList =
      pieces 1 first.toList ++ ⟨.blank, ['\n'], lineBehind first.toList⟩ ::
        (pieces 1 second.toList).map (Piece.shift (lineBehind first.toList)) := by
  have htext : (first ++ "\n" ++ second).toList = first.toList ++ '\n' :: second.toList := by
    simp [String.toList_append]
  rw [htext, pieces_append hcomplete, pieces_newline, ← pieces_shift,
    Int.add_comm 1 (lineBehind first.toList)]
  rfl

/-- The tokens of the second source stand as many lines further down as the
first one has. -/
theorem words_joined :
    words (first ++ "\n" ++ second) =
      words first ++ (words second).map (Token.shift (lineBehind first.toList)) := by
  have hshift : Piece.token? ∘ Piece.shift (lineBehind first.toList) =
      fun piece => piece.token?.map (Token.shift (lineBehind first.toList)) := by
    funext piece
    exact piece.token?_shift (lineBehind first.toList)
  calc words (first ++ "\n" ++ second)
      = (pieces 1 first.toList ++ ⟨.blank, ['\n'], lineBehind first.toList⟩ ::
          (pieces 1 second.toList).map (Piece.shift (lineBehind first.toList))).filterMap
            Piece.token? := by
        rw [words, pieces_joined hcomplete]
    _ = words first ++
          ((pieces 1 second.toList).map (Piece.shift (lineBehind first.toList))).filterMap
            Piece.token? := by
        rw [List.filterMap_append, List.filterMap_cons_none rfl]
        rfl
    _ = words first ++ (words second).map (Token.shift (lineBehind first.toList)) := by
        rw [List.filterMap_map, hshift, ← List.map_filterMap]
        rfl

/-- The lexical mistakes of two sources are those of each of them. -/
theorem errors_joined :
    (ofSource (first ++ "\n" ++ second)).errors =
      (ofSource first).errors ++
        (ofSource second).errors.map (Diagnostic.shift (lineBehind first.toList)) := by
  have hdiagnostic : Piece.diagnostic? ∘ Piece.shift (lineBehind first.toList) =
      fun piece => piece.diagnostic?.map (Diagnostic.shift (lineBehind first.toList)) := by
    funext piece
    exact piece.diagnostic?_shift (lineBehind first.toList)
  calc (ofSource (first ++ "\n" ++ second)).errors
      = (pieces 1 first.toList ++ ⟨.blank, ['\n'], lineBehind first.toList⟩ ::
          (pieces 1 second.toList).map (Piece.shift (lineBehind first.toList))).filterMap
            Piece.diagnostic? := by
        rw [← pieces_joined hcomplete]
        rfl
    _ = (ofSource first).errors ++
          (ofSource second).errors.map (Diagnostic.shift (lineBehind first.toList)) := by
        rw [List.filterMap_append, List.filterMap_cons_none rfl, List.filterMap_map, hdiagnostic,
          ← List.map_filterMap]
        rfl

end Joined

end Scan

/-! ## Statements of both sources -/

open Grammar

theorem Program.written_of_strict {limits : Limits} {tokens : List Token} {stmts : List Stmt}
    (hstrict : Program.strict limits tokens = .ok stmts) {stmt : Stmt} (hmem : stmt ∈ stmts) :
    stmt.Written := by
  obtain ⟨clauses, -, rfl, -⟩ := Program.strict_eq_ok_iff.mp hstrict
  obtain ⟨clause, -, rfl⟩ := List.mem_map.mp hmem
  exact clause.written_tree

/-- Two programs in succession are one program, wherever the second one stands. -/
theorem Program.strict_append {limits : Limits} {first second : List Token}
    {stop stop' last : Token} {stmts stmts' : List Stmt} (lines : Int)
    (hwords : ∀ token ∈ first, token.kind ≠ .eof) (hwords' : ∀ token ∈ second, token.kind ≠ .eof)
    (hstop : stop.kind = .eof) (hstop' : stop'.kind = .eof) (hlast : last.kind = .eof)
    (hfirst : Program.strict limits (first ++ [stop]) = .ok stmts)
    (hsecond : Program.strict limits (second ++ [stop']) = .ok stmts') :
    Program.strict limits (first ++ second.map (Token.shift lines) ++ [last]) =
      .ok (stmts ++ stmts'.map (Stmt.shift lines)) := by
  have hjoined : ∀ token ∈ first ++ second.map (Token.shift lines), token.kind ≠ .eof := by
    intro token hmem
    rcases List.mem_append.mp hmem with hmem | hmem
    · exact hwords token hmem
    · obtain ⟨original, horiginal, rfl⟩ := List.mem_map.mp hmem
      exact hwords' original horiginal
  rw [Program.strict_eq_ok_iff, Sentence.ofTokens_append hwords hstop] at hfirst
  rw [Program.strict_eq_ok_iff, Sentence.ofTokens_append hwords' hstop'] at hsecond
  rw [Program.strict_eq_ok_iff, Sentence.ofTokens_append hjoined hlast]
  obtain ⟨clauses, hyield, rfl, hfits⟩ := hfirst
  obtain ⟨clauses', hyield', rfl, hfits'⟩ := hsecond
  refine ⟨clauses ++ clauses'.map (Clause.shift lines), ?_, ?_, ?_⟩
  · rw [List.flatMap_append, hyield, List.flatMap_map]
    simp only [Clause.yield_shift]
    rw [← List.map_flatMap, hyield']
  · rw [List.map_append, List.map_map, List.map_map]
    congr 2
    funext clause
    exact clause.tree_shift lines
  · intro stmt hmem
    rcases List.mem_append.mp hmem with hmem | hmem
    · exact hfits stmt hmem
    · obtain ⟨original, horiginal, rfl⟩ := List.mem_map.mp hmem
      exact (original.fits_shift_iff lines).mpr (hfits' original horiginal)

namespace Analysis

variable {limits : Limits} {source first second : String}

theorem strict_of_errors (hnone : (ofSource limits source).errors = []) :
    Program.strict limits (Scan.ofSource source).tokens =
      .ok (ofSource limits source).program.statements :=
  Program.strict_eq_ok_iff_errors.mpr ⟨(List.append_eq_nil_iff.mp hnone).2, rfl⟩

/-- Two sources without mistakes are read as the statements of one and then of
the other. -/
theorem strict_joined (hfirst : (ofSource limits first).errors = [])
    (hsecond : (ofSource limits second).errors = []) :
    Program.strict limits (Scan.ofSource (first ++ "\n" ++ second)).tokens =
      .ok ((ofSource limits first).program.statements ++
        (ofSource limits second).program.statements.map
          (Stmt.shift (Scan.lineBehind first.toList))) := by
  have hcomplete := Scan.complete_of_errors (List.append_eq_nil_iff.mp hfirst).1
  rw [Scan.tokens_ofSource, Scan.words_joined hcomplete]
  exact Program.strict_append (Scan.lineBehind first.toList)
    (fun token hmem => Scan.kind_ne_eof_of_mem_words hmem)
    (fun token hmem => Scan.kind_ne_eof_of_mem_words hmem) rfl rfl rfl
    (strict_of_errors hfirst) (strict_of_errors hsecond)

theorem errors_joined (hfirst : (ofSource limits first).errors = [])
    (hsecond : (ofSource limits second).errors = []) :
    (ofSource limits (first ++ "\n" ++ second)).errors = [] := by
  have hprogram := (Program.strict_eq_ok_iff_errors.mp (strict_joined hfirst hsecond)).1
  have hfirstScan : (Scan.ofSource first).errors = [] := (List.append_eq_nil_iff.mp hfirst).1
  have hsecondScan : (Scan.ofSource second).errors = [] := (List.append_eq_nil_iff.mp hsecond).1
  have hscan : (Scan.ofSource (first ++ "\n" ++ second)).errors = [] := by
    rw [Scan.errors_joined (Scan.complete_of_errors hfirstScan), hfirstScan, hsecondScan]
    rfl
  exact List.append_eq_nil_iff.mpr ⟨hscan, hprogram⟩

/-- The statements of the second source follow those of the first one. -/
theorem statements_joined (hfirst : (ofSource limits first).errors = [])
    (hsecond : (ofSource limits second).errors = []) :
    (ofSource limits (first ++ "\n" ++ second)).program.statements =
      (ofSource limits first).program.statements ++
        (ofSource limits second).program.statements.map
          (Stmt.shift (Scan.lineBehind first.toList)) :=
  (Program.strict_eq_ok_iff_errors.mp (strict_joined hfirst hsecond)).2

theorem written_of_errors (hnone : (ofSource limits source).errors = []) {stmt : Stmt}
    (hmem : stmt ∈ (ofSource limits source).program.statements) : stmt.Written :=
  Program.written_of_strict (strict_of_errors hnone) hmem

end Analysis

/-! ## Runs of both sources -/

theorem Transcript.output_append (first second : Transcript) :
    Transcript.output (first ++ second) = first.output ++ second.output := by
  rw [output, List.map_append, String.join_append]
  rfl

theorem Transcript.diagnostics_append (first second : Transcript) :
    Transcript.diagnostics (first ++ second) = first.diagnostics ++ second.diagnostics :=
  List.filterMap_append

theorem Transcript.output_reported (mistakes : List Diagnostic) (note : Note) :
    Transcript.output (mistakes.map Event.reported ++ [.noted note]) = "" := by
  induction mistakes with
  | nil => rfl
  | cons mistake mistakes ih =>
      rw [List.map_cons, List.cons_append, output, List.map_cons, String.join_cons]
      exact String.empty_append.trans ih

theorem Transcript.diagnostics_reported (mistakes : List Diagnostic) (note : Note) :
    Transcript.diagnostics (mistakes.map Event.reported ++ [.noted note]) = mistakes := by
  have hreported : Event.diagnostic? ∘ Event.reported = some := rfl
  rw [diagnostics_append, diagnostics, List.filterMap_map, hreported, List.filterMap_some]
  exact List.append_nil mistakes

theorem Analysis.output_events (analysis : Analysis) :
    Transcript.output (analysis.scan.events ++ analysis.program.events) = "" := by
  rw [Transcript.output_append, Scan.events, Program.events, Transcript.output_reported,
    Transcript.output_reported, String.empty_append]

theorem Analysis.diagnostics_events (analysis : Analysis) :
    Transcript.diagnostics (analysis.scan.events ++ analysis.program.events) =
      analysis.errors := by
  rw [Transcript.diagnostics_append, Scan.events, Program.events,
    Transcript.diagnostics_reported, Transcript.diagnostics_reported, errors]

namespace Session

variable {session : Session} {source first second : String}

/-- The run of a source's statements on the bindings of a session. -/
def execution (session : Session) (source : String) : Execution :=
  Machine.run session.limits ⟨session.machine.bindings, none⟩
    (Analysis.ofSource session.limits source).program.statements

/-- A source without mistakes is executed, and the session keeps what the run
leaves. -/
theorem run_of_errors (hnone : (Analysis.ofSource session.limits source).errors = []) :
    session.run source =
      (if (session.execution source).succeeded then .ok else .runtimeError,
        (Analysis.ofSource session.limits source).scan.events ++
          (Analysis.ofSource session.limits source).program.events ++
          (session.execution source).events,
        { session with
          machine := (session.execution source).machine
          reporter := Reporter.fresh.recordAll (session.execution source).failures }) := by
  have hlimits : ∀ machine reporter,
      ({ session with machine := machine, reporter := reporter } : Session).limits =
        session.limits := fun _ _ => rfl
  simp only [run, statements, hlimits, hnone, List.isEmpty_nil, if_true, Reporter.recordAll_nil]
  rfl

theorem status_run (hnone : (Analysis.ofSource session.limits source).errors = []) :
    (session.run source).1 =
      if (session.execution source).failures = [] then .ok else .runtimeError := by
  rw [run_of_errors hnone]
  simp [Execution.succeeded]

theorem output_run (hnone : (Analysis.ofSource session.limits source).errors = []) :
    (session.run source).2.1.output = (session.execution source).events.output := by
  rw [run_of_errors hnone, Transcript.output_append, Analysis.output_events,
    String.empty_append]

/-- The diagnostics of a source without mistakes are the failures of its run. -/
theorem diagnostics_run (hnone : (Analysis.ofSource session.limits source).errors = []) :
    (session.run source).2.1.diagnostics = (session.execution source).failures ∧
      (session.run source).2.2.reporter.diagnostics = (session.execution source).failures := by
  rw [run_of_errors hnone, Transcript.diagnostics_append, Analysis.diagnostics_events, hnone]
  exact ⟨rfl, rfl⟩

theorem bindings_run (hnone : (Analysis.ofSource session.limits source).errors = []) :
    (session.run source).2.2.machine.bindings = (session.execution source).machine.bindings := by
  rw [run_of_errors hnone]

theorem limits_run (hnone : (Analysis.ofSource session.limits source).errors = []) :
    (session.run source).2.2.limits = session.limits := by
  rw [run_of_errors hnone]
  rfl

/-- The statements of both sources run as those of the second one do after those
of the first. -/
theorem execution_joined (hfirst : (Analysis.ofSource session.limits first).errors = [])
    (hsecond : (Analysis.ofSource session.limits second).errors = []) :
    (session.execution (first ++ "\n" ++ second)).events =
        (session.execution first).events ++
          ((session.run first).2.2.execution second).events.map
            (Event.shift (Scan.lineBehind first.toList)) ∧
      (session.execution (first ++ "\n" ++ second)).machine.bindings =
        ((session.run first).2.2.execution second).machine.bindings := by
  have hwritten : ∀ stmt ∈ (Analysis.ofSource session.limits second).program.statements,
      stmt.Written := fun stmt hmem => Analysis.written_of_errors hsecond hmem
  have hwhole : (session.execution first).aborted = none :=
    Machine.aborted_run (fun stmt hmem => Analysis.written_of_errors hfirst hmem) _
  have hjoined : session.execution (first ++ "\n" ++ second) =
      (session.execution first).andThen fun machine =>
        (machine.run session.limits
          (Analysis.ofSource session.limits second).program.statements).shift
          (Scan.lineBehind first.toList) := by
    rw [execution, Analysis.statements_joined hfirst hsecond, Machine.run_append]
    congr 1
    funext machine
    exact Machine.run_shift (Scan.lineBehind first.toList) hwritten machine
  have hlater : (session.run first).2.2.execution second =
      Machine.run session.limits ⟨(session.execution first).machine.bindings, none⟩
        (Analysis.ofSource session.limits second).program.statements := by
    rw [execution, limits_run hfirst, bindings_run hfirst]
  -- The second run starts without the value that the first one left.
  obtain ⟨hevents, hbindings⟩ := Machine.run_last session.limits
    (session.execution first).machine.bindings (session.execution first).machine.last none
    (Analysis.ofSource session.limits second).program.statements
  rw [hlater, ← hevents, ← hbindings, hjoined, Execution.andThen, hwhole]
  exact ⟨rfl, rfl⟩

/-- Running two sources without mistakes one after the other is running them as
one script, with a line break between them. -/
theorem run_joined (session : Session) (first second : String)
    (hfirst : (Analysis.ofSource session.limits first).errors = [])
    (hsecond : (Analysis.ofSource session.limits second).errors = []) :
    let earlier := session.run first
    let later := earlier.2.2.run second
    let joined := session.run (first ++ "\n" ++ second)
    let lines : Int := 1 + (first.toList.count '\n' : Int)
    joined.2.2.machine.bindings = later.2.2.machine.bindings ∧
      joined.2.1.output = earlier.2.1.output ++ later.2.1.output ∧
      joined.1 = (if earlier.1 = .runtimeError ∨ later.1 = .runtimeError then .runtimeError
        else .ok) ∧
      joined.2.2.reporter.diagnostics =
        earlier.2.2.reporter.diagnostics ++
          later.2.2.reporter.diagnostics.map (Diagnostic.shift lines) ∧
      joined.2.1.diagnostics =
        earlier.2.1.diagnostics ++ later.2.1.diagnostics.map (Diagnostic.shift lines) := by
  have hjoined := Analysis.errors_joined hfirst hsecond
  have hlater : (Analysis.ofSource (session.run first).2.2.limits second).errors = [] := by
    rw [limits_run hfirst]
    exact hsecond
  obtain ⟨hevents, hbindings⟩ := execution_joined hfirst hsecond
  have hfailures : (session.execution (first ++ "\n" ++ second)).failures =
      (session.execution first).failures ++
        ((session.run first).2.2.execution second).failures.map
          (Diagnostic.shift (Scan.lineBehind first.toList)) := by
    rw [Execution.failures, hevents, Transcript.diagnostics_append,
      Transcript.diagnostics_shift]
    rfl
  refine ⟨?_, ?_, ?_, ?_, ?_⟩
  · rw [bindings_run hjoined, bindings_run hlater, hbindings]
  · rw [output_run hjoined, output_run hfirst, output_run hlater, hevents,
      Transcript.output_append, Transcript.output_shift]
  · rw [status_run hjoined, status_run hfirst, status_run hlater, hfailures]
    by_cases hone : (session.execution first).failures = []
    · by_cases htwo : ((session.run first).2.2.execution second).failures = []
      · simp [hone, htwo]
      · simp [hone, htwo]
    · simp [hone]
  · rw [(diagnostics_run hjoined).2, (diagnostics_run hfirst).2, (diagnostics_run hlater).2,
      hfailures]
    rfl
  · rw [(diagnostics_run hjoined).1, (diagnostics_run hfirst).1, (diagnostics_run hlater).1,
      hfailures]
    rfl

/-- The second source uses a name of the first, and a statement fails in each. -/
theorem run_joined_failures :
    let session := Session.start .standard
    let first := "var a = nil;\nprint b;"
    let second := "print a;\n// more\nprint (-a + b);"
    (Analysis.ofSource session.limits first).errors = [] ∧
      (Analysis.ofSource session.limits second).errors = [] ∧
      let earlier := session.run first
      let later := earlier.2.2.run second
      let joined := session.run (first ++ "\n" ++ second)
      joined.2.2.machine.bindings = later.2.2.machine.bindings ∧
        joined.2.1.output = earlier.2.1.output ++ later.2.1.output ∧
        joined.1 = (if earlier.1 = .runtimeError ∨ later.1 = .runtimeError then .runtimeError
          else .ok) ∧
        joined.2.2.reporter.diagnostics =
          earlier.2.2.reporter.diagnostics ++
            later.2.2.reporter.diagnostics.map (Diagnostic.shift 2) ∧
        joined.2.1.diagnostics =
          earlier.2.1.diagnostics ++ later.2.1.diagnostics.map (Diagnostic.shift 2) := by
  intro session first second
  have hfirst : (Analysis.ofSource session.limits first).errors = [] := by decide +kernel
  have hsecond : (Analysis.ofSource session.limits second).errors = [] := by decide +kernel
  have hlines : 1 + (first.toList.count '\n' : Int) = 2 := by decide
  refine ⟨hfirst, hsecond, ?_⟩
  rw [← hlines]
  exact run_joined session first second hfirst hsecond

end Session

end Lumen
