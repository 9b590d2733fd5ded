import Lumen.Proofs.Separators

/-!
# Line ends

A source may end its lines with a line feed or with a carriage return and a line
feed.  Between tokens the carriage return is one more blank, and in comments and
strings it is one more character.  No mark, sign, word or number contains it, and
where the scanner looks ahead it stops a token as the line feed does.  So both
sources are scanned alike; only strings that go over a line end hold the carriage
returns of their text.
-/

namespace Lumen

/-! ## Carriage returns -/

namespace Text

/-- A text with a carriage return in front of every line feed. -/
def crlf (text : List Char) : List Char :=
  text.flatMap fun c => if c = '\n' then ['\r', '\n'] else [c]

@[simp] theorem crlf_nil : crlf [] = [] := rfl

@[simp] theorem crlf_newline (text : List Char) :
    crlf ('\n' :: text) = '\r' :: '\n' :: crlf text := rfl

theorem crlf_cons {c : Char} (hc : c ≠ '\n') (text : List Char) :
    crlf (c :: text) = c :: crlf text := by
  rw [crlf, List.flatMap_cons, if_neg hc]
  rfl

@[simp] theorem crlf_append (first second : List Char) :
    crlf (first ++ second) = crlf first ++ crlf second :=
  List.flatMap_append

theorem crlf_eq_self {text : List Char} (hnone : '\n' ∉ text) : crlf text = text := by
  induction text with
  | nil => rfl
  | cons c text ih =>
      rw [List.mem_cons, not_or] at hnone
      rw [crlf_cons (Ne.symm hnone.1), ih hnone.2]

theorem length_crlf (text : List Char) :
    (crlf text).length = text.length + Scan.lineCount text := by
  induction text with
  | nil => rfl
  | cons c text ih =>
      by_cases hc : c = '\n'
      · subst hc
        simp only [crlf_newline, List.length_cons, ih, Scan.lineCount, List.count_cons_self]
        omega
      · rw [crlf_cons hc, List.length_cons, List.length_cons, ih, Scan.lineCount, Scan.lineCount,
          List.count_cons_of_ne hc]
        omega

theorem crlf_eq_self_iff {text : List Char} : crlf text = text ↔ '\n' ∉ text := by
  refine ⟨fun hsame hmem => ?_, crlf_eq_self⟩
  have hlength := congrArg List.length hsame
  have hpos : 0 < Scan.lineCount text := List.count_pos_iff.mpr hmem
  rw [length_crlf] at hlength
  omega

theorem lineCount_crlf (text : List Char) : Scan.lineCount (crlf text) = Scan.lineCount text := by
  induction text with
  | nil => rfl
  | cons c text ih =>
      unfold Scan.lineCount at ih ⊢
      by_cases hc : c = '\n'
      · subst hc
        rw [crlf_newline, List.count_cons_of_ne (by decide), List.count_cons_self, ih,
          List.count_cons_self]
      · rw [crlf_cons hc, List.count_cons_of_ne hc, List.count_cons_of_ne hc, ih]

/-- A character in front that is no carriage return is the one that was there. -/
theorem head_of_crlf {c : Char} {text more : List Char} (hcrlf : crlf text = c :: more)
    (hc : c ≠ '\r') : ∃ rest, text = c :: rest := by
  cases text with
  | nil => cases hcrlf
  | cons first rest =>
      by_cases hfirst : first = '\n'
      · subst hfirst
        exact absurd (List.cons.inj hcrlf).1.symm hc
      · rw [crlf_cons hfirst] at hcrlf
        exact ⟨rest, by rw [(List.cons.inj hcrlf).1]⟩

/-- A run of characters goes on over both characters of a line end or stops in
front of both. -/
theorem takeWhile_crlf {condition : Char → Bool} (hsame : condition '\r' = condition '\n')
    (text : List Char) :
    (crlf text).takeWhile condition = crlf (text.takeWhile condition) := by
  induction text with
  | nil => rfl
  | cons c text ih =>
      by_cases hc : c = '\n'
      · subst hc
        by_cases hnewline : condition '\n' = true
        · rw [crlf_newline, List.takeWhile_cons_of_pos (hsame.trans hnewline),
            List.takeWhile_cons_of_pos hnewline, List.takeWhile_cons_of_pos hnewline, ih,
            crlf_newline]
        · rw [crlf_newline, List.takeWhile_cons_of_neg (hsame ▸ hnewline),
            List.takeWhile_cons_of_neg hnewline, crlf_nil]
      · rw [crlf_cons hc]
        by_cases hcondition : condition c = true
        · rw [List.takeWhile_cons_of_pos hcondition, List.takeWhile_cons_of_pos hcondition, ih,
            crlf_cons hc]
        · rw [List.takeWhile_cons_of_neg hcondition, List.takeWhile_cons_of_neg hcondition,
            crlf_nil]

/-- A run of characters that stops at line ends is the same in both texts. -/
theorem takeWhile_append_crlf {condition : Char → Bool} (hreturn : condition '\r' = false)
    (hnewline : condition '\n' = false) {run behind : List Char} (hline : '\n' ∉ run)
    (htake : (run ++ behind).takeWhile condition = run) :
    (run ++ crlf behind).takeWhile condition = run := by
  calc (run ++ crlf behind).takeWhile condition
      = (crlf (run ++ behind)).takeWhile condition := by rw [crlf_append, crlf_eq_self hline]
    _ = crlf ((run ++ behind).takeWhile condition) := takeWhile_crlf (hreturn.trans hnewline.symm) _
    _ = run := by rw [htake, crlf_eq_self hline]

end Text

open Text

/-- A text value gets the carriage returns; every other value stays. -/
def Value.crlf : Value → Value
  | text value => text (String.ofList (Text.crlf value.toList))
  | value => value

/-- A token with carriage returns in its lexeme and its text. -/
def Token.crlf (token : Token) : Token :=
  ⟨token.kind, String.ofList (Text.crlf token.lexeme.toList), token.literal.map Value.crlf,
    token.line⟩

def Shape.crlf : Shape → Shape
  | token kind literal => token kind (literal.map Value.crlf)
  | shape => shape

def Piece.crlf (piece : Piece) : Piece :=
  ⟨piece.shape.crlf, Text.crlf piece.text, piece.line⟩

namespace Piece

/-- A piece with carriage returns is the token with carriage returns. -/
theorem token?_crlf (piece : Piece) : piece.crlf.token? = piece.token?.map Token.crlf := by
  obtain ⟨shape, text, line⟩ := piece
  cases shape with
  | token kind literal => simp [crlf, Shape.crlf, token?, Token.crlf]
  | blank => rfl
  | comment => rfl
  | fault cause => rfl

theorem diagnostic?_crlf (piece : Piece) : piece.crlf.diagnostic? = piece.diagnostic? := by
  obtain ⟨shape, text, line⟩ := piece
  cases shape with
  | token kind literal => rfl
  | blank => rfl
  | comment => rfl
  | fault cause =>
      cases cause with
      | unexpected c => rfl
      | unterminatedString => rfl
      | unterminatedComment =>
          simp only [crlf, Shape.crlf, diagnostic?, faultLine, lastLine, lineCount_crlf]

end Piece

namespace Scan

/-! ## One piece -/

/-- A piece taken from the front of `rest` and the piece that the text with
carriage returns has in its place.  A line comment takes the carriage return of its
line end. -/
inductive Carries (rest : List Char) : Shape × Nat → Shape × Nat → Prop
  | whole (shape : Shape) (taken after : List Char) (hrest : rest = taken ++ after) :
      Carries rest (shape, taken.length) (shape.crlf, (crlf taken).length)
  | lineComment (taken more : List Char) (hrest : rest = taken ++ '\n' :: more)
      (hline : '\n' ∉ taken) :
      Carries rest (.comment, taken.length) (.comment, taken.length + 1)

/-- A piece that goes nowhere near a line end. -/
theorem Carries.within {rest taken after : List Char} {shape : Shape}
    (hrest : rest = taken ++ after) (hshape : shape.crlf = shape) (hline : '\n' ∉ taken) :
    Carries rest (shape, taken.length) (shape, taken.length) := by
  have hcarries := Carries.whole shape taken after hrest
  rwa [hshape, crlf_eq_self hline] at hcarries

theorem Carries.shape_eq {rest : List Char} {found found' : Shape × Nat}
    (hcarries : Carries rest found found') : found'.1 = found.1.crlf := by
  cases hcarries <;> rfl

theorem newline_not_mem {condition : Char → Bool} (hnewline : condition '\n' = false)
    {text : List Char} (htext : ∀ c ∈ text, condition c = true) : '\n' ∉ text := by
  intro hmem
  rw [htext '\n' hmem] at hnewline
  cases hnewline

theorem crlf_wordLiteral (kind : Kind) : (wordLiteral kind).map Value.crlf = wordLiteral kind := by
  cases kind <;> rfl

theorem carries_word (first : Char) (rest : List Char) :
    Carries rest (classifyWord first rest) (classifyWord first (crlf rest)) := by
  obtain ⟨more, behind, rfl, htake, hmore, -⟩ := exists_span isNamePart rest
  have hline : '\n' ∉ more := newline_not_mem rfl hmore
  rw [crlf_append, crlf_eq_self hline, classifyWord, classifyWord, htake,
    takeWhile_append_crlf rfl rfl hline htake]
  exact .within rfl (congrArg (Shape.token _) (crlf_wordLiteral _)) hline

/-- A string takes the carriage returns of the lines in it. -/
theorem carries_string (rest : List Char) :
    Carries rest (classifyString rest) (classifyString (crlf rest)) := by
  obtain ⟨body, behind, rfl, htake, hbody, hbehind⟩ := exists_span (· != '"') rest
  have htake' : (crlf (body ++ behind)).takeWhile (· != '"') = crlf body := by
    rw [takeWhile_crlf rfl, htake]
  rw [classifyString, classifyString, htake, htake', crlf_append]
  cases behind with
  | nil =>
      rw [if_neg (by simp), if_neg (by simp)]
      exact .whole _ body [] rfl
  | cons quote after =>
      obtain rfl : quote = '"' := by simpa using hbehind quote rfl
      rw [if_pos (by simp), if_pos (by simp [crlf_cons])]
      have hcarries : Carries (body ++ '"' :: after) _ _ :=
        .whole (.token .string (some (.text (String.ofList body)))) (body ++ ['"']) after (by simp)
      simpa [Shape.crlf, Value.crlf, crlf_cons] using hcarries

theorem carries_number (first : Char) (rest : List Char) :
    Carries rest (classifyNumber first rest) (classifyNumber first (crlf rest)) := by
  obtain ⟨whole, behind, rfl, htake, hwhole, -⟩ := exists_span isDigit rest
  have hline : '\n' ∉ whole := newline_not_mem rfl hwhole
  have htake' := takeWhile_append_crlf rfl rfl hline htake
  rw [crlf_append, crlf_eq_self hline]
  by_cases hpoint : ∃ tenth more, behind = '.' :: tenth :: more ∧ isDigit tenth = true
  · obtain ⟨tenth, more, rfl, htenth⟩ := hpoint
    obtain ⟨finer, after, rfl, hfiner, hfraction, -⟩ := exists_span isDigit more
    have hfree : '\n' ∉ tenth :: finer :=
      newline_not_mem rfl (List.forall_mem_cons.mpr ⟨htenth, hfraction⟩)
    have hfiner' : (finer ++ crlf after).takeWhile isDigit = finer :=
      takeWhile_append_crlf rfl rfl (fun hmem => hfree (List.mem_cons_of_mem _ hmem)) hfiner
    have hbehind : crlf ('.' :: tenth :: (finer ++ after)) =
        '.' :: tenth :: (finer ++ crlf after) := by
      rw [crlf_cons (by decide), ← List.cons_append, crlf_append, crlf_eq_self hfree]
      rfl
    rw [hbehind] at htake' ⊢
    rw [classifyNumber_fraction htake htenth hfiner, classifyNumber_fraction htake' htenth hfiner']
    refine .within (?_ : _ = (whole ++ '.' :: tenth :: finer) ++ after) rfl ?_
    · simp
    · exact List.not_mem_append hline (List.not_mem_cons_of_ne_of_not_mem (by decide) hfree)
  · have hpoint' : ¬ ∃ tenth more, crlf behind = '.' :: tenth :: more ∧ isDigit tenth = true := by
      rintro ⟨tenth, more, hbehind, htenth⟩
      obtain ⟨rest, rfl⟩ := head_of_crlf hbehind (by decide)
      rw [crlf_cons (by decide)] at hbehind
      obtain ⟨later, rfl⟩ := head_of_crlf (List.cons.inj hbehind).2 (by rintro rfl; cases htenth)
      exact hpoint ⟨tenth, later, rfl, htenth⟩
    rw [classifyNumber_whole htake hpoint, classifyNumber_whole htake' hpoint']
    exact .within rfl rfl hline

/-- The counts through both texts end nowhere, or both behind the same part. -/
def ClosesAlike (depth : Nat) (text : List Char) : Prop :=
  (∀ counted, commentLength? depth counted text = none ∧
      commentLength? depth counted (crlf text) = none) ∨
    ∃ taken after, text = taken ++ after ∧ ∀ counted,
      commentLength? depth counted text = some (counted + taken.length) ∧
        commentLength? depth counted (crlf text) = some (counted + (crlf taken).length)

/-- A part in front that both counts pass in one go. -/
theorem ClosesAlike.step {depth deeper : Nat} (part : List Char) {rest : List Char}
    (hcount : ∀ counted, commentLength? depth counted (part ++ rest) =
      commentLength? deeper (counted + part.length) rest)
    (hcrlf : ∀ counted, commentLength? depth counted (crlf (part ++ rest)) =
      commentLength? deeper (counted + (crlf part).length) (crlf rest))
    (hrest : ClosesAlike deeper rest) : ClosesAlike depth (part ++ rest) := by
  rcases hrest with hnone | ⟨taken, after, rfl, hsome⟩
  · left
    intro counted
    rw [hcount, hcrlf]
    exact ⟨(hnone _).1, (hnone _).2⟩
  · refine .inr ⟨part ++ taken, after, (List.append_assoc part taken after).symm, ?_⟩
    intro counted
    rw [hcount, hcrlf, (hsome _).1, (hsome _).2, crlf_append, List.length_append,
      List.length_append, Nat.add_assoc, Nat.add_assoc]
    exact ⟨rfl, rfl⟩

/-- A character at which no mark begins in the one text is none in the other, with
or without a carriage return in front of it. -/
theorem commentLength?_crlf_plain {c : Char} {rest : List Char}
    (hopen : ∀ more, c :: rest ≠ '/' :: '*' :: more)
    (hclose : ∀ more, c :: rest ≠ '*' :: '/' :: more) (depth counted : Nat) :
    commentLength? (depth + 1) counted (crlf (c :: rest)) =
      commentLength? (depth + 1) (counted + (crlf [c]).length) (crlf rest) := by
  by_cases hc : c = '\n'
  · subst hc
    rw [crlf_newline, commentLength?_plain (by simp) (by simp),
      commentLength?_plain (by simp) (by simp)]
    rfl
  · rw [crlf_cons hc, commentLength?_plain, crlf_cons hc]
    · rfl
    · intro more hmark
      obtain ⟨rfl, hrest⟩ := List.cons.inj hmark
      obtain ⟨behind, rfl⟩ := head_of_crlf hrest (by decide)
      exact hopen behind rfl
    · intro more hmark
      obtain ⟨rfl, hrest⟩ := List.cons.inj hmark
      obtain ⟨behind, rfl⟩ := head_of_crlf hrest (by decide)
      exact hclose behind rfl

/-- Carriage returns neither open nor close a comment. -/
theorem closesAlike (depth counted : Nat) (text : List Char) : ClosesAlike depth text := by
  fun_induction commentLength? depth counted text with
  | case1 text counted =>
      refine .inr ⟨[], text, rfl, fun counted => ?_⟩
      rw [commentLength?, commentLength?]
      exact ⟨rfl, rfl⟩
  | case2 depth counted => exact .inl fun counted => ⟨rfl, rfl⟩
  | case3 depth counted rest ih =>
      exact ih.step ['/', '*'] (fun counted => rfl) fun counted => rfl
  | case4 depth counted rest ih =>
      exact ih.step ['*', '/'] (fun counted => rfl) fun counted => rfl
  | case5 depth counted c rest hopen hclose ih =>
      have hopen' : ∀ more, c :: rest ≠ '/' :: '*' :: more := fun more hsame =>
        hopen more (List.cons.inj hsame).1 (List.cons.inj hsame).2
      have hclose' : ∀ more, c :: rest ≠ '*' :: '/' :: more := fun more hsame =>
        hclose more (List.cons.inj hsame).1 (List.cons.inj hsame).2
      exact ih.step [c] (commentLength?_plain hopen' hclose' depth)
        (commentLength?_crlf_plain hopen' hclose' depth)

/-- A line comment takes the carriage return in front of its line feed. -/
theorem carries_lineComment (more : List Char) :
    Carries ('/' :: more) (.comment, runLength (· != '\n') ('/' :: more))
      (.comment, runLength (· != '\n') ('/' :: crlf more)) := by
  obtain ⟨body, behind, rfl, htake, hbody, hbehind⟩ := exists_span (· != '\n') more
  have hline : '\n' ∉ '/' :: body :=
    List.not_mem_cons_of_ne_of_not_mem (by decide) (newline_not_mem rfl hbody)
  rw [runLength, runLength, List.takeWhile_cons_of_pos (by decide), htake,
    List.takeWhile_cons_of_pos (by decide), crlf_append, crlf_eq_self (newline_not_mem rfl hbody),
    List.takeWhile_append_of_pos hbody]
  cases behind with
  | nil =>
      rw [crlf_nil, List.takeWhile_nil, List.append_nil]
      exact .within (List.append_nil _).symm rfl hline
  | cons c later =>
      obtain rfl : c = '\n' := by simpa using hbehind c rfl
      have hcarries : Carries ('/' :: (body ++ '\n' :: later)) _ _ :=
        .lineComment ('/' :: body) later rfl hline
      simpa using hcarries

theorem carries_slash (rest : List Char) :
    Carries rest (classifySlash rest) (classifySlash (crlf rest)) := by
  unfold classifySlash
  split
  · next more =>
      rw [crlf_cons (by decide)]
      exact carries_lineComment more
  · next body =>
      rw [crlf_cons (by decide)]
      rcases closesAlike 1 1 body with hnone | ⟨taken, after, rfl, hsome⟩
      · simp only [(hnone 1).1, (hnone 1).2]
        exact .whole _ _ [] (List.append_nil _).symm
      · simp only [(hsome 1).1, (hsome 1).2]
        have hcarries : Carries ('*' :: (taken ++ after)) _ _ :=
          .whole .comment ('*' :: taken) after rfl
        simpa [crlf_cons, Nat.add_comm, Shape.crlf] using hcarries
  · next hline hblock =>
      split
      · next more hcrlf =>
          obtain ⟨behind, rfl⟩ := head_of_crlf hcrlf (by decide)
          exact absurd rfl (hline behind)
      · next body hcrlf =>
          obtain ⟨behind, rfl⟩ := head_of_crlf hcrlf (by decide)
          exact absurd rfl (hblock behind)
      · exact .within (List.nil_append rest).symm rfl List.not_mem_nil

theorem ofPair?_crlf (first : Char) (rest : List Char) :
    (crlf rest).head?.bind (Kind.ofPair? first) = rest.head?.bind (Kind.ofPair? first) := by
  cases rest with
  | nil => rfl
  | cons c rest =>
      by_cases hc : c = '\n'
      · subst hc
        have hreturn : Kind.ofPair? first '\r' = none := by
          unfold Kind.ofPair?
          split <;> simp_all
        exact hreturn.trans (ofPair?_newline first).symm
      · rw [crlf_cons hc]
        rfl

/-- Every piece keeps its shape, with carriage returns in the text it
carries. -/
theorem carries_classify (first : Char) (rest : List Char) :
    Carries rest (classify first rest) (classify first (crlf rest)) := by
  have hpairs := ofPair?_crlf first rest
  have hsingle : ∀ shape : Shape, shape.crlf = shape → Carries rest (shape, 0) (shape, 0) :=
    fun shape hshape => .within (List.nil_append rest).symm hshape List.not_mem_nil
  fun_cases classify first rest with
  | case1 hspace =>
      simp only [classify, if_pos hspace]
      exact hsingle _ rfl
  | case2 hspace kind hpair =>
      rw [hpair] at hpairs
      simp only [classify, if_neg hspace, hpairs]
      obtain ⟨second, hhead, hkind⟩ := Option.bind_eq_some_iff.mp hpair
      obtain ⟨after, rfl⟩ : ∃ after, rest = second :: after := List.head?_eq_some_iff.mp hhead
      refine .within (?_ : _ = [second] ++ after) rfl ?_
      · rfl
      · rw [List.mem_singleton]
        rintro rfl
        rw [ofPair?_newline] at hkind
        cases hkind
  | case3 hspace hpair hslash =>
      rw [hpair] at hpairs
      simp only [classify, if_neg hspace, hpairs, if_pos hslash]
      exact carries_slash rest
  | case4 hspace hpair hslash kind hkind =>
      rw [hpair] at hpairs
      simp only [classify, if_neg hspace, hpairs, if_neg hslash, hkind]
      exact hsingle _ rfl
  | case5 hspace hpair hslash hsign hquote =>
      rw [hpair] at hpairs
      simp only [classify, if_neg hspace, hpairs, if_neg hslash, hsign, if_pos hquote]
      exact carries_string rest
  | case6 hspace hpair hslash hsign hquote hdigit =>
      rw [hpair] at hpairs
      simp only [classify, if_neg hspace, hpairs, if_neg hslash, hsign, if_neg hquote,
        if_pos hdigit]
      exact carries_number first rest
  | case7 hspace hpair hslash hsign hquote hdigit hname =>
      rw [hpair] at hpairs
      simp only [classify, if_neg hspace, hpairs, if_neg hslash, hsign, if_neg hquote,
        if_neg hdigit, if_pos hname]
      exact carries_word first rest
  | case8 hspace hpair hslash hsign hquote hdigit hname =>
      rw [hpair] at hpairs
      simp only [classify, if_neg hspace, hpairs, if_neg hslash, hsign, if_neg hquote,
        if_neg hdigit, if_neg hname]
      exact hsingle _ rfl

/-! ## The whole source -/

/-- Pieces from which tokens and diagnostics of a text with carriage returns are
read off as those of the text are, but for the carriage returns in the tokens. -/
structure SameFindings (found found' : List Piece) : Prop where
  tokens : found'.filterMap Piece.token? = (found.filterMap Piece.token?).map Token.crlf
  errors : found'.filterMap Piece.diagnostic? = found.filterMap Piece.diagnostic?

theorem SameFindings.cons {found found' : List Piece} (hsame : SameFindings found found')
    (piece : Piece) : SameFindings (piece :: found) (piece.crlf :: found') := by
  constructor
  · rw [List.filterMap_cons, List.filterMap_cons, piece.token?_crlf, hsame.tokens]
    cases piece.token? <;> rfl
  · rw [List.filterMap_cons, List.filterMap_cons, piece.diagnostic?_crlf, hsame.errors]

theorem pieces_return (line : Int) (text : List Char) :
    pieces line ('\r' :: text) = ⟨.blank, ['\r'], line⟩ :: pieces line text := by
  have hclassify : classify '\r' ([] ++ text) = (.blank, ([] : List Char).length) := rfl
  have hpieces := pieces_of_classify hclassify line
  have hlines : line + (lineCount ['\r'] : Int) = line := Int.add_zero line
  rwa [hlines] at hpieces

/-- A text and the text with carriage returns have the same tokens and
diagnostics, but for the carriage returns. -/
theorem sameFindings_pieces (line : Int) (text : List Char) :
    SameFindings (pieces line text) (pieces line (crlf text)) := by
  induction line, text using pieces.induct with
  | case1 line =>
      rw [crlf_nil, pieces]
      exact ⟨rfl, rfl⟩
  | case2 line first rest shape length hclassify text ih =>
      by_cases hfirst : first = '\n'
      · subst hfirst
        obtain ⟨rfl, rfl⟩ := Prod.mk.inj hclassify
        rw [crlf_newline, pieces_return, pieces_newline, pieces_newline]
        exact ⟨ih.tokens, ih.errors⟩
      · have hcarries := carries_classify first rest
        rw [hclassify] at hcarries
        generalize hcrlf : classify first (crlf rest) = found at hcarries
        rw [crlf_cons hfirst]
        cases hcarries with
        | whole _ taken after hrest =>
            subst hrest
            rw [crlf_append] at hcrlf ⊢
            simp only [text, List.take_left, List.drop_left] at ih
            have hlines : lineCount (first :: crlf taken) = lineCount (first :: taken) := by
              rw [← crlf_cons hfirst, lineCount_crlf]
            rw [pieces_of_classify hclassify, pieces_of_classify hcrlf, hlines, ← crlf_cons hfirst]
            exact ih.cons ⟨shape, first :: taken, line⟩
        | lineComment taken more hrest hline =>
            subst hrest
            simp only [text, List.take_left, List.drop_left] at ih
            have hrest : crlf (taken ++ '\n' :: more) =
                (taken ++ ['\r']) ++ '\n' :: crlf more := by
              rw [crlf_append, crlf_eq_self hline, crlf_newline, List.append_assoc]
              rfl
            have hlength : taken.length + 1 = (taken ++ ['\r']).length := by simp
            have hlines : lineCount (first :: (taken ++ ['\r'])) = lineCount (first :: taken) := by
              rw [← List.cons_append, lineCount_append]
              rfl
            rw [hrest, hlength] at hcrlf
            rw [crlf_newline, pieces_return] at ih
            rw [hrest, pieces_of_classify hclassify, pieces_of_classify hcrlf, hlines]
            exact ⟨ih.tokens, ih.errors⟩

/-! ## What the carriage returns change -/

theorem Lexeme.newline_not_mem {kind : Kind} {text : List Char} (hlexeme : Lexeme kind text)
    (hkind : kind ≠ .string) : '\n' ∉ text := by
  cases hlexeme with
  | fixed hspelling => exact List.count_eq_zero.mp (lineCount_spelling hspelling)
  | name first more hfirst hmore =>
      have hpart : isNamePart first = true := by rw [isNamePart, hfirst, Bool.true_or]
      exact Scan.newline_not_mem rfl (List.forall_mem_cons.mpr ⟨hpart, hmore⟩)
  | whole first more hdigits => exact Scan.newline_not_mem rfl hdigits
  | fraction first more hdigits tenth finer hfraction =>
      rw [← List.cons_append]
      exact List.not_mem_append (Scan.newline_not_mem rfl hdigits)
        (List.not_mem_cons_of_ne_of_not_mem (by decide) (Scan.newline_not_mem rfl hfraction))
  | string body hbody => exact absurd rfl hkind

/-- Carriage returns change a token where it goes over a line end, which only
strings do. -/
theorem crlf_ne_self_iff {source : String} {token : Token} (hmem : token ∈ words source) :
    token.crlf ≠ token ↔ token.kind = .string ∧ '\n' ∈ token.lexeme.toList := by
  obtain ⟨first, more, htext, halone⟩ := standsAlone_of_mem_words hmem
  have hclassify := halone [] (by simp [BlankFirst])
  rw [List.append_nil] at hclassify
  have hstring : '\n' ∈ token.lexeme.toList → token.kind = .string := by
    intro hnewline
    by_contra hkind
    obtain ⟨taken, after, hsplit, hlength, hcut⟩ := cuts_classify first more
    rw [hclassify] at hlength hcut
    obtain rfl : taken = more := (hsplit ▸ List.prefix_append taken after).eq_of_length hlength.symm
    cases hcut with
    | token _ _ _ hlexeme => exact hlexeme.newline_not_mem hkind (htext ▸ hnewline)
  constructor
  · intro hchanged
    have hnewline : '\n' ∈ token.lexeme.toList := by
      by_contra hnone
      have hfree : crlf more = more :=
        crlf_eq_self fun hmem => hnone (htext ▸ List.mem_cons_of_mem _ hmem)
      have hshape := (carries_classify first more).shape_eq
      rw [hfree, hclassify] at hshape
      have hliteral : token.literal.map Value.crlf = token.literal :=
        (Shape.token.inj hshape).2.symm
      apply hchanged
      rw [Token.crlf, hliteral, crlf_eq_self hnone, String.ofList_toList]
    exact ⟨hstring hnewline, hnewline⟩
  · rintro ⟨-, hnewline⟩ hsame
    have hlexeme := congrArg (String.toList ∘ Token.lexeme) hsame
    simp only [Function.comp_apply, Token.crlf, String.toList_ofList] at hlexeme
    exact crlf_eq_self_iff.mp hlexeme hnewline

/-- A source with carriage returns in front of its line feeds has the tokens of
the source without them, on the same lines, and the same diagnostics.  Only strings
that go over a line end are changed. -/
theorem line_ends_scan_alike (source : String) :
    let returned := String.ofList (crlf source.toList)
    (ofSource returned).tokens = (ofSource source).tokens.map Token.crlf ∧
      (ofSource returned).errors = (ofSource source).errors ∧
      ∀ token ∈ (ofSource source).tokens,
        token.crlf ≠ token ↔ token.kind = .string ∧ '\n' ∈ token.lexeme.toList := by
  intro returned
  have hfindings := sameFindings_pieces 1 source.toList
  have htext : returned.toList = crlf source.toList := String.toList_ofList
  rw [← htext] at hfindings
  have hend : endLine returned.toList = endLine source.toList := by
    rw [endLine, endLine, htext, lineCount_crlf]
  refine ⟨?_, hfindings.errors, ?_⟩
  · rw [tokens_ofSource, tokens_ofSource, List.map_append, words, hfindings.tokens, hend]
    rfl
  · intro token hmem
    rw [tokens_ofSource, List.mem_append, List.mem_singleton] at hmem
    rcases hmem with hmem | rfl
    · exact crlf_ne_self_iff hmem
    · simp [Token.crlf, Token.endAt]

/-- A string goes over a line end, and a line comment stops at one. -/
theorem line_ends_scan_alike_string :
    let source := "\"a\nb\" // c\n@ 1"
    let returned := "\"a\r\nb\" // c\r\n@ 1"
    let token : Token := ⟨.string, "\"a\nb\"", some (.text "a\nb"), 1⟩
    token ∈ (ofSource source).tokens ∧ (ofSource source).errors.length = 1 ∧
      (ofSource returned).tokens = (ofSource source).tokens.map Token.crlf ∧
      (ofSource returned).errors = (ofSource source).errors ∧ token.crlf ≠ token := by
  intro source returned token
  obtain ⟨hmem, herrors, hreturned⟩ : token ∈ (ofSource source).tokens ∧
      (ofSource source).errors.length = 1 ∧
      String.ofList (crlf source.toList) = returned := by decide +kernel
  obtain ⟨htokens, hsame, hchanged⟩ := line_ends_scan_alike source
  rw [hreturned] at htokens hsame
  exact ⟨hmem, herrors, htokens, hsame, (hchanged token hmem).mpr ⟨rfl, by decide +kernel⟩⟩

end Scan

end Lumen
