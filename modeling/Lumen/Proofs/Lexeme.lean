import Lumen.Scan

/-!
# Lexemes and comments

What the pieces of a source look like, without a scanner: the texts of tokens,
line comments, and block comments that nest.  A piece is judged together with
the text behind it, since a line comment reaches to the end of its line and
only the end of the source leaves a string or a block comment open.  The
scanner's classification of the text in front of it is shown to respect this.
-/

namespace Lumen

/-- The one spelling of a kind, where it has one. -/
def Kind.spelling? : Kind → Option String
  | leftParen => some "("
  | rightParen => some ")"
  | leftBrace => some "\x7b"
  | rightBrace => some "\x7d"
  | comma => some ","
  | dot => some "."
  | minus => some "-"
  | plus => some "+"
  | semicolon => some ";"
  | slash => some "/"
  | star => some "*"
  | bang => some "!"
  | bangEqual => some "!="
  | equal => some "="
  | equalEqual => some "=="
  | greater => some ">"
  | greaterEqual => some ">="
  | less => some "<"
  | lessEqual => some "<="
  | andWord => some "and"
  | classWord => some "class"
  | elseWord => some "else"
  | falseWord => some "false"
  | forWord => some "for"
  | funcWord => some "func"
  | ifWord => some "if"
  | nilWord => some "nil"
  | orWord => some "or"
  | printWord => some "print"
  | returnWord => some "return"
  | superWord => some "super"
  | thisWord => some "this"
  | trueWord => some "true"
  | varWord => some "var"
  | whileWord => some "while"
  | identifier | string | number | eof | other _ => none

namespace Scan

/-- Texts that are one token of a kind. -/
inductive Lexeme : Kind → List Char → Prop
  | fixed {kind : Kind} {spelling : String} (hspelling : kind.spelling? = some spelling) :
      Lexeme kind spelling.toList
  | name (first : Char) (more : List Char) (hfirst : isNameStart first = true)
      (hmore : ∀ c ∈ more, isNamePart c = true)
      (hfree : ∀ kind : Kind, kind.spelling? ≠ some (String.ofList (first :: more))) :
      Lexeme .identifier (first :: more)
  | whole (first : Char) (more : List Char) (hdigits : ∀ c ∈ first :: more, isDigit c = true) :
      Lexeme .number (first :: more)
  | fraction (first : Char) (more : List Char) (hdigits : ∀ c ∈ first :: more, isDigit c = true)
      (tenth : Char) (finer : List Char) (hfraction : ∀ c ∈ tenth :: finer, isDigit c = true) :
      Lexeme .number (first :: (more ++ '.' :: tenth :: finer))
  | string (body : List Char) (hbody : '"' ∉ body) : Lexeme .string ('"' :: (body ++ ['"']))

/-- What stands behind the opening mark of a block comment: comments and
characters at which no mark begins, and then the closing mark. -/
inductive CommentBody : List Char → Prop
  | close : CommentBody ['*', '/']
  | plain (c : Char) (rest : List Char) (hopen : ∀ more, c :: rest ≠ '/' :: '*' :: more)
      (hclose : ∀ more, c :: rest ≠ '*' :: '/' :: more) (hrest : CommentBody rest) :
      CommentBody (c :: rest)
  | nested (inner rest : List Char) (hinner : CommentBody inner) (hrest : CommentBody rest) :
      CommentBody ('/' :: '*' :: (inner ++ rest))

def BlockComment (text : List Char) : Prop :=
  ∃ body, text = '/' :: '*' :: body ∧ CommentBody body

/-- What a piece with some text behind it may be. -/
inductive Cut (after : List Char) : Shape → List Char → Prop
  | blank (c : Char) (hspace : isSpace c = true) : Cut after .blank [c]
  | lineComment (body : List Char) (hbody : '\n' ∉ body) (hafter : ∀ c ∈ after.head?, c = '\n') :
      Cut after .comment ('/' :: '/' :: body)
  | blockComment (text : List Char) (htext : BlockComment text) : Cut after .comment text
  | token (kind : Kind) (literal : Option Value) (text : List Char) (hlexeme : Lexeme kind text) :
      Cut after (.token kind literal) text
  | unexpected (c : Char) (hspace : isSpace c = false)
      (hnone : ∀ kind more, ¬ Lexeme kind (c :: more)) : Cut after (.fault (.unexpected c)) [c]
  | openString (body : List Char) (hbody : '"' ∉ body) (hafter : after = []) :
      Cut after (.fault .unterminatedString) ('"' :: body)
  | openComment (body : List Char)
      (hnone : ∀ comment rest, comment ++ rest = '/' :: '*' :: body → ¬ BlockComment comment)
      (hafter : after = []) : Cut after (.fault .unterminatedComment) ('/' :: '*' :: body)

/-! ## Block comments -/

theorem CommentBody.ne_nil {body : List Char} (hbody : CommentBody body) : body ≠ [] := by
  cases hbody <;> simp

theorem commentLength?_plain {c : Char} {rest : List Char}
    (hopen : ∀ more, c :: rest ≠ '/' :: '*' :: more)
    (hclose : ∀ more, c :: rest ≠ '*' :: '/' :: more) (depth counted : Nat) :
    commentLength? (depth + 1) counted (c :: rest) =
      commentLength? (depth + 1) (counted + 1) rest := by
  rw [commentLength?]
  · intro more hc hrest
    exact hopen more (by rw [hc, hrest])
  · intro more hc hrest
    exact hclose more (by rw [hc, hrest])

/-- Counting runs through a comment's body and closes one level. -/
theorem CommentBody.commentLength?_append {body : List Char} (hbody : CommentBody body) :
    ∀ depth counted rest, commentLength? (depth + 1) counted (body ++ rest) =
      commentLength? depth (counted + body.length) rest := by
  induction hbody with
  | close =>
      intro depth counted rest
      simp [commentLength?]
  | plain c behind hopen hclose hbehind ih =>
      intro depth counted rest
      -- The body goes on behind `c`, so what follows the body cannot complete a mark.
      obtain ⟨next, more, rfl⟩ := List.exists_cons_of_ne_nil hbehind.ne_nil
      have hopen' : ∀ later, c :: (next :: more ++ rest) ≠ '/' :: '*' :: later := by
        intro later hsame
        injection hsame with hc hsame
        injection hsame with hnext
        exact hopen more (by rw [hc, hnext])
      have hclose' : ∀ later, c :: (next :: more ++ rest) ≠ '*' :: '/' :: later := by
        intro later hsame
        injection hsame with hc hsame
        injection hsame with hnext
        exact hclose more (by rw [hc, hnext])
      rw [List.cons_append, commentLength?_plain hopen' hclose', ih]
      simp only [List.length_cons]
      congr 1
      omega
  | nested inner behind hinner hbehind ihInner ihBehind =>
      intro depth counted rest
      rw [List.cons_append, List.cons_append, List.append_assoc, commentLength?, ihInner, ihBehind]
      simp only [List.length_cons, List.length_append]
      congr 1
      omega

/-- Texts that close a number of open block comments. -/
inductive Closes : Nat → List Char → Prop
  | none : Closes 0 []
  | one {depth : Nat} {body rest : List Char} (hbody : CommentBody body)
      (hrest : Closes depth rest) : Closes (depth + 1) (body ++ rest)

/-- The first of some open comments is closed by a body of its own. -/
theorem Closes.exists_body {depth : Nat} {text : List Char} (hcloses : Closes (depth + 1) text) :
    ∃ body rest, text = body ++ rest ∧ CommentBody body ∧ Closes depth rest := by
  cases hcloses with
  | one hbody hrest => exact ⟨_, _, rfl, hbody, hrest⟩

/-- What was counted through closes the open comments. -/
theorem exists_closes {depth counted length : Nat} {text : List Char}
    (hlength : commentLength? depth counted text = some length) :
    ∃ closing rest, text = closing ++ rest ∧ length = counted + closing.length ∧
      Closes depth closing := by
  fun_induction commentLength? depth counted text with
  | case1 text counted =>
      exact ⟨[], text, rfl, by simpa using hlength.symm, .none⟩
  | case2 => simp at hlength
  | case3 depth counted more ih =>
      obtain ⟨closing, rest, rfl, rfl, hcloses⟩ := ih hlength
      -- The inner comment and what closes the outer one are one body.
      obtain ⟨inner, behind, rfl, hinner, hcloses⟩ := hcloses.exists_body
      obtain ⟨outer, tail, rfl, houter, hcloses⟩ := hcloses.exists_body
      refine ⟨'/' :: '*' :: (inner ++ outer) ++ tail, rest, by simp, ?_, ?_⟩
      · simp only [List.length_cons, List.length_append, List.cons_append]
        omega
      · exact .one (.nested inner outer hinner houter) hcloses
  | case4 depth counted more ih =>
      obtain ⟨closing, rest, rfl, rfl, hcloses⟩ := ih hlength
      refine ⟨'*' :: '/' :: closing, rest, rfl, ?_, .one .close hcloses⟩
      simp only [List.length_cons]
      omega
  | case5 depth counted c more hopen hclose ih =>
      obtain ⟨closing, rest, rfl, rfl, hcloses⟩ := ih hlength
      obtain ⟨body, tail, rfl, hbody, hcloses⟩ := hcloses.exists_body
      refine ⟨c :: body ++ tail, rest, by simp, ?_, .one (.plain c body ?_ ?_ hbody) hcloses⟩
      · simp only [List.length_cons, List.length_append, List.cons_append]
        omega
      · intro later hsame
        obtain ⟨hc, hbody⟩ := List.cons.inj hsame
        exact hopen (later ++ tail ++ rest) hc (by simp [hbody])
      · intro later hsame
        obtain ⟨hc, hbody⟩ := List.cons.inj hsame
        exact hclose (later ++ tail ++ rest) hc (by simp [hbody])

/-- The count finds the body of the comment that is open, if the text has one. -/
theorem commentLength?_one_eq_some_iff {text : List Char} {length : Nat} :
    commentLength? 1 1 text = some length ↔
      ∃ body rest, text = body ++ rest ∧ length = body.length + 1 ∧ CommentBody body := by
  constructor
  · intro hlength
    obtain ⟨closing, rest, rfl, rfl, hcloses⟩ := exists_closes hlength
    obtain ⟨body, tail, rfl, hbody, hcloses⟩ := hcloses.exists_body
    cases hcloses with
    | none =>
        refine ⟨body, rest, by simp, ?_, hbody⟩
        simp only [List.append_nil]
        omega
  · rintro ⟨body, rest, rfl, rfl, hbody⟩
    rw [hbody.commentLength?_append, commentLength?, Nat.add_comm]

/-! ## Lexemes -/

theorem lexeme_of_spelling {kind : Kind} {text : List Char}
    (hspelling : kind.spelling? = some (String.ofList text)) : Lexeme kind text := by
  have hlexeme := Lexeme.fixed hspelling
  rwa [String.toList_ofList] at hlexeme

theorem spelling?_of_ofChar? {c : Char} {kind : Kind} (hkind : Kind.ofChar? c = some kind) :
    kind.spelling? = some (String.ofList [c]) := by
  unfold Kind.ofChar? at hkind
  split at hkind <;> cases hkind <;> rfl

theorem spelling?_of_ofPair? {first second : Char} {kind : Kind}
    (hkind : Kind.ofPair? first second = some kind) :
    kind.spelling? = some (String.ofList [first, second]) := by
  unfold Kind.ofPair? at hkind
  split at hkind <;> cases hkind <;> rfl

theorem spelling?_of_mem_keywords {word : String} {kind : Kind}
    (hmem : (word, kind) ∈ Kind.keywords) : kind.spelling? = some word := by
  have hall : ∀ entry ∈ Kind.keywords, entry.2.spelling? = some entry.1 := by decide
  exact hall (word, kind) hmem

/-- Fixed spellings are keywords, or begin with a character that is a token. -/
theorem spelling?_begins {kind : Kind} {spelling : String}
    (hspelling : kind.spelling? = some spelling) :
    ∃ first more, spelling.toList = first :: more ∧
      (isNameStart first && decide ((spelling, kind) ∈ Kind.keywords) ||
        (Kind.ofChar? first).isSome) = true := by
  cases kind <;> cases hspelling <;> exact ⟨_, _, rfl, by decide⟩

theorem not_isNameStart_of_ofChar? {c : Char} (hsome : (Kind.ofChar? c).isSome = true) :
    isNameStart c = false := by
  obtain ⟨kind, hkind⟩ := Option.isSome_iff_exists.mp hsome
  unfold Kind.ofChar? at hkind
  split at hkind <;> cases hkind <;> rfl

/-- A word is a token of the kind that the table of keywords gives it. -/
theorem lexeme_ofWord {first : Char} {more : List Char} (hfirst : isNameStart first = true)
    (hmore : ∀ c ∈ more, isNamePart c = true) :
    Lexeme (Kind.ofWord (String.ofList (first :: more))) (first :: more) := by
  cases hlookup : Kind.keywords.lookup (String.ofList (first :: more)) with
  | some kind =>
      rw [Kind.ofWord, hlookup]
      obtain ⟨before, after, hsplit, -⟩ := List.lookup_eq_some_iff.mp hlookup
      exact lexeme_of_spelling (spelling?_of_mem_keywords (by simp [hsplit]))
  | none =>
      rw [Kind.ofWord, hlookup]
      refine .name first more hfirst hmore ?_
      intro kind hspelling
      obtain ⟨c, rest, hbegins, hcase⟩ := spelling?_begins hspelling
      rw [String.toList_ofList] at hbegins
      obtain ⟨rfl, -⟩ := List.cons.inj hbegins
      rcases Bool.or_eq_true_iff.mp hcase with hkeyword | hsign
      · have hmem := of_decide_eq_true (Bool.and_eq_true_iff.mp hkeyword).2
        have hdiffers := List.lookup_eq_none_iff.mp hlookup _ hmem
        simp at hdiffers
      · rw [not_isNameStart_of_ofChar? hsign] at hfirst
        cases hfirst

/-- A character that the scanner cannot place begins no token. -/
theorem not_lexeme_of_unplaced {c : Char} (hsign : Kind.ofChar? c = none) (hquote : c ≠ '"')
    (hdigit : isDigit c = false) (hname : isNameStart c = false) (kind : Kind)
    (more : List Char) : ¬ Lexeme kind (c :: more) := by
  intro hlexeme
  generalize htext : c :: more = text at hlexeme
  cases hlexeme with
  | fixed hspelling =>
      obtain ⟨first, rest, hbegins, hcase⟩ := spelling?_begins hspelling
      rw [← htext] at hbegins
      obtain ⟨rfl, -⟩ := List.cons.inj hbegins
      simp [hname, hsign] at hcase
  | name first rest hfirst =>
      obtain ⟨rfl, -⟩ := List.cons.inj htext
      rw [hname] at hfirst
      cases hfirst
  | whole first rest hdigits =>
      obtain ⟨rfl, -⟩ := List.cons.inj htext
      rw [hdigits c List.mem_cons_self] at hdigit
      cases hdigit
  | fraction first rest hdigits =>
      obtain ⟨rfl, -⟩ := List.cons.inj htext
      rw [hdigits c List.mem_cons_self] at hdigit
      cases hdigit
  | string => exact hquote (List.cons.inj htext).1

/-! ## Classification -/

/-- The leading characters of a text that satisfy a condition, and the rest. -/
theorem exists_span (condition : Char → Bool) (text : List Char) :
    ∃ run behind, text = run ++ behind ∧ text.takeWhile condition = run ∧
      (∀ c ∈ run, condition c = true) ∧ ∀ c ∈ behind.head?, condition c = false := by
  refine ⟨text.takeWhile condition, text.dropWhile condition,
    List.takeWhile_append_dropWhile.symm, rfl, ?_, ?_⟩
  · intro c hmem
    exact List.all_eq_true.mp List.all_takeWhile c hmem
  · intro c hmem
    have hhead := List.head?_dropWhile_not condition text
    rw [Option.mem_def.mp hmem] at hhead
    exact hhead

/-- A classification as `found` cuts a piece off the text that begins with
`first`. -/
def Cuts (first : Char) (rest : List Char) (found : Shape × Nat) : Prop :=
  ∃ taken after, rest = taken ++ after ∧ found.2 = taken.length ∧
    Cut after found.1 (first :: taken)

theorem cuts_word {first : Char} (hfirst : isNameStart first = true) (rest : List Char) :
    Cuts first rest (classifyWord first rest) := by
  obtain ⟨more, behind, rfl, htake, hmore, -⟩ := exists_span isNamePart rest
  rw [classifyWord, htake]
  exact ⟨more, behind, rfl, rfl, .token _ _ _ (lexeme_ofWord hfirst hmore)⟩

theorem cuts_string (rest : List Char) : Cuts '"' rest (classifyString rest) := by
  obtain ⟨body, behind, rfl, htake, hbody, hbehind⟩ := exists_span (· != '"') rest
  have hquote : '"' ∉ body := by
    intro hmem
    have hdiffers := hbody '"' hmem
    simp at hdiffers
  rw [classifyString, htake]
  cases behind with
  | nil =>
      rw [if_neg (by simp)]
      exact ⟨body, [], rfl, rfl, .openString body hquote rfl⟩
  | cons quote after =>
      obtain rfl : quote = '"' := by simpa using hbehind quote rfl
      rw [if_pos (by simp)]
      exact ⟨body ++ ['"'], after, by simp, by simp, .token _ _ _ (.string body hquote)⟩

section Numbers

variable {first tenth : Char} {whole behind finer after : List Char}

theorem classifyNumber_whole (htake : (whole ++ behind).takeWhile isDigit = whole)
    (hpoint : ¬ ∃ tenth more, behind = '.' :: tenth :: more ∧ isDigit tenth = true) :
    classifyNumber first (whole ++ behind) =
      (.token .number (some (numberValue (first :: whole) [])), whole.length) := by
  simp only [classifyNumber, htake, List.drop_left]
  split
  · next more =>
      have hnone : more.takeWhile isDigit = [] := by
        cases more with
        | nil => rfl
        | cons tenth later =>
            apply List.takeWhile_cons_of_neg
            intro htenth
            exact hpoint ⟨tenth, later, rfl, htenth⟩
      rw [hnone, List.isEmpty_nil, if_pos rfl]
  · rw [List.isEmpty_nil, if_pos rfl]

theorem classifyNumber_fraction
    (htake : (whole ++ '.' :: tenth :: (finer ++ after)).takeWhile isDigit = whole)
    (htenth : isDigit tenth = true) (hfiner : (finer ++ after).takeWhile isDigit = finer) :
    classifyNumber first (whole ++ '.' :: tenth :: (finer ++ after)) =
      (.token .number (some (numberValue (first :: whole) (tenth :: finer))),
        (whole ++ '.' :: tenth :: finer).length) := by
  simp only [classifyNumber, htake, List.drop_left, List.takeWhile_cons_of_pos htenth, hfiner,
    List.isEmpty_cons, List.length_append, List.length_cons]
  congr 1
  change whole.length + 1 + (finer.length + 1) = whole.length + (finer.length + 1 + 1)
  omega

/-- A number is cut off with its fraction, if it has one. -/
theorem cuts_number (hfirst : isDigit first = true) (rest : List Char) :
    Cuts first rest (classifyNumber first rest) := by
  obtain ⟨whole, behind, rfl, htake, hwhole, -⟩ := exists_span isDigit rest
  have hdigits : ∀ c ∈ first :: whole, isDigit c = true :=
    List.forall_mem_cons.mpr ⟨hfirst, hwhole⟩
  by_cases hpoint : ∃ tenth more, behind = '.' :: tenth :: more ∧ isDigit tenth = true
  · obtain ⟨tenth, more, rfl, htenth⟩ := hpoint
    obtain ⟨finer, after, rfl, hfiner, hfraction, -⟩ := exists_span isDigit more
    have hdigits' : ∀ c ∈ tenth :: finer, isDigit c = true :=
      List.forall_mem_cons.mpr ⟨htenth, hfraction⟩
    rw [classifyNumber_fraction htake htenth hfiner]
    exact ⟨whole ++ '.' :: tenth :: finer, after, by simp, rfl,
      .token _ _ _ (.fraction first whole hdigits tenth finer hdigits')⟩
  · rw [classifyNumber_whole htake hpoint]
    exact ⟨whole, behind, rfl, rfl, .token _ _ _ (.whole first whole hdigits)⟩

end Numbers

theorem cuts_slash (rest : List Char) : Cuts '/' rest (classifySlash rest) := by
  unfold classifySlash
  split
  · next more =>
      obtain ⟨body, after, rfl, htake, hbody, hbehind⟩ := exists_span (· != '\n') more
      refine ⟨'/' :: body, after, rfl, ?_, .lineComment body ?_ ?_⟩
      · rw [runLength, List.takeWhile_cons_of_pos (by decide), htake]
      · intro hmem
        have hdiffers := hbody '\n' hmem
        simp at hdiffers
      · intro c hmem
        simpa using hbehind c hmem
  · next body =>
      cases hlength : commentLength? 1 1 body with
      | some length =>
          obtain ⟨inner, after, rfl, rfl, hinner⟩ := commentLength?_one_eq_some_iff.mp hlength
          exact ⟨'*' :: inner, after, rfl, rfl, .blockComment _ ⟨inner, rfl, hinner⟩⟩
      | none =>
          refine ⟨'*' :: body, [], by simp, rfl, .openComment body ?_ rfl⟩
          rintro comment rest hsplit ⟨inner, rfl, hinner⟩
          have hbody : body = inner ++ rest := by simpa using hsplit.symm
          have hsome := commentLength?_one_eq_some_iff.mpr ⟨inner, rest, hbody, rfl, hinner⟩
          rw [hlength] at hsome
          cases hsome
  · exact ⟨[], rest, rfl, rfl, .token _ _ _ (lexeme_of_spelling rfl)⟩

/-- Every classification cuts off a piece that may stand there. -/
theorem cuts_classify (first : Char) (rest : List Char) :
    Cuts first rest (classify first rest) := by
  fun_cases classify first rest with
  | case1 hspace => exact ⟨[], rest, rfl, rfl, .blank first hspace⟩
  | case2 _ kind hpair =>
      obtain ⟨second, hhead, hkind⟩ := Option.bind_eq_some_iff.mp hpair
      obtain ⟨after, rfl⟩ : ∃ after, rest = second :: after := List.head?_eq_some_iff.mp hhead
      exact ⟨[second], after, rfl, rfl,
        .token _ _ _ (lexeme_of_spelling (spelling?_of_ofPair? hkind))⟩
  | case3 _ _ hslash =>
      obtain rfl : first = '/' := by simpa using hslash
      exact cuts_slash rest
  | case4 _ _ _ kind hkind =>
      exact ⟨[], rest, rfl, rfl, .token _ _ _ (lexeme_of_spelling (spelling?_of_ofChar? hkind))⟩
  | case5 _ _ _ _ hquote =>
      obtain rfl : first = '"' := by simpa using hquote
      exact cuts_string rest
  | case6 _ _ _ _ _ hdigit => exact cuts_number hdigit rest
  | case7 _ _ _ _ _ _ hname => exact cuts_word hname rest
  | case8 hspace _ _ hsign hquote hdigit hname =>
      refine ⟨[], rest, rfl, rfl, .unexpected first (by simpa using hspace) ?_⟩
      exact not_lexeme_of_unplaced hsign (by simpa using hquote) (by simpa using hdigit)
        (by simpa using hname)

end Scan

end Lumen
