import Mathlib.Data.List.TakeWhile
import Lumen.Proofs.Crash
import Lumen.Proofs.Munch

/-!
# Scanning with a cursor

A scanner that owns nothing but a cursor reads one character after the other,
and each of its steps may fail: a character is asked for behind the end, the
text of a number denotes none, or a round of the loop reads nothing.  No step
does fail.  The cursor always stands between what was read and what is left, so
it looks at the end before it reads, and the pieces that it finds are those of
the source.
-/

namespace Lumen

namespace Cursor

/-! ## Moving a cursor -/

/-- How many characters a cursor can still read. -/
def left (cursor : Cursor) : Nat :=
  (cursor.source.length - cursor.position).toNat

theorem left_next {cursor moved : Cursor} {c : Char} (hnext : cursor.next = .ok (c, moved)) :
    moved.left < cursor.left := by
  rw [next] at hnext
  split at hnext
  · cases hnext
  · next hend =>
      split at hnext
      · cases hnext
      · cases hnext
        simp only [atEnd, decide_eq_true_eq, Int.not_le] at hend
        simp only [left]
        omega

def skipWhile (condition : Char → Bool) (cursor : Cursor) : Except Fault Cursor :=
  if (cursor.peek 0).any condition then
    match _hnext : cursor.next with
    | .error fault => .error fault
    | .ok (_, moved) => skipWhile condition moved
  else .ok cursor
termination_by cursor.left
decreasing_by exact left_next _hnext

/-- Reads a mark that opens or closes a block comment, or one other character,
inside `depth + 1` open comments; gives the number of comments that are open then. -/
def commentUnit (depth : Nat) (cursor : Cursor) : Except Fault (Nat × Cursor) := do
  let (c, moved) ← cursor.next
  if c = '/' ∧ moved.peek 0 = some '*' then
    let (_, further) ← moved.next
    return (depth + 2, further)
  else if c = '*' ∧ moved.peek 0 = some '/' then
    let (_, further) ← moved.next
    return (depth, further)
  else return (depth + 1, moved)

theorem left_commentUnit {depth depth' : Nat} {cursor moved : Cursor}
    (hunit : commentUnit depth cursor = .ok (depth', moved)) : moved.left < cursor.left := by
  rw [commentUnit] at hunit
  obtain ⟨⟨c, first⟩, hfirst, hunit⟩ := exists_of_bind hunit
  have hless := left_next hfirst
  simp only at hunit
  split at hunit
  · obtain ⟨⟨c', second⟩, hsecond, hunit⟩ := exists_of_bind hunit
    cases hunit
    exact (left_next hsecond).trans hless
  · split at hunit
    · obtain ⟨⟨c', second⟩, hsecond, hunit⟩ := exists_of_bind hunit
      cases hunit
      exact (left_next hsecond).trans hless
    · cases hunit
      exact hless

/-- Reads to the end of `depth` open block comments; says whether they end. -/
def skipComment (depth : Nat) (cursor : Cursor) : Except Fault (Bool × Cursor) :=
  match depth with
  | 0 => .ok (true, cursor)
  | depth + 1 =>
      if cursor.atEnd then .ok (false, cursor)
      else
        match _hunit : commentUnit depth cursor with
        | .error fault => .error fault
        | .ok (depth', moved) => skipComment depth' moved
termination_by cursor.left
decreasing_by exact left_commentUnit _hunit

def lexeme (start stop : Cursor) : List Char :=
  (start.source.drop start.position.toNat).take (stop.position - start.position).toNat

/-- The cursor between two parts of a source. -/
def between (before after : List Char) (line : Int) : Cursor :=
  ⟨before ++ after, before.length, line⟩

section Between

variable (before after : List Char) (line : Int)

@[simp] theorem atEnd_between : (between before after line).atEnd = after.isEmpty := by
  cases after with
  | nil => simp [atEnd, between]
  | cons c after =>
      simp only [atEnd, between, List.length_append, List.length_cons, List.isEmpty_cons,
        decide_eq_false_iff_not]
      omega

theorem peek_between (offset : Nat) :
    (between before after line).peek offset = after[offset]? := by
  have hplace : ¬ (before.length : Int) + offset < 0 := by omega
  have hindex : ((before.length : Int) + offset).toNat = before.length + offset := by omega
  simp only [peek, between, if_neg hplace, hindex]
  rw [List.getElem?_append_right (Nat.le_add_right _ _), Nat.add_sub_cancel_left]

@[simp] theorem peek_zero_between : (between before after line).peek 0 = after.head? := by
  rw [List.head?_eq_getElem?]
  exact peek_between before after line 0

@[simp] theorem peek_one_between : (between before after line).peek 1 = after[1]? :=
  peek_between before after line 1

@[simp] theorem next_between (c : Char) :
    (between before (c :: after) line).next =
      .ok (c, between (before ++ [c]) after (line + Scan.lineCount [c])) := by
  have hcurrent : (between before (c :: after) line).current? = some c := by
    have hplace : ¬ (before.length : Int) < 0 := by omega
    simp [current?, between, hplace]
  have hline : (if (c == '\n') = true then line + 1 else line) = line + Scan.lineCount [c] := by
    by_cases hnewline : c = '\n' <;> simp [Scan.lineCount, hnewline]
  rw [next, if_neg (by simp), hcurrent]
  simp only [between, hline]
  simp

theorem left_between : (between before after line).left = after.length := by
  simp only [left, between, List.length_append]
  omega

theorem lexeme_between (taken : List Char) (line' : Int) :
    lexeme (between before (taken ++ after) line) (between (before ++ taken) after line') =
      taken := by
  have hlength : ((before ++ taken).length - before.length : Int).toNat = taken.length := by
    rw [List.length_append]
    omega
  simp only [lexeme, between, hlength, Int.toNat_natCast, List.drop_left, List.take_left]

end Between

theorem line_add (line : Int) (first second : List Char) :
    line + Scan.lineCount first + Scan.lineCount second =
      line + Scan.lineCount (first ++ second) := by
  rw [Scan.lineCount_append]
  omega

theorem skipWhile_next {condition : Char → Bool} {cursor moved : Cursor} {c : Char}
    (hgo : (cursor.peek 0).any condition = true) (hnext : cursor.next = .ok (c, moved)) :
    skipWhile condition cursor = skipWhile condition moved := by
  rw [skipWhile, if_pos hgo]
  split
  · next fault hfault =>
      rw [hnext] at hfault
      cases hfault
  · next c' moved' hmoved =>
      rw [hnext] at hmoved
      cases hmoved
      rfl

/-- Reading on while a condition holds takes the longest run of such
characters. -/
theorem skipWhile_between (condition : Char → Bool) {taken : List Char}
    (htaken : ∀ c ∈ taken, condition c = true) {behind : List Char}
    (hbehind : ∀ c ∈ behind.head?, condition c = false) (before : List Char) (line : Int) :
    skipWhile condition (between before (taken ++ behind) line) =
      .ok (between (before ++ taken) behind (line + Scan.lineCount taken)) := by
  induction taken generalizing before line with
  | nil =>
      have hstop : ¬ ((between before ([] ++ behind) line).peek 0).any condition = true := by
        rw [List.nil_append, peek_zero_between]
        cases hhead : behind.head? with
        | none => simp
        | some c => simpa using hbehind c hhead
      rw [skipWhile, if_neg hstop]
      simp [Scan.lineCount]
  | cons c taken ih =>
      obtain ⟨hfirst, hmore⟩ := List.forall_mem_cons.mp htaken
      have hgo : ((between before (c :: (taken ++ behind)) line).peek 0).any condition = true := by
        simpa using hfirst
      rw [List.cons_append, skipWhile_next hgo (next_between _ _ _ c), ih hmore, line_add,
        List.append_assoc, List.singleton_append]

/-! ## Block comments -/

theorem skipComment_unit {depth depth' : Nat} {cursor moved : Cursor}
    (hend : cursor.atEnd = false) (hunit : commentUnit depth cursor = .ok (depth', moved)) :
    skipComment (depth + 1) cursor = skipComment depth' moved := by
  rw [skipComment, if_neg (by simp [hend])]
  split
  · next fault hfault =>
      rw [hunit] at hfault
      cases hfault
  · next depth'' moved' hmoved =>
      rw [hunit] at hmoved
      cases hmoved
      rfl

/-- What a cursor does at the front of an open comment, by the length of the
comment if it ends. -/
def ClosesAs (depth counted : Nat) (text : List Char) : Option Nat → Prop
  | some length => ∃ taken behind, text = taken ++ behind ∧ length = counted + taken.length ∧
      ∀ before line, skipComment depth (between before text line) =
        .ok (true, between (before ++ taken) behind (line + Scan.lineCount taken))
  | none => ∀ before line, skipComment depth (between before text line) =
      .ok (false, between (before ++ text) [] (line + Scan.lineCount text))

/-- A comment ends behind a unit in it as what is left of it ends. -/
theorem ClosesAs.behind {depth depth' counted : Nat} (unit : List Char) {text : List Char}
    {length : Option Nat} (hcloses : ClosesAs depth' (counted + unit.length) text length)
    (hsome : unit ++ text ≠ [])
    (hunit : ∀ before line, commentUnit depth (between before (unit ++ text) line) =
      .ok (depth', between (before ++ unit) text (line + Scan.lineCount unit))) :
    ClosesAs (depth + 1) counted (unit ++ text) length := by
  have hskip : ∀ before line, skipComment (depth + 1) (between before (unit ++ text) line) =
      skipComment depth' (between (before ++ unit) text (line + Scan.lineCount unit)) :=
    fun before line => skipComment_unit (by simpa using hsome) (hunit before line)
  cases length with
  | none =>
      intro before line
      rw [hskip, hcloses, line_add, List.append_assoc]
  | some length =>
      obtain ⟨taken, behind, rfl, rfl, hends⟩ := hcloses
      refine ⟨unit ++ taken, behind, (List.append_assoc _ _ _).symm, ?_, ?_⟩
      · rw [List.length_append, Nat.add_assoc]
      · intro before line
        rw [hskip, hends, line_add, List.append_assoc]

/-- Reading through nested comments ends where the count over the text does. -/
theorem skipComment_between (depth counted : Nat) (text : List Char) :
    ClosesAs depth counted text (Scan.commentLength? depth counted text) := by
  fun_induction Scan.commentLength? depth counted text with
  | case1 text counted =>
      refine ⟨[], text, rfl, rfl, fun before line => ?_⟩
      rw [skipComment]
      simp [Scan.lineCount]
  | case2 depth counted =>
      intro before line
      rw [skipComment, if_pos (by simp)]
      simp [Scan.lineCount]
  | case3 depth counted text ih =>
      refine ClosesAs.behind ['/', '*'] ih (by simp) fun before line => ?_
      simp [commentUnit, ok_bind, line_add]
  | case4 depth counted text ih =>
      refine ClosesAs.behind ['*', '/'] ih (by simp) fun before line => ?_
      simp [commentUnit, ok_bind, line_add]
  | case5 depth counted c text hopen hclose ih =>
      refine ClosesAs.behind [c] ih (by simp) fun before line => ?_
      have hopen' : ¬ (c = '/' ∧ text.head? = some '*') := by
        rintro ⟨rfl, hstar⟩
        obtain ⟨more, rfl⟩ := List.head?_eq_some_iff.mp hstar
        exact hopen more rfl rfl
      have hclose' : ¬ (c = '*' ∧ text.head? = some '/') := by
        rintro ⟨rfl, hslash⟩
        obtain ⟨more, rfl⟩ := List.head?_eq_some_iff.mp hslash
        exact hclose more rfl rfl
      rw [List.singleton_append, commentUnit, next_between, ok_bind]
      simp only [peek_zero_between, if_neg hopen', if_neg hclose']
      rfl

end Cursor

namespace Scan

open Cursor

/-! ## Reading a piece -/

def attemptNext (cursor : Cursor) : Except Crash (Char × Cursor) :=
  cursor.next.mapError .character

def attemptSkip (condition : Char → Bool) (cursor : Cursor) : Except Crash Cursor :=
  (cursor.skipWhile condition).mapError .character

/-- The decimal that a text of digits denotes, with a point between two of them
or without. -/
def decimal? (text : List Char) : Option Number.Decimal :=
  let whole := text.takeWhile isDigit
  match text.drop whole.length with
  | [] => if whole.isEmpty then none else some ⟨digitsValue whole, 0⟩
  | '.' :: fraction =>
      if whole.isEmpty || fraction.isEmpty || !fraction.all isDigit then none
      else some ⟨digitsValue (whole ++ fraction), -(fraction.length : Int)⟩
  | _ => none

def attemptNumber (text : List Char) : Except Crash Value :=
  match decimal? text with
  | some decimal => .ok (.number decimal.toFloat)
  | none => .error (.number text)

def attemptString (_start cursor : Cursor) : Except Crash (Shape × Cursor) := do
  let behind ← attemptSkip (· != '"') cursor
  if behind.atEnd then return (.fault .unterminatedString, behind)
  let (_, last) ← attemptNext behind
  return (.token .string (some (.text (String.ofList (cursor.lexeme behind)))), last)

/-- Reads the rest of a number that begins at `start`. -/
def attemptDigits (start cursor : Cursor) : Except Crash (Shape × Cursor) := do
  let whole ← attemptSkip isDigit cursor
  if whole.peek 0 = some '.' ∧ (whole.peek 1).any isDigit = true then
    let (_, point) ← attemptNext whole
    let behind ← attemptSkip isDigit point
    return (.token .number (some (← attemptNumber (start.lexeme behind))), behind)
  else return (.token .number (some (← attemptNumber (start.lexeme whole))), whole)

/-- Reads the rest of a name or keyword that begins at `start`. -/
def attemptWord (start cursor : Cursor) : Except Crash (Shape × Cursor) := do
  let behind ← attemptSkip isNamePart cursor
  let kind := Kind.ofWord (String.ofList (start.lexeme behind))
  return (.token kind (wordLiteral kind), behind)

def attemptSlash (_start cursor : Cursor) : Except Crash (Shape × Cursor) := do
  if cursor.peek 0 = some '/' then
    let (_, inside) ← attemptNext cursor
    return (.comment, ← attemptSkip (· != '\n') inside)
  else if cursor.peek 0 = some '*' then
    let (_, inside) ← attemptNext cursor
    let (closed, behind) ← (inside.skipComment 1).mapError .character
    return (if closed then .comment else .fault .unterminatedComment, behind)
  else return (.token .slash none, cursor)

/-- Reads the rest of a piece that begins at `start` with `first`. -/
def attemptShape (first : Char) (start cursor : Cursor) : Except Crash (Shape × Cursor) :=
  if isSpace first then .ok (.blank, cursor)
  else
    match (cursor.peek 0).bind (Kind.ofPair? first) with
    | some kind => do
        let (_, behind) ← attemptNext cursor
        return (.token kind none, behind)
    | none =>
        if first == '/' then attemptSlash start cursor
        else
          match Kind.ofChar? first with
          | some kind => .ok (.token kind none, cursor)
          | none =>
              if first == '"' then attemptString start cursor
              else if isDigit first then attemptDigits start cursor
              else if isNameStart first then attemptWord start cursor
              else .ok (.fault (.unexpected first), cursor)

def attemptPiece (start : Cursor) : Except Crash (Shape × Cursor) := do
  let (first, cursor) ← attemptNext start
  attemptShape first start cursor

def attemptPieces (cursor : Cursor) : Except Crash (List Piece × Cursor) :=
  if cursor.atEnd then .ok ([], cursor)
  else
    match attemptPiece cursor with
    | .error crash => .error crash
    | .ok (shape, behind) =>
        if behind.left < cursor.left then
          match attemptPieces behind with
          | .error crash => .error crash
          | .ok (later, last) => .ok (⟨shape, cursor.lexeme behind, cursor.line⟩ :: later, last)
        else .error .endless
termination_by cursor.left

def attempt (source : String) : Except Crash Scan := do
  let (found, last) ← attemptPieces ⟨source.toList, 0, 1⟩
  return {
    tokens := found.filterMap Piece.token? ++ [Token.endAt last.line]
    errors := found.filterMap Piece.diagnostic? }

/-! ## No step fails -/

theorem attemptNext_between (before after : List Char) (line : Int) (c : Char) :
    attemptNext (between before (c :: after) line) =
      .ok (c, between (before ++ [c]) after (line + lineCount [c])) := by
  rw [attemptNext, next_between]
  rfl

theorem attemptSkip_between (condition : Char → Bool) {taken : List Char}
    (htaken : ∀ c ∈ taken, condition c = true) {behind : List Char}
    (hbehind : ∀ c ∈ behind.head?, condition c = false) (before : List Char) (line : Int) :
    attemptSkip condition (between before (taken ++ behind) line) =
      .ok (between (before ++ taken) behind (line + lineCount taken)) := by
  rw [attemptSkip, skipWhile_between condition htaken hbehind]
  rfl

/-- Reading on behind `first`, in a piece that begins with it, gives what was
found by classification. -/
def Follows (step : Cursor → Cursor → Except Crash (Shape × Cursor)) (first : Char)
    (rest : List Char) (found : Shape × Nat) : Prop :=
  ∃ taken after, rest = taken ++ after ∧ found.2 = taken.length ∧ ∀ before line,
    step (between before (first :: rest) line)
        (between (before ++ [first]) rest (line + lineCount [first])) =
      .ok (found.1,
        between (before ++ first :: taken) after (line + lineCount (first :: taken)))

theorem follows_word (first : Char) (rest : List Char) :
    Follows attemptWord first rest (classifyWord first rest) := by
  obtain ⟨more, behind, rfl, htake, hmore, hbehind⟩ := exists_span isNamePart rest
  rw [classifyWord, htake]
  refine ⟨more, behind, rfl, rfl, fun before line => ?_⟩
  rw [attemptWord, attemptSkip_between _ hmore hbehind, ok_bind, line_add, List.append_assoc]
  simp only [List.singleton_append]
  rw [← List.cons_append, lexeme_between]
  rfl

theorem follows_string (rest : List Char) :
    Follows attemptString '"' rest (classifyString rest) := by
  obtain ⟨body, behind, rfl, htake, hbody, hbehind⟩ := exists_span (· != '"') rest
  rw [classifyString, htake]
  cases behind with
  | nil =>
      rw [if_neg (by simp)]
      refine ⟨body, [], rfl, rfl, fun before line => ?_⟩
      rw [attemptString, attemptSkip_between _ hbody hbehind, ok_bind, line_add, if_pos (by simp),
        List.append_assoc]
      rfl
  | cons quote after =>
      obtain rfl : quote = '"' := by simpa using hbehind quote rfl
      rw [if_pos (by simp)]
      refine ⟨body ++ ['"'], after, by simp, by simp, fun before line => ?_⟩
      rw [attemptString, attemptSkip_between _ hbody hbehind, ok_bind, if_neg (by simp),
        lexeme_between, attemptNext_between, ok_bind, line_add, line_add]
      simp only [List.append_assoc, List.singleton_append]
      rfl

theorem decimal?_whole {whole : List Char} (hsome : whole ≠ [])
    (hwhole : ∀ c ∈ whole, isDigit c = true) : decimal? whole = some ⟨digitsValue whole, 0⟩ := by
  have htake : whole.takeWhile isDigit = whole := List.takeWhile_eq_self_iff.mpr hwhole
  simp [decimal?, htake, hsome]

/-- A text with a point denotes the number of its digits, counted in the place
of the last one. -/
theorem decimal?_fraction {whole fraction : List Char} (hsome : whole ≠ [])
    (hwhole : ∀ c ∈ whole, isDigit c = true) (hsome' : fraction ≠ [])
    (hfraction : ∀ c ∈ fraction, isDigit c = true) :
    decimal? (whole ++ '.' :: fraction) =
      some ⟨digitsValue (whole ++ fraction), -(fraction.length : Int)⟩ := by
  have htake : (whole ++ '.' :: fraction).takeWhile isDigit = whole := by
    rw [List.takeWhile_append_of_pos hwhole, List.takeWhile_cons_of_neg (by decide),
      List.append_nil]
  have hall : fraction.all isDigit = true := List.all_eq_true.mpr hfraction
  simp [decimal?, htake, hsome, hsome', hall]

/-- A number is read as it is classified, and its text denotes one. -/
theorem follows_digits {first : Char} (hfirst : isDigit first = true) (rest : List Char) :
    Follows attemptDigits first rest (classifyNumber first rest) := by
  obtain ⟨whole, behind, rfl, htake, hwhole, hbehind⟩ := exists_span isDigit rest
  have hdigits : ∀ c ∈ first :: whole, isDigit c = true :=
    List.forall_mem_cons.mpr ⟨hfirst, hwhole⟩
  by_cases hpoint : ∃ tenth more, behind = '.' :: tenth :: more ∧ isDigit tenth = true
  · obtain ⟨tenth, more, rfl, htenth⟩ := hpoint
    obtain ⟨finer, after, rfl, hfiner, hfraction, hafter⟩ := exists_span isDigit more
    have hdigits' : ∀ c ∈ tenth :: finer, isDigit c = true :=
      List.forall_mem_cons.mpr ⟨htenth, hfraction⟩
    have hnumber : attemptNumber (first :: (whole ++ '.' :: tenth :: finer)) =
        .ok (numberValue (first :: whole) (tenth :: finer)) := by
      have hdecimal := decimal?_fraction (by simp) hdigits (by simp) hdigits'
      rw [List.cons_append] at hdecimal
      rw [attemptNumber, hdecimal]
      rfl
    rw [classifyNumber_fraction htake htenth hfiner]
    refine ⟨whole ++ '.' :: tenth :: finer, after, by simp, rfl, fun before line => ?_⟩
    rw [attemptDigits, attemptSkip_between _ hwhole hbehind, ok_bind,
      if_pos (by simpa using htenth), attemptNext_between, ok_bind]
    simp only
    rw [← List.cons_append, attemptSkip_between _ hdigits' hafter, ok_bind, line_add, line_add,
      line_add]
    simp only [List.append_assoc, List.singleton_append]
    have hlexeme := lexeme_between before after line (first :: (whole ++ '.' :: tenth :: finer))
    simp only [List.cons_append, List.append_assoc] at hlexeme ⊢
    rw [hlexeme, hnumber]
    rfl
  · have hnumber : attemptNumber (first :: whole) = .ok (numberValue (first :: whole) []) := by
      rw [attemptNumber, decimal?_whole (by simp) hdigits]
      simp [numberValue]
    have hplain : ¬ (behind.head? = some '.' ∧ behind[1]?.any isDigit = true) := by
      rintro ⟨hdot, hdigit⟩
      obtain ⟨more, rfl⟩ := List.head?_eq_some_iff.mp hdot
      cases more with
      | nil => cases hdigit
      | cons tenth more => exact hpoint ⟨tenth, more, rfl, hdigit⟩
    rw [classifyNumber_whole htake hpoint]
    refine ⟨whole, behind, rfl, rfl, fun before line => ?_⟩
    rw [attemptDigits, attemptSkip_between _ hwhole hbehind, ok_bind, peek_zero_between,
      peek_one_between, if_neg hplain, line_add, List.append_assoc]
    simp only [List.singleton_append]
    rw [← List.cons_append, lexeme_between, hnumber]
    rfl

theorem follows_slash (rest : List Char) :
    Follows attemptSlash '/' rest (classifySlash rest) := by
  unfold classifySlash
  split
  · next more =>
      obtain ⟨body, after, rfl, htake, hbody, hbehind⟩ := exists_span (· != '\n') more
      refine ⟨'/' :: body, after, rfl, ?_, fun before line => ?_⟩
      · rw [runLength, List.takeWhile_cons_of_pos (by decide), htake]
      · rw [attemptSlash, if_pos (by simp), attemptNext_between, ok_bind]
        simp only
        rw [attemptSkip_between _ hbody hbehind, ok_bind, line_add, line_add]
        simp only [List.append_assoc, List.singleton_append]
        rfl
  · next body =>
      have hcloses := skipComment_between 1 1 body
      have hslash : ∀ start before line,
          attemptSlash start (between (before ++ ['/']) ('*' :: body) (line + lineCount ['/'])) =
            ((skipComment 1 (between (before ++ ['/', '*']) body
              (line + lineCount ['/', '*']))).mapError .character >>= fun found =>
              pure (if found.1 then .comment else .fault .unterminatedComment, found.2)) := by
        intro start before line
        rw [attemptSlash, if_neg (by simp), if_pos (by simp), attemptNext_between, ok_bind,
          line_add, List.append_assoc]
        rfl
      cases hlength : commentLength? 1 1 body with
      | some length =>
          rw [hlength] at hcloses
          obtain ⟨taken, behind, rfl, rfl, hends⟩ := hcloses
          refine ⟨'*' :: taken, behind, rfl, Nat.add_comm _ _, fun before line => ?_⟩
          rw [hslash, hends, line_add, List.append_assoc]
          rfl
      | none =>
          rw [hlength] at hcloses
          refine ⟨'*' :: body, [], by simp, rfl, fun before line => ?_⟩
          rw [hslash, hcloses, line_add, List.append_assoc]
          rfl
  · next hline hblock =>
      have hnone : rest.head? ≠ some '/' ∧ rest.head? ≠ some '*' := by
        cases rest with
        | nil => simp
        | cons c more =>
            constructor
            · rintro ⟨⟩
              exact hline more rfl
            · rintro ⟨⟩
              exact hblock more rfl
      refine ⟨[], rest, rfl, rfl, fun before line => ?_⟩
      rw [attemptSlash, peek_zero_between, if_neg hnone.1, if_neg hnone.2]
      rfl

/-- Only the character in front decides how a piece is read on. -/
theorem Follows.of_peek {step step' : Cursor → Cursor → Except Crash (Shape × Cursor)}
    {first : Char} {rest : List Char} {found : Shape × Nat}
    (hfollows : Follows step first rest found)
    (hstep : ∀ start cursor, cursor.peek 0 = rest.head? → step' start cursor = step start cursor) :
    Follows step' first rest found := by
  obtain ⟨taken, after, hrest, hlength, hgives⟩ := hfollows
  refine ⟨taken, after, hrest, hlength, fun before line => ?_⟩
  rw [hstep _ _ (peek_zero_between _ _ _)]
  exact hgives before line

theorem follows_single (shape : Shape) (first : Char) (rest : List Char) :
    Follows (fun _ cursor => .ok (shape, cursor)) first rest (shape, 0) :=
  ⟨[], rest, rfl, rfl, fun _ _ => rfl⟩

theorem follows_pair (shape : Shape) (first second : Char) (behind : List Char) :
    Follows (fun _ cursor => do
      let (_, behind) ← attemptNext cursor
      return (shape, behind)) first (second :: behind) (shape, 1) := by
  refine ⟨[second], behind, rfl, rfl, fun before line => ?_⟩
  simp only [attemptNext_between, ok_bind, line_add, List.append_assoc]
  rfl

/-- Every piece is read as it is classified. -/
theorem follows_classify (first : Char) (rest : List Char) :
    Follows (attemptShape first) first rest (classify first rest) := by
  fun_cases classify first rest with
  | case1 hspace =>
      refine (follows_single _ first rest).of_peek fun start cursor hpeek => ?_
      rw [attemptShape, if_pos hspace]
  | case2 hspace kind hpair =>
      obtain ⟨second, hhead, hkind⟩ := Option.bind_eq_some_iff.mp hpair
      obtain ⟨behind, rfl⟩ : ∃ behind, rest = second :: behind := List.head?_eq_some_iff.mp hhead
      refine (follows_pair _ first second behind).of_peek fun start cursor hpeek => ?_
      simp only [attemptShape, if_neg hspace, hpeek, hpair]
  | case3 hspace hpair hslash =>
      obtain rfl : first = '/' := by simpa using hslash
      refine (follows_slash rest).of_peek fun start cursor hpeek => ?_
      simp [attemptShape, hspace, hpeek, hpair]
  | case4 hspace hpair hslash kind hkind =>
      refine (follows_single _ first rest).of_peek fun start cursor hpeek => ?_
      simp [attemptShape, hspace, hpeek, hpair, hslash, hkind]
  | case5 hspace hpair hslash hsign hquote =>
      obtain rfl : first = '"' := by simpa using hquote
      refine (follows_string rest).of_peek fun start cursor hpeek => ?_
      simp [attemptShape, hspace, hpeek, hpair, hsign]
  | case6 hspace hpair hslash hsign hquote hdigit =>
      refine (follows_digits hdigit rest).of_peek fun start cursor hpeek => ?_
      simp [attemptShape, hspace, hpeek, hpair, hslash, hsign, hquote, hdigit]
  | case7 hspace hpair hslash hsign hquote hdigit hname =>
      refine (follows_word first rest).of_peek fun start cursor hpeek => ?_
      simp [attemptShape, hspace, hpeek, hpair, hslash, hsign, hquote, hdigit, hname]
  | case8 hspace hpair hslash hsign hquote hdigit hname =>
      refine (follows_single _ first rest).of_peek fun start cursor hpeek => ?_
      simp [attemptShape, hspace, hpeek, hpair, hslash, hsign, hquote, hdigit, hname]

/-- A cursor in front of a piece moves behind it. -/
theorem attemptPiece_between {first : Char} {taken after : List Char} {shape : Shape}
    (hclassify : classify first (taken ++ after) = (shape, taken.length)) (before : List Char)
    (line : Int) :
    attemptPiece (between before (first :: (taken ++ after)) line) =
      .ok (shape,
        between (before ++ first :: taken) after (line + lineCount (first :: taken))) := by
  obtain ⟨taken', after', hsplit, hlength, hgives⟩ := follows_classify first (taken ++ after)
  rw [hclassify] at hlength hgives
  obtain ⟨rfl, rfl⟩ := List.append_inj hsplit hlength
  rw [attemptPiece, attemptNext_between, ok_bind]
  exact hgives before line

/-- The pieces that a cursor finds are those of what it has not read. -/
theorem attemptPieces_between (before : List Char) (line : Int) (text : List Char) :
    attemptPieces (between before text line) =
      .ok (pieces line text, between (before ++ text) [] (line + lineCount text)) := by
  induction line, text using pieces.induct generalizing before with
  | case1 line =>
      rw [attemptPieces, if_pos (by simp), pieces]
      simp [lineCount]
  | case2 line first rest shape length hclassify text ih =>
      obtain ⟨taken, after, rfl, hlength, -⟩ := cuts_classify first rest
      rw [hclassify] at hlength
      obtain rfl : length = taken.length := hlength
      simp only [text, List.take_left, List.drop_left] at ih
      have hless : (between (before ++ first :: taken) after
          (line + lineCount (first :: taken))).left <
            (between before (first :: (taken ++ after)) line).left := by
        simp only [left_between, List.length_cons, List.length_append]
        omega
      rw [attemptPieces, if_neg (by simp), attemptPiece_between hclassify]
      simp only [if_pos hless, ih, line_add, List.append_assoc]
      rw [← List.cons_append, lexeme_between, List.cons_append, pieces_of_classify hclassify]
      rfl

/-- Scanning with a cursor never fails, and it finds what the source holds. -/
theorem attempt_eq (source : String) : attempt source = .ok (ofSource source) := by
  have hpieces := attemptPieces_between [] 1 source.toList
  rw [List.nil_append] at hpieces
  have hstart : between [] source.toList 1 = ⟨source.toList, 0, 1⟩ := rfl
  rw [attempt, ← hstart, hpieces]
  rfl

-- Behind the end, and for a point without digits, a step would fail.
example : attemptNext ⟨['a'], 1, 1⟩ = .error (.character (.pastEnd 1 1)) :=
  rfl

example : attemptNumber ['1', '.'] = .error (.number ['1', '.']) :=
  rfl

end Scan

end Lumen
