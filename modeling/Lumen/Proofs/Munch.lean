import Mathlib.Data.Nat.Digits.Defs
import Lumen.Proofs.Double
import Lumen.Proofs.Pieces

/-!
# Maximal munch

Wherever neither a blank nor a comment begins, the scanner takes the longest
text that is a token, and reports a mistake if there is none.  The first
character decides what kinds of tokens are possible, and each kind is taken as
far as it goes: signs by looking one character ahead, strings up to the next
quote, words and numbers by runs of characters.  Numbers stand for the double
nearest to their decimal.
-/

namespace Lumen

namespace Scan

/-! ## What literals stand for -/

def digitsNumber (digits : List Char) : Nat :=
  Nat.ofDigits 10 (digits.reverse.map fun c => c.toNat - '0'.toNat)

/-- The numbers that texts of digits, with or without a fraction, stand for. -/
inductive Writes : List Char → ℚ → Prop
  | whole (digits : List Char) (hdigits : ∀ c ∈ digits, isDigit c = true) :
      Writes digits (digitsNumber digits)
  | fraction (digits finer : List Char) (hdigits : ∀ c ∈ digits, isDigit c = true)
      (hfiner : ∀ c ∈ finer, isDigit c = true) :
      Writes (digits ++ '.' :: finer)
        (digitsNumber digits + digitsNumber finer / 10 ^ finer.length)

def Denotes (kind : Kind) (text : List Char) (literal : Option Value) : Prop :=
  match kind with
  | .string => ∃ body, text = '"' :: (body ++ ['"']) ∧ literal = some (.text (String.ofList body))
  | .number => ∃ number value, Writes text number ∧ Number.Rounds number value ∧
      literal = some (.number value)
  | .trueWord => literal = some (.boolean true)
  | .falseWord => literal = some (.boolean false)
  | .nilWord => literal = some .nil
  | _ => literal = none

theorem denotes_none {kind : Kind} (hkind : kind.isLiteral = false) (text : List Char) :
    Denotes kind text none := by
  cases kind <;> simp_all [Denotes, Kind.isLiteral]

theorem digitsValue_concat (digits : List Char) (last : Char) :
    digitsValue (digits ++ [last]) = 10 * digitsValue digits + (last.toNat - '0'.toNat) := by
  simp [digitsValue]

/-- The digits of a text are those of its number in base ten. -/
theorem digitsValue_eq (digits : List Char) : digitsValue digits = digitsNumber digits := by
  induction digits using List.reverseRecOn with
  | nil => rfl
  | append_singleton digits last ih =>
      rw [digitsValue_concat, ih, digitsNumber, digitsNumber, List.reverse_append]
      simp [Nat.ofDigits_cons, Nat.add_comm]

theorem digitsValue_append (digits finer : List Char) :
    digitsValue (digits ++ finer) = digitsValue digits * 10 ^ finer.length + digitsValue finer := by
  induction finer using List.reverseRecOn with
  | nil => simp [digitsValue]
  | append_singleton finer last ih =>
      rw [← List.append_assoc, digitsValue_concat, digitsValue_concat, ih, List.length_append,
        List.length_singleton, pow_succ]
      ring

/-- A whole part and a fraction, read as one row of digits, stand for the sum
of the two. -/
theorem value_numberValue (whole fraction : List Char) :
    (⟨digitsValue (whole ++ fraction), -(fraction.length : Int)⟩ : Number.Decimal).value =
      digitsNumber whole + digitsNumber fraction / 10 ^ fraction.length := by
  have hpower : (10 : ℚ) ^ fraction.length ≠ 0 := pow_ne_zero _ (by norm_num)
  rw [Number.Decimal.value, zpow_neg, zpow_natCast, digitsValue_append, digitsValue_eq,
    digitsValue_eq]
  push_cast
  field_simp

/-! ## Lexemes by their first character -/

/-- What may follow the first digit of a number. -/
def NumberTail (more : List Char) : Prop :=
  (∀ c ∈ more, isDigit c = true) ∨
    ∃ whole tenth finer, more = whole ++ '.' :: tenth :: finer ∧
      (∀ c ∈ whole, isDigit c = true) ∧ ∀ c ∈ tenth :: finer, isDigit c = true

/-- A fixed spelling is a sign of one or two characters or a keyword. -/
theorem spelling?_shape {kind : Kind} {spelling : String}
    (hspelling : kind.spelling? = some spelling) :
    (spelling.toList.length = 1 ∧ spelling.toList.head?.bind Kind.ofChar? = some kind) ∨
      (spelling.toList.length = 2 ∧ spelling.toList.head?.bind (fun first =>
        spelling.toList.getLast?.bind (Kind.ofPair? first)) = some kind) ∨
      (spelling.toList.head?.any isNameStart = true ∧ spelling.toList.all isNamePart = true ∧
        Kind.keywords.lookup spelling = some kind) := by
  cases kind <;> cases hspelling <;> decide

theorem isNamePart_of_all {first : Char} {more : List Char}
    (hall : (first :: more).all isNamePart = true) : ∀ c ∈ more, isNamePart c = true :=
  fun c hmem => List.all_eq_true.mp hall c (List.mem_cons_of_mem _ hmem)

/-- The kinds of lexemes that may begin with a character. -/
inductive Begins (first : Char) (more : List Char) : Kind → Prop
  | sign {kind : Kind} (hkind : Kind.ofChar? first = some kind) (hmore : more = []) :
      Begins first more kind
  | pair {kind : Kind} (second : Char) (hkind : Kind.ofPair? first second = some kind)
      (hmore : more = [second]) : Begins first more kind
  | word (hfirst : isNameStart first = true) (hmore : ∀ c ∈ more, isNamePart c = true) :
      Begins first more (Kind.ofWord (String.ofList (first :: more)))
  | number (hfirst : isDigit first = true) (hmore : NumberTail more) : Begins first more .number
  | string (body : List Char) (hfirst : first = '"') (hmore : more = body ++ ['"'])
      (hbody : '"' ∉ body) : Begins first more .string

theorem begins_of_spelling {kind : Kind} {first : Char} {more : List Char}
    (hspelling : kind.spelling? = some (String.ofList (first :: more))) :
    Begins first more kind := by
  have hshape := spelling?_shape hspelling
  rw [String.toList_ofList] at hshape
  rcases hshape with ⟨hlength, hkind⟩ | ⟨hlength, hkind⟩ | ⟨hfirst, hall, hlookup⟩
  · obtain rfl : more = [] := List.length_eq_zero_iff.mp (by simpa using hlength)
    exact .sign hkind rfl
  · obtain ⟨second, rfl⟩ := List.length_eq_one_iff.mp (by simpa using hlength : more.length = 1)
    exact .pair second hkind rfl
  · have hkind : kind = Kind.ofWord (String.ofList (first :: more)) := by
      rw [Kind.ofWord, hlookup, Option.getD_some]
    rw [hkind]
    exact .word (by simpa using hfirst) (isNamePart_of_all hall)

/-- The first character of a lexeme says which kinds it may have. -/
theorem Lexeme.begins {kind : Kind} {first : Char} {more : List Char}
    (hlexeme : Lexeme kind (first :: more)) : Begins first more kind := by
  generalize htext : first :: more = text at hlexeme
  cases hlexeme with
  | @fixed _ spelling hspelling =>
      have hsame : spelling = String.ofList (first :: more) := by
        rw [htext, String.ofList_toList]
      exact begins_of_spelling (hsame ▸ hspelling)
  | name first' more' hfirst hmore hfree =>
      obtain ⟨rfl, rfl⟩ := List.cons.inj htext
      have hlookup : Kind.keywords.lookup (String.ofList (first :: more)) = none := by
        rw [List.lookup_eq_none_iff]
        rintro ⟨word, kind⟩ hmem
        refine bne_iff_ne.mpr fun hsame => hfree kind ?_
        rw [hsame]
        exact spelling?_of_mem_keywords hmem
      have hkind : Kind.identifier = Kind.ofWord (String.ofList (first :: more)) := by
        rw [Kind.ofWord, hlookup, Option.getD_none]
      rw [hkind]
      exact .word hfirst hmore
  | whole first' more' hdigits =>
      obtain ⟨rfl, rfl⟩ := List.cons.inj htext
      exact .number (hdigits first List.mem_cons_self)
        (.inl fun c hmem => hdigits c (List.mem_cons_of_mem _ hmem))
  | fraction first' whole hdigits tenth finer hfraction =>
      obtain ⟨rfl, rfl⟩ := List.cons.inj htext
      exact .number (hdigits first List.mem_cons_self)
        (.inr ⟨whole, tenth, finer, rfl,
          fun c hmem => hdigits c (List.mem_cons_of_mem _ hmem), hfraction⟩)
  | string body hbody =>
      obtain ⟨rfl, rfl⟩ := List.cons.inj htext
      exact .string body rfl rfl hbody

/-! ## One class of lexemes for each first character -/

section Classes

variable {first : Char} {more : List Char} {kind : Kind}

theorem not_isDigit_of_ofChar? (hsome : (Kind.ofChar? first).isSome = true) :
    isDigit first = false := by
  obtain ⟨kind, hkind⟩ := Option.isSome_iff_exists.mp hsome
  unfold Kind.ofChar? at hkind
  split at hkind <;> cases hkind <;> rfl

theorem isSome_ofChar?_of_ofPair? {second : Char} (hkind : Kind.ofPair? first second = some kind) :
    (Kind.ofChar? first).isSome = true := by
  unfold Kind.ofPair? at hkind
  split at hkind <;> cases hkind <;> rfl

theorem not_isNameStart_of_isDigit (hdigit : isDigit first = true) : isNameStart first = false := by
  have hlast : first ≤ '9' := by
    simp only [isDigit, Bool.and_eq_true, decide_eq_true_eq] at hdigit
    exact hdigit.2
  have hless : ∀ c, '9' < c → ¬ c ≤ first := fun c hc hle =>
    absurd (Char.le_trans hle hlast) (Char.not_le.mpr hc)
  have hscore : first ≠ '_' := by
    rintro rfl
    exact absurd hlast (by decide)
  simp [isNameStart, hless 'a' (by decide), hless 'A' (by decide), hscore]

/-- Signs begin no words, numbers or strings. -/
theorem Begins.of_sign (hbegins : Begins first more kind)
    (hsign : (Kind.ofChar? first).isSome = true) :
    (Kind.ofChar? first = some kind ∧ more = []) ∨
      ∃ second, Kind.ofPair? first second = some kind ∧ more = [second] := by
  cases hbegins with
  | sign hkind hmore => exact .inl ⟨hkind, hmore⟩
  | pair second hkind hmore => exact .inr ⟨second, hkind, hmore⟩
  | word hfirst =>
      rw [not_isNameStart_of_ofChar? hsign] at hfirst
      cases hfirst
  | number hfirst =>
      rw [not_isDigit_of_ofChar? hsign] at hfirst
      cases hfirst
  | string body hfirst =>
      subst hfirst
      cases hsign

/-- What begins as a name is a name or keyword to its end. -/
theorem Begins.of_name (hbegins : Begins first more kind) (hname : isNameStart first = true) :
    (∀ c ∈ more, isNamePart c = true) ∧ kind = Kind.ofWord (String.ofList (first :: more)) := by
  have hsign : ¬ (Kind.ofChar? first).isSome = true := by
    intro hsign
    rw [not_isNameStart_of_ofChar? hsign] at hname
    cases hname
  cases hbegins with
  | sign hkind => exact absurd (Option.isSome_of_eq_some hkind) hsign
  | pair second hkind => exact absurd (isSome_ofChar?_of_ofPair? hkind) hsign
  | word hfirst hmore => exact ⟨hmore, rfl⟩
  | number hfirst =>
      rw [not_isNameStart_of_isDigit hfirst] at hname
      cases hname
  | string body hfirst =>
      subst hfirst
      cases hname

theorem Begins.of_digit (hbegins : Begins first more kind) (hdigit : isDigit first = true) :
    NumberTail more ∧ kind = .number := by
  have hsign : ¬ (Kind.ofChar? first).isSome = true := by
    intro hsign
    rw [not_isDigit_of_ofChar? hsign] at hdigit
    cases hdigit
  cases hbegins with
  | sign hkind => exact absurd (Option.isSome_of_eq_some hkind) hsign
  | pair second hkind => exact absurd (isSome_ofChar?_of_ofPair? hkind) hsign
  | word hfirst =>
      rw [not_isNameStart_of_isDigit hdigit] at hfirst
      cases hfirst
  | number hfirst hmore => exact ⟨hmore, rfl⟩
  | string body hfirst =>
      subst hfirst
      cases hdigit

theorem Begins.of_quote (hbegins : Begins '"' more kind) :
    (∃ body, more = body ++ ['"'] ∧ '"' ∉ body) ∧ kind = .string := by
  cases hbegins with
  | sign hkind => cases hkind
  | pair second hkind => cases isSome_ofChar?_of_ofPair? hkind
  | word hfirst => cases hfirst
  | number hfirst => cases hfirst
  | string body _ hmore hbody => exact ⟨⟨body, hmore, hbody⟩, rfl⟩

end Classes

/-! ## The longest lexeme -/

/-- A classification as `found` takes the longest lexeme in front of a text, or
finds that there is none. -/
def Munches (first : Char) (rest : List Char) (found : Shape × Nat) : Prop :=
  match found.1 with
  | .token kind literal => Denotes kind (first :: rest.take found.2) literal ∧
      ∀ kind' more, more <+: rest → Lexeme kind' (first :: more) →
        more.length ≤ found.2 ∧ (more.length = found.2 → kind' = kind)
  | .fault _ => ∀ kind more, more <+: rest → ¬ Lexeme kind (first :: more)
  | .blank => False
  | .comment => False

theorem Munches.cases {first : Char} {rest : List Char} {found : Shape × Nat}
    (hmunches : Munches first rest found) :
    (∃ kind literal, found.1 = .token kind literal ∧
      Denotes kind (first :: rest.take found.2) literal ∧
      ∀ kind' more, more <+: rest → Lexeme kind' (first :: more) →
        more.length ≤ found.2 ∧ (more.length = found.2 → kind' = kind)) ∨
    ∃ cause, found.1 = .fault cause ∧
      ∀ kind more, more <+: rest → ¬ Lexeme kind (first :: more) := by
  obtain ⟨shape, length⟩ := found
  cases shape with
  | token kind literal => exact .inl ⟨kind, literal, rfl, hmunches⟩
  | fault cause => exact .inr ⟨cause, rfl, hmunches⟩
  | blank => cases hmunches
  | comment => cases hmunches

theorem munches_pair {first second : Char} {kind : Kind}
    (hkind : Kind.ofPair? first second = some kind) (behind : List Char) :
    Munches first (second :: behind) (.token kind none, 1) := by
  have hsign := isSome_ofChar?_of_ofPair? hkind
  refine ⟨denotes_none ?_ _, ?_⟩
  · unfold Kind.ofPair? at hkind
    split at hkind <;> cases hkind <;> rfl
  · intro kind' more hfront hlexeme
    rcases hlexeme.begins.of_sign hsign with ⟨-, rfl⟩ | ⟨second', hkind', rfl⟩
    · exact ⟨by simp, fun hlength => by simp at hlength⟩
    · obtain ⟨rfl, -⟩ := List.cons_prefix_cons.mp hfront
      refine ⟨Nat.le_refl _, fun _ => ?_⟩
      rw [hkind] at hkind'
      exact (Option.some.inj hkind').symm

theorem munches_sign {first : Char} {kind : Kind} {rest : List Char}
    (hkind : Kind.ofChar? first = some kind)
    (hpair : rest.head?.bind (Kind.ofPair? first) = none) :
    Munches first rest (.token kind none, 0) := by
  refine ⟨denotes_none ?_ _, ?_⟩
  · unfold Kind.ofChar? at hkind
    split at hkind <;> cases hkind <;> rfl
  · intro kind' more hfront hlexeme
    rcases hlexeme.begins.of_sign (Option.isSome_of_eq_some hkind) with
      ⟨hkind', rfl⟩ | ⟨second, hkind', rfl⟩
    · refine ⟨Nat.le_refl _, fun _ => ?_⟩
      rw [hkind] at hkind'
      exact (Option.some.inj hkind').symm
    · obtain ⟨behind, rfl⟩ := hfront
      have hsome : Kind.ofPair? first second = none := hpair
      rw [hkind'] at hsome
      cases hsome

/-- A run of characters goes as far as any beginning of the text that has the
same property. -/
theorem length_le_of_prefix {condition : Char → Bool} {more rest : List Char}
    (hfront : more <+: rest) (hmore : ∀ c ∈ more, condition c = true) :
    more.length ≤ (rest.takeWhile condition).length := by
  obtain ⟨behind, rfl⟩ := hfront
  rw [List.takeWhile_append_of_pos hmore, List.length_append]
  exact Nat.le_add_right _ _

theorem eq_of_prefix_of_length {more taken behind : List Char} (hfront : more <+: taken ++ behind)
    (hlength : more.length = taken.length) : more = taken :=
  (List.prefix_of_prefix_length_le hfront (List.prefix_append taken behind)
    (Nat.le_of_eq hlength)).eq_of_length hlength

theorem ofWord_ne (word : String) : Kind.ofWord word ≠ .string ∧ Kind.ofWord word ≠ .number := by
  cases hlookup : Kind.keywords.lookup word with
  | none =>
      rw [Kind.ofWord, hlookup]
      decide
  | some kind =>
      have hall : ∀ entry ∈ Kind.keywords, entry.2 ≠ .string ∧ entry.2 ≠ .number := by decide
      obtain ⟨before, after, hsplit, -⟩ := List.lookup_eq_some_iff.mp hlookup
      rw [Kind.ofWord, hlookup]
      exact hall (word, kind) (by simp [hsplit])

theorem denotes_wordLiteral {kind : Kind} (hkind : kind ≠ .string ∧ kind ≠ .number)
    (text : List Char) : Denotes kind text (wordLiteral kind) := by
  cases kind <;> simp_all [Denotes, wordLiteral]

/-- The longest name or keyword is taken. -/
theorem munches_word {first : Char} (hfirst : isNameStart first = true) (rest : List Char) :
    Munches first rest (classifyWord first rest) := by
  obtain ⟨taken, behind, rfl, htake, htaken, -⟩ := exists_span isNamePart rest
  rw [classifyWord, htake]
  refine ⟨denotes_wordLiteral (ofWord_ne _) _, ?_⟩
  intro kind' more hfront hlexeme
  obtain ⟨hmore, rfl⟩ := hlexeme.begins.of_name hfirst
  have hle := length_le_of_prefix hfront hmore
  rw [htake] at hle
  refine ⟨hle, fun hlength => ?_⟩
  rw [eq_of_prefix_of_length hfront hlength]

theorem munches_string (rest : List Char) : Munches '"' rest (classifyString rest) := by
  obtain ⟨body, behind, rfl, htake, hbody, hbehind⟩ := exists_span (· != '"') rest
  have hquote : '"' ∉ body := by
    intro hmem
    have hdiffers := hbody '"' hmem
    simp at hdiffers
  -- Any string in front of the text ends at the first quote.
  have hstring : ∀ kind more, more <+: body ++ behind → Lexeme kind ('"' :: more) →
      kind = .string ∧ ∃ after, behind = '"' :: after ∧ more = body ++ ['"'] := by
    intro kind more hfront hlexeme
    obtain ⟨⟨body', rfl, hbody'⟩, rfl⟩ := hlexeme.begins.of_quote
    obtain ⟨after, hsplit⟩ := hfront
    have htake' : (body' ++ ['"'] ++ after).takeWhile (· != '"') = body' := by
      rw [List.append_assoc, List.takeWhile_append_of_pos]
      · simp
      · intro c hmem
        exact bne_iff_ne.mpr fun hc => hbody' (hc ▸ hmem)
    rw [hsplit, htake] at htake'
    subst htake'
    refine ⟨rfl, after, ?_, rfl⟩
    rw [List.append_assoc] at hsplit
    exact (List.append_cancel_left hsplit).symm
  rw [classifyString, htake]
  cases behind with
  | nil =>
      rw [if_neg (by simp)]
      intro kind more hfront hlexeme
      obtain ⟨-, after, hbehind, -⟩ := hstring kind more hfront hlexeme
      cases hbehind
  | cons quote after =>
      obtain rfl : quote = '"' := by simpa using hbehind quote rfl
      rw [if_pos (by simp)]
      have hsplit : body ++ '"' :: after = (body ++ ['"']) ++ after := by simp
      have hlength : body.length + 1 = (body ++ ['"']).length := by simp
      refine ⟨⟨body, ?_, rfl⟩, ?_⟩
      · rw [hsplit, hlength, List.take_left]
      · intro kind' more hfront hlexeme
        obtain ⟨rfl, -, -, rfl⟩ := hstring kind' more hfront hlexeme
        exact ⟨by simp, fun _ => rfl⟩

/-! ## Numbers -/

section Numbers

variable {first : Char} {whole behind : List Char}

theorem denotes_numberValue {fraction text : List Char} {number : ℚ} (hwrites : Writes text number)
    (hnumber : number = digitsNumber whole + digitsNumber fraction / 10 ^ fraction.length) :
    Denotes .number text (some (numberValue whole fraction)) := by
  refine ⟨number, _, hwrites, ?_, rfl⟩
  rw [hnumber, ← value_numberValue]
  exact Number.Decimal.rounds_toFloat _

/-- A number in front of a text is a part of its leading digits, or all of them
with a part of the fraction behind them. -/
theorem NumberTail.of_prefix {more : List Char} (hmore : NumberTail more)
    (hfront : more <+: whole ++ behind) (htake : (whole ++ behind).takeWhile isDigit = whole) :
    more.length ≤ whole.length ∨
      ∃ tenth finer later, behind = '.' :: tenth :: (finer ++ later) ∧
        more = whole ++ '.' :: tenth :: finer ∧ ∀ c ∈ tenth :: finer, isDigit c = true := by
  rcases hmore with hdigits | ⟨whole', tenth, finer, rfl, hwhole', hfraction⟩
  · left
    have hle := length_le_of_prefix hfront hdigits
    rwa [htake] at hle
  · right
    obtain ⟨later, hsplit⟩ := hfront
    have htake' : (whole' ++ '.' :: tenth :: finer ++ later).takeWhile isDigit = whole' := by
      rw [List.append_assoc, List.takeWhile_append_of_pos hwhole', List.cons_append,
        List.takeWhile_cons_of_neg (by decide), List.append_nil]
    rw [hsplit, htake] at htake'
    subst htake'
    rw [List.append_assoc] at hsplit
    exact ⟨tenth, finer, later, (List.append_cancel_left hsplit).symm, rfl, hfraction⟩

/-- The longest number is taken. -/
theorem munches_number (hfirst : isDigit first = true) (rest : List Char) :
    Munches first rest (classifyNumber first rest) := by
  obtain ⟨whole, behind, rfl, htake, hwhole, -⟩ := exists_span isDigit rest
  have hdigits : ∀ c ∈ first :: whole, isDigit c = true :=
    List.forall_mem_cons.mpr ⟨hfirst, hwhole⟩
  by_cases hpoint : ∃ tenth more, behind = '.' :: tenth :: more ∧ isDigit tenth = true
  · obtain ⟨tenth, more, rfl, htenth⟩ := hpoint
    obtain ⟨finer, after, rfl, hfiner, hfraction, -⟩ := exists_span isDigit more
    rw [classifyNumber_fraction htake htenth hfiner]
    refine ⟨?_, ?_⟩
    · have hsplit : whole ++ '.' :: tenth :: (finer ++ after) =
          (whole ++ '.' :: tenth :: finer) ++ after := by simp
      rw [hsplit, List.take_left]
      have hfiner' : ∀ c ∈ tenth :: finer, isDigit c = true :=
        List.forall_mem_cons.mpr ⟨htenth, hfraction⟩
      exact denotes_numberValue (.fraction (first :: whole) (tenth :: finer) hdigits hfiner') rfl
    · intro kind' more hfront hlexeme
      obtain ⟨hmore, rfl⟩ := hlexeme.begins.of_digit hfirst
      refine ⟨?_, fun _ => rfl⟩
      rcases hmore.of_prefix hfront htake with
        hle | ⟨tenth', finer', later, hbehind, rfl, hdigits'⟩
      · rw [List.length_append]
        omega
      · obtain ⟨-, hbehind⟩ := List.cons.inj hbehind
        obtain ⟨-, hbehind⟩ := List.cons.inj hbehind
        have hle := length_le_of_prefix (hbehind ▸ List.prefix_append finer' later)
          fun c hmem => hdigits' c (List.mem_cons_of_mem _ hmem)
        rw [hfiner] at hle
        simp only [List.length_append, List.length_cons]
        omega
  · rw [classifyNumber_whole htake hpoint]
    refine ⟨?_, ?_⟩
    · rw [List.take_left]
      exact denotes_numberValue (.whole (first :: whole) hdigits) (by simp [digitsNumber])
    · intro kind' more hfront hlexeme
      obtain ⟨hmore, rfl⟩ := hlexeme.begins.of_digit hfirst
      refine ⟨?_, fun _ => rfl⟩
      rcases hmore.of_prefix hfront htake with hle | ⟨tenth, finer, later, rfl, -, hdigits'⟩
      · exact hle
      · exact absurd ⟨tenth, finer ++ later, rfl, hdigits' tenth List.mem_cons_self⟩ hpoint

end Numbers

/-- Where neither a blank nor a comment stands, classification takes the longest
lexeme. -/
theorem munches_classify {first : Char} {rest : List Char} (hspace : isSpace first = false)
    (hline : ∀ more, first :: rest ≠ '/' :: '/' :: more)
    (hblock : ∀ more, first :: rest ≠ '/' :: '*' :: more) :
    Munches first rest (classify first rest) := by
  fun_cases classify first rest with
  | case1 hblank => simp [hspace] at hblank
  | case2 _ kind hpair =>
      obtain ⟨second, hhead, hkind⟩ := Option.bind_eq_some_iff.mp hpair
      obtain ⟨behind, rfl⟩ : ∃ behind, rest = second :: behind := List.head?_eq_some_iff.mp hhead
      exact munches_pair hkind behind
  | case3 _ hpair hslash =>
      obtain rfl : first = '/' := by simpa using hslash
      have hplain : classifySlash rest = (.token .slash none, 0) := by
        unfold classifySlash
        split
        · next more => exact absurd rfl (hline more)
        · next more => exact absurd rfl (hblock more)
        · rfl
      rw [hplain]
      exact munches_sign rfl hpair
  | case4 _ hpair _ kind hkind => exact munches_sign hkind hpair
  | case5 _ _ _ _ hquote =>
      obtain rfl : first = '"' := by simpa using hquote
      exact munches_string rest
  | case6 _ _ _ _ _ hdigit => exact munches_number hdigit rest
  | case7 _ _ _ _ _ _ hname => exact munches_word hname rest
  | case8 _ _ _ hsign hquote hdigit hname =>
      intro kind more _
      exact not_lexeme_of_unplaced hsign (by simpa using hquote) (by simpa using hdigit)
        (by simpa using hname) kind more

/-! ## The pieces of a source -/

/-- What stands behind some pieces is scanned as if it stood alone. -/
theorem pieces_behind {line : Int} {text : List Char} {before after : List Piece}
    (hpieces : pieces line text = before ++ after) :
    after = pieces (line + lineCount (before.flatMap Piece.text)) (after.flatMap Piece.text) := by
  induction before generalizing line text with
  | nil =>
      have htext := (splits_pieces line text).flatMap_text
      rw [hpieces] at htext
      rw [List.nil_append] at hpieces htext
      simpa [lineCount, htext] using hpieces.symm
  | cons piece before ih =>
      cases text with
      | nil =>
          rw [pieces] at hpieces
          cases hpieces
      | cons first rest =>
          rw [pieces] at hpieces
          obtain ⟨rfl, hlater⟩ := List.cons.inj hpieces
          rw [List.flatMap_cons, lineCount_append, Int.natCast_add, ← Int.add_assoc]
          exact ih hlater

/-- A piece is what the classification of the text in front says. -/
theorem piece_eq_classify {line : Int} {text : List Char} {before after : List Piece}
    {piece : Piece} {first : Char} {rest : List Char}
    (hpieces : pieces line text = before ++ piece :: after)
    (hremaining : (piece :: after).flatMap Piece.text = first :: rest) :
    ∃ taken behind, rest = taken ++ behind ∧ piece.text = first :: taken ∧
      classify first rest = (piece.shape, taken.length) ∧ Cut behind piece.shape piece.text := by
  obtain ⟨taken, behind, rfl, hlength, hcut⟩ := cuts_classify first rest
  have hclassify : classify first (taken ++ behind) =
      ((classify first (taken ++ behind)).1, taken.length) := Prod.ext rfl hlength
  have hbehind := pieces_behind hpieces
  rw [hremaining, pieces_of_classify hclassify] at hbehind
  obtain ⟨rfl, -⟩ := List.cons.inj hbehind
  exact ⟨taken, behind, rfl, rfl, hclassify, hcut⟩

theorem Lexeme.exists_cons {kind : Kind} {text : List Char} (hlexeme : Lexeme kind text) :
    ∃ first more, text = first :: more :=
  have hcut : Cut [] (.token kind none) text := .token kind none text hlexeme
  List.exists_cons_of_ne_nil hcut.ne_nil

/-- A text is a lexeme of a kind and the longest lexeme in front of what
remains. -/
structure Longest (remaining : List Char) (kind : Kind) (text : List Char) : Prop where
  isPrefix : text <+: remaining
  lexeme : Lexeme kind text
  longest : ∀ kind' text', text' <+: remaining → Lexeme kind' text' →
    text'.length ≤ text.length ∧ (text' = text → kind' = kind)

/-- Where neither a blank nor a comment begins, the scanner makes one token of
the longest lexeme, with the kind and the value of that lexeme.  If there is no
lexeme, it reports one mistake. -/
theorem tokens_are_longest (source : String) (before after : List Piece) (piece : Piece)
    (first : Char) (rest : List Char)
    (hpieces : pieces 1 source.toList = before ++ piece :: after)
    (hremaining : (piece :: after).flatMap Piece.text = first :: rest)
    (hspace : isSpace first = false) (hline : ∀ more, first :: rest ≠ '/' :: '/' :: more)
    (hblock : ∀ more, first :: rest ≠ '/' :: '*' :: more) :
    ((ofSource source).tokens = before.filterMap Piece.token? ++ piece.token?.toList ++
        after.filterMap Piece.token? ++ [Token.endAt (endLine source.toList)] ∧
      (ofSource source).errors = before.filterMap Piece.diagnostic? ++ piece.diagnostic?.toList ++
        after.filterMap Piece.diagnostic?) ∧
    ((∃ kind text, text <+: first :: rest ∧ Lexeme kind text) →
      ∃ kind literal, Longest (first :: rest) kind piece.text ∧ Denotes kind piece.text literal ∧
        piece.token? = some ⟨kind, String.ofList piece.text, literal, piece.line⟩ ∧
        piece.diagnostic? = none) ∧
    ((∀ kind text, text <+: first :: rest → ¬ Lexeme kind text) →
      piece.token? = none ∧
        ∃ error, piece.diagnostic? = some error ∧ error.stage = .scanning) := by
  obtain ⟨taken, behind, hrest, htext, hclassify, hcut⟩ := piece_eq_classify hpieces hremaining
  have hcons : ∀ {kind text}, text <+: first :: rest → Lexeme kind text →
      ∃ more, text = first :: more ∧ more <+: rest := by
    intro kind text hfront hlexeme
    obtain ⟨c, more, rfl⟩ := hlexeme.exists_cons
    obtain ⟨rfl, hmore⟩ := List.cons_prefix_cons.mp hfront
    exact ⟨more, rfl, hmore⟩
  refine ⟨⟨?_, ?_⟩, ?_⟩
  · rw [ofSource, hpieces]
    cases htoken : piece.token? <;> simp [htoken]
  · rw [ofSource, hpieces]
    cases herror : piece.diagnostic? <;> simp [herror]
  have hmunches := munches_classify hspace hline hblock
  rw [hclassify] at hmunches
  rcases hmunches.cases with ⟨kind, literal, hshape, hdenotes, hlongest⟩ | ⟨cause, hshape, hnone⟩
  · replace hshape : piece.shape = .token kind literal := hshape
    have hlexeme : Lexeme kind piece.text := by
      rw [hshape] at hcut
      cases hcut with
      | token _ _ _ hlexeme => exact hlexeme
    have hfront : piece.text <+: first :: rest := by
      rw [htext, hrest]
      exact List.prefix_append (first :: taken) behind
    rw [hrest, List.take_left, ← htext] at hdenotes
    constructor
    · intro _
      refine ⟨kind, literal, ⟨hfront, hlexeme, ?_⟩, hdenotes, ?_, ?_⟩
      · intro kind' text' hfront' hlexeme'
        obtain ⟨more, rfl, hmore⟩ := hcons hfront' hlexeme'
        obtain ⟨hle, hkind⟩ := hlongest kind' more hmore hlexeme'
        rw [htext]
        refine ⟨Nat.succ_le_succ hle, fun hsame => hkind ?_⟩
        rw [(List.cons.inj hsame).2]
      · rw [Piece.token?, hshape]
      · rw [Piece.diagnostic?, hshape]
    · intro hnone
      exact absurd hlexeme (hnone kind piece.text hfront)
  · replace hshape : piece.shape = .fault cause := hshape
    constructor
    · rintro ⟨kind, text, hfront, hlexeme⟩
      obtain ⟨more, rfl, hmore⟩ := hcons hfront hlexeme
      exact absurd hlexeme (hnone kind more hmore)
    · intro _
      exact ⟨by rw [Piece.token?, hshape],
        ⟨.scanning, piece.faultLine cause, none, cause.message⟩,
        by rw [Piece.diagnostic?, hshape], rfl⟩

/-- In `a<=12.50.x` the number goes as far as its fraction, since no digit
follows the second point.  In `nil@` the last character begins no lexeme. -/
theorem tokens_are_longest_number :
    (∃ literal, Longest "12.50.x".toList .number "12.50".toList ∧
      Denotes .number "12.50".toList literal ∧
      (ofSource "a<=12.50.x").tokens =
        [⟨.identifier, "a", none, 1⟩, ⟨.lessEqual, "<=", none, 1⟩,
          ⟨.number, "12.50", literal, 1⟩, ⟨.dot, ".", none, 1⟩,
          ⟨.identifier, "x", none, 1⟩, ⟨.eof, "", none, 1⟩]) ∧
    (∃ error, error.stage = .scanning ∧
      (ofSource "nil@").tokens = [⟨.nilWord, "nil", some .nil, 1⟩, ⟨.eof, "", none, 1⟩] ∧
      (ofSource "nil@").errors = [error]) := by
  constructor
  · let piece : Piece :=
      ⟨.token .number (some (numberValue ['1', '2'] ['5', '0'])), "12.50".toList, 1⟩
    obtain ⟨⟨htokens, -⟩, hlonger, -⟩ := tokens_are_longest "a<=12.50.x"
      [⟨.token .identifier none, ['a'], 1⟩, ⟨.token .lessEqual none, ['<', '='], 1⟩]
      [⟨.token .dot none, ['.'], 1⟩, ⟨.token .identifier none, ['x'], 1⟩] piece '1' "2.50.x".toList
      (by decide +kernel) (by decide +kernel) (by decide) (by simp) (by simp)
    obtain ⟨kind, literal, hlongest, hdenotes, htoken, -⟩ := hlonger
      ⟨.number, ['1'], by decide, .whole '1' [] (List.forall_mem_singleton.mpr rfl)⟩
    obtain rfl : Kind.number = kind := congrArg Token.kind (Option.some.inj htoken)
    rw [htoken] at htokens
    exact ⟨literal, hlongest, hdenotes, htokens⟩
  · let piece : Piece := ⟨.fault (.unexpected '@'), ['@'], 1⟩
    obtain ⟨⟨htokens, herrors⟩, -, hnothing⟩ := tokens_are_longest "nil@"
      [⟨.token .nilWord (some .nil), "nil".toList, 1⟩] [] piece '@' []
      (by decide +kernel) (by decide +kernel) (by decide) (by simp) (by simp)
    obtain ⟨htoken, error, herror, hstage⟩ := hnothing fun kind text hfront hlexeme => by
      obtain ⟨first, more, rfl⟩ := hlexeme.exists_cons
      obtain ⟨rfl, -⟩ := List.cons_prefix_cons.mp hfront
      exact not_lexeme_of_unplaced rfl (by decide) rfl rfl kind more hlexeme
    rw [htoken] at htokens
    rw [herror] at herrors
    exact ⟨error, hstage, htokens, herrors⟩

end Scan

end Lumen
