import Mathlib
import Lumen.Proofs.FewestDigits

/-!
# Printed numbers read back

A finite number is printed as its sign, whole digits and, if it is not whole, a
point and a fraction, with no zero that could be left out.  The digits are those
of the shortest decimal that is rounded to the number, and log lines write the
same decimal, with an exponent for the very small and the very large.  Without
the sign the text is one token, and its value is the number without its sign.
-/

namespace Lumen

/-! ## Texts of one token -/

namespace Scan

theorem Writes.notMem {text : List Char} {number : ℚ} (hwrites : Writes text number) {c : Char}
    (hdigit : isDigit c = false) (hpoint : c ≠ '.') : c ∉ text := by
  intro hmem
  rcases hwrites.isDigit_or_point c hmem with hdigit' | hpoint'
  · rw [hdigit] at hdigit'
    cases hdigit'
  · exact hpoint hpoint'

theorem classify_of_isDigit {first : Char} (hdigit : isDigit first = true) (rest : List Char) :
    classify first rest = classifyNumber first rest := by
  have hsign : Kind.ofChar? first = none := by
    by_contra hsome
    rw [not_isDigit_of_ofChar? (Option.isSome_iff_ne_none.mpr hsome)] at hdigit
    cases hdigit
  have hpair : rest.head?.bind (Kind.ofPair? first) = none := by
    cases hkind : rest.head?.bind (Kind.ofPair? first) with
    | none => rfl
    | some kind =>
        obtain ⟨second, -, hkind⟩ := Option.bind_eq_some_iff.mp hkind
        have hsome := isSome_ofChar?_of_ofPair? hkind
        rw [hsign] at hsome
        cases hsome
  have hother : ∀ c, isDigit c = false → first ≠ c := by
    rintro c hnot rfl
    rw [hdigit] at hnot
    cases hnot
  have hspace : isSpace first = false := by
    simp [isSpace, hother ' ' rfl, hother '\r' rfl, hother '\t' rfl, hother '\n' rfl]
  simp [classify, hspace, hpair, hsign, hdigit, hother '/' rfl, hother '"' rfl]

/-- A text that is classified as one token to its end is scanned as this token. -/
theorem ofSource_of_classify {first : Char} {rest : List Char} {kind : Kind}
    {literal : Option Value} (hclassify : classify first rest = (.token kind literal, rest.length))
    (hline : '\n' ∉ first :: rest) :
    ofSource (String.ofList (first :: rest)) =
      ⟨[⟨kind, String.ofList (first :: rest), literal, 1⟩, Token.endAt 1], []⟩ := by
  have hpieces : pieces 1 (first :: rest) = [⟨.token kind literal, first :: rest, 1⟩] := by
    rw [pieces]
    simp only [hclassify, List.take_length, List.drop_length]
    rw [pieces]
  rw [ofSource, String.toList_ofList, hpieces, endLine, lineCount, List.count_eq_zero.mpr hline]
  rfl

end Scan

namespace Number

open Scan

/-! ## Digits without needless zeros -/

theorem digitText_ne_nil (number : Nat) : digitText number ≠ [] :=
  Nat.toDigits_ne_nil

theorem head?_digitText {number : Nat} (hnumber : number ≠ 0) :
    (digitText number).head? ≠ some '0' := by
  induction number using Nat.strongRecOn with
  | ind number ih =>
      rw [digitText, Nat.toDigits_eq_if (by decide)]
      split
      · simpa using hnumber
      · next hmore =>
          rw [List.head?_append_of_ne_nil _ Nat.toDigits_ne_nil]
          exact ih (number / 10) (by omega) (by omega)

theorem getLast?_digitText (number : Nat) :
    (digitText number).getLast? = some (number % 10).digitChar := by
  rw [digitText, Nat.toDigits_eq_if (by decide)]
  split
  · next hdigit => rw [Nat.mod_eq_of_lt hdigit, List.getLast?_singleton]
  · rw [List.getLast?_concat]

theorem length_digitText (number : Nat) : (digitText number).length = digitCount number := by
  apply Nat.le_antisymm
  · exact (Nat.length_toDigits_le_iff (by decide) (digitCount_pos number)).mpr
      (lt_pow_digitCount number)
  · have hpos : 0 < (digitText number).length := Nat.length_toDigits_pos
    rw [digitCount_le_iff number hpos]
    exact (Nat.length_toDigits_le_iff (by decide) hpos).mp (Nat.le_refl _)

/-- No digit of the decimal could be moved into the exponent. -/
def Decimal.Trimmed (decimal : Decimal) : Prop :=
  decimal.digits % 10 ≠ 0 ∨ decimal = ⟨0, 0⟩

theorem Decimal.trimmed_trim (decimal : Decimal) : decimal.trim.Trimmed := by
  fun_induction Decimal.trim decimal with
  | case1 decimal hzero => exact .inr rfl
  | case2 decimal hzero hten ih => exact ih
  | case3 decimal hzero hten => exact .inl hten

/-- Digits with a point in front of the fraction, if there is one. -/
def pointed (whole fraction : List Char) : List Char :=
  if fraction.isEmpty then whole else whole ++ '.' :: fraction

/-- A whole part and a fraction in which no zero can be left out. -/
structure Plain (whole fraction : List Char) : Prop where
  digits : ∀ c ∈ whole ++ fraction, isDigit c = true
  nonempty : whole ≠ []
  leading : whole.head? = some '0' → whole = ['0']
  trailing : fraction.getLast? ≠ some '0'

section Plain

variable {number : Nat} (hlast : number % 10 ≠ 0)
include hlast

theorem getLast?_digitText_ne : (digitText number).getLast? ≠ some '0' := by
  rw [getLast?_digitText]
  simpa using hlast

/-- The digits of a whole number, with zeros behind them. -/
theorem plain_whole (count : Nat) : Plain (digitText number ++ List.replicate count '0') [] where
  digits c hmem := by
    rw [List.append_nil] at hmem
    exact (List.mem_append.mp hmem).elim isDigit_digitText isDigit_replicate_zero
  nonempty := List.append_ne_nil_of_left_ne_nil (digitText_ne_nil number) _
  leading hzero := by
    rw [List.head?_append_of_ne_nil _ (digitText_ne_nil number)] at hzero
    exact absurd hzero (head?_digitText (by omega))
  trailing := by simp

/-- The digits of a number with a point among them. -/
theorem plain_split {cut : Nat} (hcut : 0 < cut) (hless : cut < (digitText number).length) :
    Plain ((digitText number).take cut) ((digitText number).drop cut) where
  digits c hmem := by
    rw [List.take_append_drop] at hmem
    exact isDigit_digitText hmem
  nonempty := by
    rw [ne_eq, List.take_eq_nil_iff, not_or]
    exact ⟨hcut.ne', digitText_ne_nil number⟩
  leading hzero := by
    rw [List.head?_take, if_neg hcut.ne'] at hzero
    exact absurd hzero (head?_digitText (by omega))
  trailing := by
    rw [List.getLast?_drop, if_neg (Nat.not_le.mpr hless)]
    exact getLast?_digitText_ne hlast

/-- The digits of a number behind the point, with zeros in front of them. -/
theorem plain_fraction (count : Nat) :
    Plain ['0'] (List.replicate count '0' ++ digitText number) where
  digits c hmem := by
    simp only [List.singleton_append, List.mem_cons, List.mem_append] at hmem
    rcases hmem with rfl | hmem | hmem
    · rfl
    · exact isDigit_replicate_zero hmem
    · exact isDigit_digitText hmem
  nonempty := by simp
  leading _ := rfl
  trailing := by
    rw [List.getLast?_append_of_ne_nil _ (digitText_ne_nil number)]
    exact getLast?_digitText_ne hlast

end Plain

theorem pointed_of_ne_nil (whole : List Char) {fraction : List Char} (hsome : fraction ≠ []) :
    pointed whole fraction = whole ++ '.' :: fraction := by
  rw [pointed, if_neg (by rwa [List.isEmpty_iff])]

/-- A trimmed decimal is written without a zero that could be left out. -/
theorem exists_plain {decimal : Decimal} (htrimmed : decimal.Trimmed) :
    ∃ whole fraction, positionalText decimal = pointed whole fraction ∧ Plain whole fraction := by
  rcases htrimmed with hlast | rfl
  · rw [positionalText]
    split
    · exact ⟨_, [], rfl, plain_whole hlast _⟩
    · split
      · next hplaces hfewer =>
          refine ⟨_, _, ?_, plain_split hlast (Nat.sub_pos_of_lt hfewer) (by omega)⟩
          rw [pointed_of_ne_nil]
          simp only [ne_eq, List.drop_eq_nil_iff]
          omega
      · next hplaces hmore =>
          refine ⟨_, _, ?_, plain_fraction hlast
            ((-decimal.exponent).toNat - (digitText decimal.digits).length)⟩
          rw [pointed_of_ne_nil _ (List.append_ne_nil_of_right_ne_nil _ (digitText_ne_nil _))]
          rfl
  · exact ⟨['0'], [], rfl, by simp [isDigit], by simp, fun _ => rfl, by simp⟩

/-! ## The decimal of a number -/

def writtenDecimal (word : Nat) : Decimal :=
  if word = 0 then ⟨0, 0⟩ else shortest word

theorem trimmed_writtenDecimal (word : Nat) : (writtenDecimal word).Trimmed := by
  rw [writtenDecimal]
  split
  · exact .inr rfl
  · exact Decimal.trimmed_trim _

/-- Every finite word is written with a shortest decimal. -/
theorem isShortest_writtenDecimal {word : Nat} (hword : word < infinityWord) :
    IsShortest word (writtenDecimal word) := by
  rw [writtenDecimal]
  split
  · next hzero => exact hzero ▸ isShortest_zero
  · next hzero => exact isShortest_shortest (Nat.pos_of_ne_zero hzero) hword

theorem finiteText_printed (word : Nat) :
    finiteText printed word = positionalText (writtenDecimal word) := by
  simp [finiteText, printed, writtenDecimal]

def signText (value : Float) : List Char :=
  if isNegative value then ['-'] else []

/-- A finite number is its sign and the text of its magnitude. -/
theorem toList_write (style : Style) {value : Float} (hfinite : value.isFinite = true) :
    (write style value).toList = signText value ++ finiteText style (magnitudeWord value) := by
  have hword : magnitudeWord value < infinityWord := isFinite_iff.mp hfinite
  rw [write]
  simp only [if_neg hword.not_gt, if_neg hword.ne, String.toList_ofList]
  rfl

/-! ## Texts with an exponent -/

/-- The number that a text stands for, which may have a sign and an exponent. -/
inductive Stands : List Char → ℚ → Prop
  | places {text : List Char} {number : ℚ} (hwrites : Writes text number) : Stands text number
  | scaled {mantissa power : List Char} {number : ℚ} (negative : Bool)
      (hwrites : Writes mantissa number) (hpower : ∀ c ∈ power, isDigit c = true) :
      Stands (mantissa ++ 'e' :: (if negative then '-' else '+') :: power)
        (number * 10 ^ ((if negative then -1 else 1) * (digitsNumber power : Int)))
  | negated {text : List Char} {number : ℚ} (hstands : Stands text number) :
      Stands ('-' :: text) (-number)

/-- The exponent begins at the only `e` of a text. -/
theorem scaled_inj {mantissa mantissa' power power' : List Char} {number number' : ℚ}
    {negative negative' : Bool} (hwrites : Writes mantissa number)
    (hpower : ∀ c ∈ power, isDigit c = true) (hwrites' : Writes mantissa' number')
    (hsame : mantissa ++ 'e' :: (if negative then '-' else '+') :: power =
      mantissa' ++ 'e' :: (if negative' then '-' else '+') :: power') :
    number = number' ∧ negative = negative' ∧ power = power' := by
  have hsign : ∀ negative negative' : Bool, (if negative then '-' else '+') =
      (if negative' then '-' else '+') → negative = negative' := by decide
  have hletter : ∀ negative : Bool, 'e' ≠ if negative then '-' else '+' := by decide
  have hnone : 'e' ∉ (if negative then '-' else '+') :: power := by
    intro hmem
    rcases List.mem_cons.mp hmem with hequal | hmem
    · exact hletter negative hequal
    · cases hpower 'e' hmem
  obtain ⟨rfl, -, hbehind⟩ :=
    (List.append_cons_inj_of_notMem (hwrites.notMem rfl (by decide)) hnone).mp hsame
  obtain ⟨hequal, hdigits⟩ := List.cons.inj hbehind
  exact ⟨hwrites.unique hwrites', hsign _ _ hequal, hdigits⟩

/-- A text with sign and exponent still stands for one number only. -/
theorem Stands.unique {text : List Char} {first second : ℚ} (hfirst : Stands text first)
    (hsecond : Stands text second) : first = second := by
  have hplaces : ∀ {mantissa behind : List Char} {number : ℚ},
      ¬ Writes (mantissa ++ 'e' :: behind) number := fun hwrites =>
    hwrites.notMem (c := 'e') rfl (by decide) (by simp)
  have hminus : ∀ {text : List Char} {number : ℚ}, ¬ Writes ('-' :: text) number := fun hwrites =>
    hwrites.notMem (c := '-') rfl (by decide) (by simp)
  have hfront : ∀ {mantissa behind text : List Char} {number : ℚ}, Writes mantissa number →
      mantissa ++ 'e' :: behind ≠ '-' :: text := by
    intro mantissa behind text number hwrites hsame
    cases mantissa with
    | nil => cases hsame
    | cons first more =>
        obtain ⟨rfl, -⟩ := List.cons.inj hsame
        exact hminus hwrites
  induction hfirst generalizing second with
  | places hwrites =>
      cases hsecond with
      | places hwrites' => exact hwrites.unique hwrites'
      | scaled => exact absurd hwrites hplaces
      | negated => exact absurd hwrites hminus
  | scaled negative hwrites hpower =>
      generalize htext : (_ ++ _ : List Char) = text at hsecond
      cases hsecond with
      | places hwrites' => exact absurd (htext ▸ hwrites') hplaces
      | scaled negative' hwrites' hpower' =>
          obtain ⟨rfl, rfl, rfl⟩ := scaled_inj hwrites hpower hwrites' htext
          rfl
      | negated => exact absurd htext (hfront hwrites)
  | negated hstands ih =>
      generalize htext : '-' :: _ = text at hsecond
      cases hsecond with
      | places hwrites' => exact absurd (htext ▸ hwrites') hminus
      | scaled negative' hwrites' hpower' => exact absurd htext.symm (hfront hwrites')
      | negated hstands' => rw [ih ((List.cons.inj htext).2 ▸ hstands')]

/-- The first digit in front of the point and the others behind it divide the
number by a power of ten. -/
theorem exists_mantissa_text (decimal : Decimal) (leading : Int) :
    ∃ mantissa, scientificText decimal leading =
        mantissa ++ 'e' :: (if leading < 0 then '-' else '+') ::
          (List.replicate (2 - (digitText leading.natAbs).length) '0' ++
            digitText leading.natAbs) ∧
      Writes mantissa (decimal.digits / 10 ^ (digitCount decimal.digits - 1)) := by
  have hdigits : ∀ c ∈ digitText decimal.digits, isDigit c = true := fun c => isDigit_digitText
  have hlength := length_digitText decimal.digits
  have hvalue := digitsValue_digitText decimal.digits
  rw [scientificText, ← hlength]
  refine ⟨_, rfl, ?_⟩
  split
  · next hnone => exact absurd hnone (digitText_ne_nil _)
  · next digit hone =>
      rw [hone] at hdigits hvalue ⊢
      rw [← hvalue, digitsValue_eq, List.length_singleton, Nat.sub_self, pow_zero, div_one]
      exact .whole _ hdigits
  · next digit more hmore hfirst =>
      rw [hfirst] at hdigits hvalue ⊢
      obtain ⟨hdigit, hfraction⟩ := List.forall_mem_cons.mp hdigits
      have hnumber := value_numberValue [digit] more
      rw [List.singleton_append, hvalue, Decimal.value, zpow_neg, zpow_natCast,
        ← div_eq_mul_inv] at hnumber
      rw [List.length_cons, Nat.add_sub_cancel, hnumber]
      exact .fraction [digit] more (List.forall_mem_singleton.mpr hdigit) hfraction

/-- The text with an exponent stands for the decimal. -/
theorem stands_scientificText (decimal : Decimal) :
    Stands (scientificText decimal ((digitCount decimal.digits : Int) - 1 + decimal.exponent))
      decimal.value := by
  generalize hleading : (digitCount decimal.digits : Int) - 1 + decimal.exponent = leading
  obtain ⟨mantissa, htext, hwrites⟩ := exists_mantissa_text decimal leading
  rw [htext]
  generalize hpower : List.replicate (2 - (digitText leading.natAbs).length) '0' ++
    digitText leading.natAbs = power
  have hnumber : digitsNumber power = leading.natAbs := by
    rw [← hpower, ← digitsValue_eq, digitsValue_append, digitsValue_replicate_zero,
      digitsValue_digitText, Nat.zero_mul, Nat.zero_add]
  have hdigits : ∀ c ∈ power, isDigit c = true := by
    intro c hmem
    rw [← hpower] at hmem
    exact (List.mem_append.mp hmem).elim isDigit_replicate_zero isDigit_digitText
  obtain ⟨more, hmore⟩ := Nat.exists_eq_add_of_lt (digitCount_pos decimal.digits)
  have hexponent : decimal.exponent = leading - more := by omega
  have hvalue : decimal.value =
      decimal.digits / 10 ^ (digitCount decimal.digits - 1) * 10 ^ leading := by
    rw [Decimal.value, hexponent, zpow_sub₀ (by norm_num), zpow_natCast, hmore, Nat.zero_add,
      Nat.add_sub_cancel]
    ring
  have hleading' : leading =
      (if decide (leading < 0) then -1 else 1) * (digitsNumber power : Int) := by
    rw [hnumber]
    simp only [decide_eq_true_iff]
    split <;> omega
  have hscaled := Stands.scaled (decide (leading < 0)) hwrites hdigits
  rw [← hleading'] at hscaled
  rw [hvalue]
  simpa only [decide_eq_true_iff] using hscaled

/-- A fraction of one zero behind a whole number adds nothing. -/
theorem writes_whole_zero {decimal : Decimal} (hwhole : 0 ≤ decimal.exponent) :
    Writes (positionalText decimal ++ ['.', '0']) decimal.value := by
  have hplaces : (-decimal.exponent).toNat = 0 := by omega
  have htext : positionalText decimal =
      digitText decimal.digits ++ List.replicate decimal.exponent.toNat '0' := by
    rw [positionalText, if_pos hplaces]
  have hdigits : ∀ c ∈ positionalText decimal, isDigit c = true := by
    intro c hmem
    rw [htext] at hmem
    exact (List.mem_append.mp hmem).elim isDigit_digitText isDigit_replicate_zero
  have hvalue := (writes_positionalText decimal).unique (.whole _ hdigits)
  have hzero : (digitsNumber (positionalText decimal) : ℚ) =
      digitsNumber (positionalText decimal) + digitsNumber ['0'] / 10 ^ ['0'].length := by
    simp [digitsNumber]
  rw [hvalue, hzero]
  exact .fraction _ ['0'] hdigits (List.forall_mem_singleton.mpr rfl)

/-- Log lines show the value of the decimal that a word is written with. -/
theorem stands_finiteText_logged (word : Nat) :
    Stands (finiteText logged word) (writtenDecimal word).value := by
  rw [finiteText, ← writtenDecimal]
  split
  · split
    · next hwhole => exact .places (writes_whole_zero hwhole)
    · exact .places (writes_positionalText _)
  · exact stands_scientificText _

/-- A sign in front of a text negates what it stands for. -/
theorem Stands.signed {text : List Char} {number : ℚ} (hstands : Stands text number)
    (value : Float) :
    Stands (signText value ++ text) ((if isNegative value then -1 else 1) * number) := by
  rw [signText]
  split
  · rw [neg_one_mul]
    exact .negated hstands
  · rwa [one_mul]

/-! ## The token of a number -/

section Token

variable {whole fraction : List Char}

theorem writes_pointed (hplain : Plain whole fraction) :
    Writes (pointed whole fraction)
      (⟨digitsValue (whole ++ fraction), -(fraction.length : Int)⟩ : Decimal).value := by
  obtain ⟨hwhole, hfraction⟩ := List.forall_mem_append.mp hplain.digits
  rw [value_numberValue, pointed]
  split
  · next hnone =>
      rw [List.isEmpty_iff.mp hnone]
      simpa [digitsNumber] using Writes.whole whole hwhole
  · exact .fraction whole fraction hwhole hfraction

theorem numberValue_eq_of_writes (hplain : Plain whole fraction) {decimal : Decimal}
    (hwrites : Writes (pointed whole fraction) decimal.value) :
    numberValue whole fraction = .number decimal.toFloat := by
  have hvalue := (writes_pointed hplain).unique hwrites
  rw [numberValue, Decimal.toFloat, Decimal.toFloat, Decimal.word_eq_of_value hvalue]

/-- The characters behind the first digit all belong to the number. -/
theorem classify_pointed {first : Char} {more : List Char}
    (hplain : Plain (first :: more) fraction) :
    ∃ rest, pointed (first :: more) fraction = first :: rest ∧
      classify first rest =
        (.token .number (some (numberValue (first :: more) fraction)), rest.length) := by
  obtain ⟨hwhole, hfraction⟩ := List.forall_mem_append.mp hplain.digits
  obtain ⟨hfirst, hmore⟩ := List.forall_mem_cons.mp hwhole
  cases fraction with
  | nil =>
      refine ⟨more, rfl, ?_⟩
      have htake : (more ++ []).takeWhile isDigit = more := by
        rw [List.append_nil, List.takeWhile_eq_self_iff]
        exact hmore
      have hclassify : classifyNumber first (more ++ []) = _ :=
        classifyNumber_whole htake (by simp)
      rw [classify_of_isDigit hfirst]
      rwa [List.append_nil] at hclassify
  | cons tenth finer =>
      obtain ⟨htenth, hfiner⟩ := List.forall_mem_cons.mp hfraction
      refine ⟨more ++ '.' :: tenth :: finer, rfl, ?_⟩
      have htake : (more ++ '.' :: tenth :: (finer ++ [])).takeWhile isDigit = more := by
        rw [List.takeWhile_append_of_pos hmore, List.takeWhile_cons_of_neg (by decide),
          List.append_nil]
      have htakeFiner : (finer ++ []).takeWhile isDigit = finer := by
        rw [List.append_nil, List.takeWhile_eq_self_iff]
        exact hfiner
      have hclassify : classifyNumber first (more ++ '.' :: tenth :: (finer ++ [])) = _ :=
        classifyNumber_fraction htake htenth htakeFiner
      rw [classify_of_isDigit hfirst]
      rwa [List.append_nil] at hclassify

/-- Plain digits are one token, and no mistake. -/
theorem ofSource_pointed (hplain : Plain whole fraction) :
    Scan.ofSource (String.ofList (pointed whole fraction)) =
      ⟨[⟨.number, String.ofList (pointed whole fraction), some (numberValue whole fraction), 1⟩,
        Token.endAt 1], []⟩ := by
  have hline : '\n' ∉ pointed whole fraction :=
    (writes_pointed hplain).notMem rfl (by decide)
  obtain ⟨first, more, rfl⟩ := List.exists_cons_of_ne_nil hplain.nonempty
  obtain ⟨rest, htext, hclassify⟩ := classify_pointed hplain
  rw [htext] at hline ⊢
  exact ofSource_of_classify hclassify hline

end Token

/-! ## Numbers without their sign -/

section Sign

open Float.Model UnpackedFloat

theorem abs_unpack {bits plain : BitVec Format.binary64.numBits}
    (hplain : plain.toNat = magnitude bits) (hfinite : magnitude bits < infinityWord) :
    (UnpackedFloat.unpack Format.binary64 bits).abs =
      UnpackedFloat.unpack Format.binary64 plain := by
  have hless : magnitude bits < 2 ^ 63 := Nat.mod_lt _ (by decide)
  have hmagnitude : magnitude plain = magnitude bits := by
    rw [magnitude, hplain, Nat.mod_eq_of_lt hless]
  have hsign : Sign.ofBitVec (unpackSign plain) = .positive := by
    rw [sign_eq, hplain, if_neg (Nat.not_le.mpr hless)]
  rcases Nat.eq_zero_or_pos (magnitude bits) with hzero | hpos
  · rw [unpack_zero bits hzero, unpack_zero plain (hmagnitude.trans hzero), hsign]
    rfl
  · obtain ⟨shift, mantissa, hmantissa, hunpack, hsplit, hhigh, hlow⟩ :=
      unpack_finite bits hpos hfinite
    obtain ⟨shift', mantissa', hmantissa', hunpack', hsplit', hhigh', hlow'⟩ :=
      unpack_finite plain (hmagnitude ▸ hpos) (hmagnitude ▸ hfinite)
    obtain ⟨rfl, rfl⟩ : shift' = shift ∧ mantissa' = mantissa := by omega
    rw [hunpack, hunpack', hsign]
    rfl

/-- The double without its sign is that of its magnitude. -/
theorem abs_eq_ofWord {value : Float} (hfinite : value.isFinite = true) :
    value.abs = Float.ofBits (magnitudeWord value).toUInt64 := by
  have hword : magnitudeWord value < infinityWord := isFinite_iff.mp hfinite
  generalize hplain : Float.ofBits (magnitudeWord value).toUInt64 = plain
  have hbits : plain.toBits.toNat = magnitudeWord value := hplain ▸ toBits_ofWord hword.le
  have hmagnitude : magnitudeWord plain ≤ infinityWord := by
    rw [← hplain, magnitudeWord_ofWord hword.le]
    exact hword.le
  have habs : (value.toModel.unpack).abs = plain.toModel.unpack := abs_unpack hbits hword
  have hpack := pack_unpack_of_le plain.toBits.toBitVec hmagnitude
  apply Float.toBits_inj.mp
  apply UInt64.eq_of_toBitVec_eq
  rw [← hpack]
  change UnpackedFloat.pack Format.binary64 (value.toModel.unpack).abs = _
  rw [habs]
  rfl

end Sign

theorem toBits_eq_add (value : Float) :
    value.toBits.toNat = (if isNegative value then signWord else 0) + magnitudeWord value := by
  have hbits : value.toBits.toNat < 2 ^ 64 := value.toBits.toNat_lt
  have hsign : signWord = 2 ^ 63 := rfl
  rw [isNegative, magnitudeWord, if_congr decide_eq_true_iff rfl rfl, hsign]
  split <;> omega

/-- Sign and magnitude determine a double. -/
theorem eq_of_isNegative_of_magnitudeWord {first second : Float}
    (hsign : isNegative first = isNegative second)
    (hword : magnitudeWord first = magnitudeWord second) : first = second := by
  apply Float.toBits_inj.mp
  rw [← UInt64.toNat_inj, toBits_eq_add, toBits_eq_add, hsign, hword]

/-- A finite number is printed as its sign and its decimal in places. -/
theorem toList_display {value : Float} (hfinite : value.isFinite = true) :
    (display value).toList =
      signText value ++ positionalText (writtenDecimal (magnitudeWord value)) := by
  rw [display, toList_write printed hfinite, finiteText_printed]

theorem mem_signText_append_iff (value : Float) (decimal : Decimal) :
    '-' ∈ signText value ++ positionalText decimal ↔ isNegative value = true := by
  have hnone : '-' ∉ positionalText decimal :=
    (writes_positionalText decimal).notMem rfl (by decide)
  rw [List.mem_append, or_iff_left hnone, signText]
  split
  · next hsign => exact iff_of_true List.mem_cons_self hsign
  · next hsign => exact iff_of_false List.not_mem_nil hsign

/-- The sign is in front, and the digits are those of a decimal that is rounded to
the word. -/
theorem eq_of_display_eq {first second : Float} (hfirst : first.isFinite = true)
    (hsecond : second.isFinite = true) (hdisplay : display first = display second) :
    first = second := by
  have htext := congrArg String.toList hdisplay
  rw [toList_display hfirst, toList_display hsecond] at htext
  have hsign : isNegative first = isNegative second := by
    rw [Bool.eq_iff_iff, ← mem_signText_append_iff first, htext, mem_signText_append_iff]
  have hsame : signText first = signText second := by rw [signText, signText, hsign]
  rw [hsame] at htext
  have hvalue := (writes_positionalText (writtenDecimal (magnitudeWord first))).unique
    (List.append_cancel_left htext ▸ writes_positionalText (writtenDecimal (magnitudeWord second)))
  refine eq_of_isNegative_of_magnitudeWord hsign ?_
  rw [← (isShortest_writtenDecimal (isFinite_iff.mp hfirst)).rounds,
    ← (isShortest_writtenDecimal (isFinite_iff.mp hsecond)).rounds]
  exact Decimal.word_eq_of_value hvalue

/-- A finite number is printed as digits without needless zeros, with a sign in
front if its sign bit is set.  The text stands for the shortest decimal that is
rounded to the number, which is what it is written as in log lines.  Without the
sign it is scanned as one token, whose value is the number without its sign bit.
No other finite number has the same text. -/
theorem printed_numbers_read_back (value : Float) (hfinite : value.isFinite = true) :
    ∃ whole fraction decimal,
      (display value).toList = signText value ++ pointed whole fraction ∧
      Plain whole fraction ∧ IsShortest (magnitudeWord value) decimal ∧
      Stands (display value).toList ((if isNegative value then -1 else 1) * decimal.value) ∧
      (∀ number, Stands (display value).toList number ↔
        Stands (write logged value).toList number) ∧
      Scan.ofSource (String.ofList (pointed whole fraction)) =
        ⟨[⟨.number, String.ofList (pointed whole fraction), some (.number value.abs), 1⟩,
          ⟨.eof, "", none, 1⟩], []⟩ ∧
      ∀ other : Float, other.isFinite = true → display other = display value → other = value := by
  have hshortest := isShortest_writtenDecimal (isFinite_iff.mp hfinite)
  have hdisplay := toList_display hfinite
  have hwrites := writes_positionalText (writtenDecimal (magnitudeWord value))
  obtain ⟨whole, fraction, htext, hplain⟩ :=
    exists_plain (trimmed_writtenDecimal (magnitudeWord value))
  have hvalue : numberValue whole fraction = .number value.abs := by
    rw [numberValue_eq_of_writes hplain (htext ▸ hwrites), Decimal.toFloat, hshortest.rounds,
      abs_eq_ofWord hfinite]
  have hstands := (Stands.places hwrites).signed value
  have hlogged := (stands_finiteText_logged (magnitudeWord value)).signed value
  rw [← hdisplay] at hstands
  rw [← toList_write logged hfinite] at hlogged
  refine ⟨whole, fraction, writtenDecimal (magnitudeWord value), htext ▸ hdisplay, hplain,
    hshortest, hstands, ?_, ?_, ?_⟩
  · intro number
    constructor
    · intro hother
      exact hstands.unique hother ▸ hlogged
    · intro hother
      exact hlogged.unique hother ▸ hstands
  · rw [ofSource_pointed hplain, hvalue]
    rfl
  · intro other hother hsame
    exact eq_of_display_eq hother hfinite hsame

/-- A small negative number, which log lines write with an exponent. -/
theorem printed_numbers_read_back_exponent :
    let value := Float.ofBits 0xBE7AD7F29ABCAF48
    let size := "0.0000001"
    value.isFinite = true ∧ display value = "-0.0000001" ∧ write logged value = "-1e-07" ∧
      (∃ decimal, IsShortest (magnitudeWord value) decimal ∧
        Stands "-1e-07".toList (-1 * decimal.value)) ∧
      Scan.ofSource size =
        ⟨[⟨.number, size, some (.number value.abs), 1⟩, ⟨.eof, "", none, 1⟩], []⟩ ∧
      ∀ other : Float, other.isFinite = true → display other = "-0.0000001" → other = value := by
  intro value size
  obtain ⟨hfinite, hnegative, hdisplay, hlogged⟩ : value.isFinite = true ∧
      isNegative value = true ∧ display value = "-0.0000001" ∧
      write logged value = "-1e-07" := by decide +kernel
  obtain ⟨whole, fraction, decimal, htext, -, hshortest, hstands, hsame, hscan, hinjective⟩ :=
    printed_numbers_read_back value hfinite
  rw [hdisplay, signText, if_pos hnegative] at htext
  have hsize : String.ofList (pointed whole fraction) = size :=
    (congrArg (fun text => String.ofList text.tail) htext).symm.trans (by decide +kernel)
  rw [hsize] at hscan
  rw [if_pos hnegative, hsame, hlogged] at hstands
  rw [hdisplay] at hinjective
  exact ⟨hfinite, hdisplay, hlogged, ⟨decimal, hshortest, hstands⟩, hscan, hinjective⟩

end Number

end Lumen
