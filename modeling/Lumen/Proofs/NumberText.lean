import Mathlib
import Lumen.Number.Written
import Lumen.Proofs.Munch

/-!
# The text of a number determines it

No two words are the nearest to one number, so a decimal is rounded by its value
alone.  The decimal that a finite double is written with has one of the grid
points that were tested, or the exact value, so it is rounded to this double
again.  Written out in places it stands for its own value.  Hence two finite
doubles of one sign with the same text are the same.
-/

namespace Lumen

namespace Number

/-! ## Only one word is nearest -/

/-- A smaller word cannot be as near, since both would be even and a word between
them would be nearer. -/
theorem Closest.le {units : ℚ} {first second : Nat} (hfirst : Closest units first)
    (hsecond : Closest units second) : second ≤ first := by
  by_contra hless
  rw [not_le] at hless
  have htie : |units - wordUnits first| = |units - wordUnits second| :=
    le_antisymm (hfirst.nearest second) (hsecond.nearest first)
  have heven := hfirst.even second hless.ne' htie
  have heven' := hsecond.even first hless.ne htie.symm
  have hlow : (wordUnits first : ℚ) < wordUnits (first + 1) := by
    exact_mod_cast wordUnits_strictMono (Nat.lt_succ_self first)
  have hhigh : (wordUnits (first + 1) : ℚ) < wordUnits second := by
    exact_mod_cast wordUnits_strictMono (by omega : first + 1 < second)
  rcases abs_eq_abs.mp htie with hsame | hmiddle
  · linarith
  · have hdistance : |units - wordUnits first| = units - wordUnits first :=
      abs_of_pos (by linarith)
    have hnearer : |units - wordUnits (first + 1)| < units - wordUnits first :=
      abs_lt.mpr ⟨by linarith, by linarith⟩
    have hnearest := hfirst.nearest (first + 1)
    linarith

/-- Only one word is closest. -/
theorem Closest.unique {units : ℚ} {first second : Nat} (hfirst : Closest units first)
    (hsecond : Closest units second) : first = second :=
  Nat.le_antisymm (hsecond.le hfirst) (hfirst.le hsecond)

theorem closest_wordUnits (word : Nat) : Closest (wordUnits word) word where
  nearest other := by
    rw [sub_self, abs_zero]
    exact abs_nonneg _
  even other hother hequal := by
    rw [sub_self, abs_zero, eq_comm, abs_eq_zero, sub_eq_zero, Nat.cast_inj] at hequal
    exact absurd (wordUnits_strictMono.injective hequal).symm hother

/-- Rounding sees nothing of a decimal but its value. -/
theorem Decimal.word_eq_of_value {first second : Decimal} (hvalue : first.value = second.value) :
    first.word = second.word := by
  have hfirst := first.closest_roundedWord
  rw [hvalue] at hfirst
  rw [Decimal.word, Decimal.word, nearestWord_eq_min, nearestWord_eq_min,
    hfirst.unique second.closest_roundedWord]

/-- The exact value of a word is rounded to the word. -/
theorem Decimal.word_of_value {decimal : Decimal} {word : Nat} (hword : word ≤ infinityWord)
    (hvalue : decimal.value = wordValue word) : decimal.word = word := by
  have hclosest := decimal.closest_roundedWord
  rw [hvalue, wordValue, div_mul_cancel₀ _ units_pos.ne'] at hclosest
  rw [Decimal.word, nearestWord_eq_min, hclosest.unique (closest_wordUnits word),
    Nat.min_eq_left hword]

/-! ## The shortest decimal is rounded to its word -/

theorem Decimal.value_trim (decimal : Decimal) : decimal.trim.value = decimal.value := by
  fun_induction Decimal.trim decimal with
  | case1 decimal hzero => rw [value, value, hzero, Nat.cast_zero, zero_mul, zero_mul]
  | case2 decimal hzero hten ih =>
      have hdigits : decimal.digits = decimal.digits / 10 * 10 := by omega
      rw [ih, value, value, zpow_add_one₀ (by norm_num), ← mul_assoc, mul_right_comm]
      nth_rewrite 2 [hdigits]
      push_cast
      rfl
  | case3 decimal hzero hten => rfl

/-- A fraction of a power of two has as many places as its exponent. -/
theorem value_places (units exponent : Nat) :
    (⟨units * Nat.pow 5 exponent, -(exponent : Int)⟩ : Decimal).value = units / 2 ^ exponent := by
  have hten : (10 : ℚ) ^ exponent = 5 ^ exponent * 2 ^ exponent := by
    rw [← mul_pow]
    norm_num
  rw [Decimal.value, Nat.pow_eq, zpow_neg, zpow_natCast, hten]
  push_cast
  field_simp

/-- The exact decimal has the value of the word. -/
theorem value_exactDecimal (word : Nat) : (exactDecimal word).value = wordValue word := by
  have hexact : exactDecimal word = ⟨wordUnits word * Nat.pow 5 1074, -((1074 : Nat) : Int)⟩ :=
    rfl
  rw [hexact, value_places (wordUnits word) 1074, wordValue, unitsPerOne_eq, unitExponent,
    Nat.cast_pow, Nat.cast_ofNat]

/-- The shortest decimal is rounded to the word it was found for. -/
theorem word_shortest {word : Nat} (hword : word < infinityWord) :
    (shortest word).word = word := by
  rw [shortest, Decimal.word_eq_of_value (Decimal.value_trim _)]
  cases hfound : (List.range maxSignificant).findSome? fun (extra : Nat) =>
      onGrid? word (leadingExponent word - extra) with
  | none => exact Decimal.word_of_value hword.le (value_exactDecimal word)
  | some decimal =>
      obtain ⟨extra, -, hgrid⟩ := List.exists_of_findSome?_eq_some hfound
      rw [onGrid?] at hgrid
      have hfits := List.find?_some hgrid
      exact beq_iff_eq.mp hfits

/-- The text of a finite number is a decimal that is rounded to it. -/
theorem exists_decimal {word : Nat} (hword : word < infinityWord) :
    ∃ decimal : Decimal, finiteText printed word = positionalText decimal ∧
      decimal.word = word := by
  have htext : finiteText printed word =
      positionalText (if word = 0 then ⟨0, 0⟩ else shortest word) := by
    simp [finiteText, printed]
  refine ⟨_, htext, ?_⟩
  split
  · next hzero =>
      refine Decimal.word_of_value hword.le ?_
      rw [hzero, wordValue_zero, Decimal.value, Nat.cast_zero, zero_mul]
  · exact word_shortest hword

/-! ## Decimals written out in places -/

section Places

open Scan

theorem isDigit_digitText {number : Nat} {c : Char} (hmem : c ∈ digitText number) :
    isDigit c = true :=
  Nat.isDigit_of_mem_toDigits (by decide) (by decide) hmem

theorem digitsValue_digitText (number : Nat) : digitsValue (digitText number) = number :=
  Nat.ofDigitChars_toDigits (by decide) (by decide)

theorem digitsValue_replicate_zero (count : Nat) : digitsValue (List.replicate count '0') = 0 := by
  induction count with
  | zero => rfl
  | succ count ih => rw [List.replicate_succ', digitsValue_concat, ih]; rfl

theorem isDigit_replicate_zero {count : Nat} {c : Char} (hmem : c ∈ List.replicate count '0') :
    isDigit c = true := by
  rw [List.eq_of_mem_replicate hmem]
  rfl

/-- A decimal written out in places stands for its value. -/
theorem writes_positionalText (decimal : Decimal) :
    Writes (positionalText decimal) decimal.value := by
  obtain ⟨number, exponent⟩ := decimal
  have hdigits : ∀ c ∈ digitText number, isDigit c = true := fun c => isDigit_digitText
  by_cases hwhole : (-exponent).toNat = 0
  · obtain ⟨count, rfl⟩ := Int.eq_ofNat_of_zero_le (by omega : 0 ≤ exponent)
    have htext : positionalText ⟨number, count⟩ =
        digitText number ++ List.replicate count '0' := by
      rw [positionalText, if_pos hwhole, Int.toNat_natCast]
    have hvalue : (⟨number, count⟩ : Decimal).value =
        digitsNumber (digitText number ++ List.replicate count '0') := by
      rw [← digitsValue_eq, digitsValue_append, digitsValue_digitText, digitsValue_replicate_zero,
        List.length_replicate, Decimal.value, zpow_natCast]
      push_cast
      rw [add_zero]
    rw [htext, hvalue]
    refine .whole _ fun c hmem => ?_
    exact (List.mem_append.mp hmem).elim (hdigits c) isDigit_replicate_zero
  · obtain ⟨places, rfl⟩ : ∃ places : Nat, exponent = -places :=
      ⟨(-exponent).toNat, by omega⟩
    -- In both forms the digits of the fraction are as many as the places.
    have hfraction : ∀ whole finer : List Char, digitsValue (whole ++ finer) = number →
        finer.length = places → (∀ c ∈ whole, isDigit c = true) →
        (∀ c ∈ finer, isDigit c = true) →
        Writes (whole ++ '.' :: finer) (⟨number, -places⟩ : Decimal).value := by
      intro whole finer hnumber hlength hwhole hfiner
      have hvalue := value_numberValue whole finer
      rw [hnumber, hlength] at hvalue
      rw [hvalue, ← hlength]
      exact .fraction whole finer hwhole hfiner
    rw [positionalText, if_neg hwhole]
    simp only [neg_neg, Int.toNat_natCast]
    split
    · next hfewer =>
        refine hfraction _ _ ?_ ?_ (fun c hmem => hdigits c (List.mem_of_mem_take hmem))
          fun c hmem => hdigits c (List.mem_of_mem_drop hmem)
        · rw [List.take_append_drop, digitsValue_digitText]
        · rw [List.length_drop]
          omega
    · next hmore =>
        refine hfraction ['0'] (List.replicate (places - (digitText number).length) '0' ++
          digitText number) ?_ ?_ (List.forall_mem_singleton.mpr rfl) fun c hmem => ?_
        · rw [digitsValue_append, digitsValue_append, digitsValue_replicate_zero,
            digitsValue_digitText]
          simp [digitsValue]
        · rw [List.length_append, List.length_replicate]
          omega
        · exact (List.mem_append.mp hmem).elim isDigit_replicate_zero (hdigits c)

end Places

end Number

namespace Scan

theorem append_point_inj {whole whole' finer finer' : List Char}
    (hwhole : ∀ c ∈ whole, isDigit c = true) (hwhole' : ∀ c ∈ whole', isDigit c = true)
    (hsame : whole ++ '.' :: finer = whole' ++ '.' :: finer') :
    whole = whole' ∧ finer = finer' := by
  have htake : ∀ {digits more : List Char}, (∀ c ∈ digits, isDigit c = true) →
      (digits ++ '.' :: more).takeWhile isDigit = digits := by
    intro digits more hdigits
    rw [List.takeWhile_append_of_pos hdigits, List.takeWhile_cons_of_neg (by decide),
      List.append_nil]
  have hfirst : whole = whole' := by
    rw [← htake hwhole, hsame, htake hwhole']
  subst hfirst
  exact ⟨rfl, (List.cons.inj (List.append_cancel_left hsame)).2⟩

/-- A text stands for one number only. -/
theorem Writes.unique {text : List Char} {first second : ℚ} (hfirst : Writes text first)
    (hsecond : Writes text second) : first = second := by
  have hpoint : ∀ {digits whole finer : List Char}, (∀ c ∈ digits, isDigit c = true) →
      digits ≠ whole ++ '.' :: finer := by
    rintro digits whole finer hdigits rfl
    have hdigit := hdigits '.' (List.mem_append_right _ List.mem_cons_self)
    cases hdigit
  cases hfirst with
  | whole _ hdigits =>
      cases hsecond with
      | whole => rfl
      | fraction => exact absurd rfl (hpoint hdigits)
  | fraction whole finer hwhole hfiner =>
      generalize htext : whole ++ '.' :: finer = text at hsecond
      cases hsecond with
      | whole digits hdigits => exact absurd htext.symm (hpoint hdigits)
      | fraction whole' finer' hwhole' hfiner' =>
          obtain ⟨rfl, rfl⟩ := append_point_inj hwhole hwhole' htext
          rfl

theorem Writes.isDigit_or_point {text : List Char} {number : ℚ} (hwrites : Writes text number) :
    ∀ c ∈ text, isDigit c = true ∨ c = '.' := by
  intro c hmem
  cases hwrites with
  | whole _ hdigits => exact .inl (hdigits c hmem)
  | fraction whole finer hwhole hfiner =>
      rcases List.mem_append.mp hmem with hmem | hmem
      · exact .inl (hwhole c hmem)
      · rcases List.mem_cons.mp hmem with rfl | hmem
        · exact .inr rfl
        · exact .inl (hfiner c hmem)

end Scan

namespace Number

/-! ## Texts of doubles -/

theorem positionalText_ne_nil (decimal : Decimal) : positionalText decimal ≠ [] := by
  have hdigits : digitText decimal.digits ≠ [] := List.ne_nil_of_length_pos Nat.length_toDigits_pos
  rw [positionalText]
  split
  · exact List.append_ne_nil_of_left_ne_nil hdigits _
  · split <;> simp

theorem isFinite_iff {value : Float} :
    value.isFinite = true ↔ magnitudeWord value < infinityWord := by
  have hsome : value.isFinite = (rational? value).isSome := by
    rw [rational?, Float.isFinite, Float.Model.isFinite]
    cases value.toModel.unpack <;> rfl
  rw [hsome, Option.isSome_iff_exists]
  simp only [rational?_eq_some_iff, exists_and_left, exists_eq, and_true]

/-- What a number is rounded to has no sign. -/
theorem Rounds.isNegative_eq {number : ℚ} {value : Float} (hrounds : Rounds number value)
    (hfinite : value.isFinite = true) : isNegative value = false := by
  cases hrounds with
  | finite _ _ hsign => exact hsign
  | infinite hinfinite =>
      rw [Float.isFinite, Float.Model.isFinite, hinfinite] at hfinite
      cases hfinite

/-- A finite double that is not negative is written as a decimal that is rounded
to its word. -/
theorem exists_decimal_display {value : Float} (hfinite : value.isFinite = true)
    (hsign : isNegative value = false) :
    ∃ decimal : Decimal, (display value).toList = positionalText decimal ∧
      decimal.word = value.toBits.toNat := by
  have hword : magnitudeWord value < infinityWord := isFinite_iff.mp hfinite
  have hbits : magnitudeWord value = value.toBits.toNat := by
    rw [isNegative, decide_eq_false_iff_not, Nat.not_le] at hsign
    exact Nat.mod_eq_of_lt hsign
  obtain ⟨decimal, htext, hdecimal⟩ := exists_decimal hword
  refine ⟨decimal, ?_, hdecimal.trans hbits⟩
  rw [display, write]
  simp only [if_neg hword.not_gt, if_neg hword.ne, hsign, String.toList_ofList, htext]
  rfl

theorem display_chars {value : Float} (hfinite : value.isFinite = true)
    (hsign : isNegative value = false) :
    (display value).toList ≠ [] ∧
      ∀ c ∈ (display value).toList, Scan.isDigit c = true ∨ c = '.' := by
  obtain ⟨decimal, htext, -⟩ := exists_decimal_display hfinite hsign
  rw [htext]
  exact ⟨positionalText_ne_nil decimal, (writes_positionalText decimal).isDigit_or_point⟩

/-- Finite doubles without a sign that are shown alike are the same. -/
theorem display_injective {first second : Float} (hfirst : first.isFinite = true)
    (hsecond : second.isFinite = true) (hsign : isNegative first = false)
    (hsign' : isNegative second = false) (hdisplay : display first = display second) :
    first = second := by
  obtain ⟨decimal, htext, hword⟩ := exists_decimal_display hfirst hsign
  obtain ⟨decimal', htext', hword'⟩ := exists_decimal_display hsecond hsign'
  have hvalue : decimal.value = decimal'.value := by
    have hwrites := writes_positionalText decimal
    rw [← htext, hdisplay, htext'] at hwrites
    exact hwrites.unique (writes_positionalText decimal')
  have hbits : first.toBits.toNat = second.toBits.toNat := by
    rw [← hword, ← hword', Decimal.word_eq_of_value hvalue]
  exact Float.toBits_inj.mp (UInt64.toNat_inj.mp hbits)

end Number

end Lumen
