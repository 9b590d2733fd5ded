import Mathlib
import Lumen.Proofs.NumberText

/-!
# No decimal with fewer digits reads back

All numbers between the value of a word and a decimal that is rounded to the word
are rounded to it.  A decimal of few digits lies on the grid with that many
digits, on a coarser one, or below the leading power of ten, so a neighbour of
the value on the grid is at least as near and rounded to the word if the decimal
is.  On the grid of seventeen digits the nearer neighbour always is.  The search
therefore stops at the fewest digits that suffice, with the nearest decimal that
has so many.
-/

namespace Lumen.Number

/-! ## Decimals that are rounded to a word -/

section Rounding

variable {decimal nearer : Decimal} {word : Nat}

/-- A decimal is rounded to a finite word exactly where the word is the closest
one. -/
theorem Decimal.word_eq_iff (hword : word < infinityWord) :
    decimal.word = word ↔ Closest (decimal.value * unitsPerOne) word := by
  have hclosest := decimal.closest_roundedWord
  rw [Decimal.word, nearestWord_eq_min]
  constructor
  · intro hequal
    have hrounded : roundedWord (decimal.numerator * unitsPerOne) decimal.denominator = word := by
      omega
    rwa [hrounded] at hclosest
  · intro hother
    rw [hclosest.unique hother, Nat.min_eq_left hword.le]

/-- On the way to the count of the nearest word, this word stays the nearest. -/
theorem closest_toward {units middle : ℚ} (hclosest : Closest units word)
    (hway : |units - wordUnits word| = |units - middle| + |middle - wordUnits word|) :
    Closest middle word where
  nearest other := by
    have htriangle := abs_sub_le units middle (wordUnits other : ℚ)
    have hnearest := hclosest.nearest other
    linarith
  even other hother hequal := by
    have htriangle := abs_sub_le units middle (wordUnits other : ℚ)
    exact hclosest.even other hother (le_antisymm (hclosest.nearest other) (by linarith))

theorem wordUnits_eq_mul (word : Nat) : (wordUnits word : ℚ) = wordValue word * unitsPerOne :=
  (div_mul_cancel₀ _ units_pos.ne').symm

/-- A decimal between one that is rounded to a word and the value of the word is
rounded to it as well, and is at least as near. -/
theorem Decimal.word_of_between (hword : word < infinityWord) (hrounds : decimal.word = word)
    (hbetween : decimal.value ≤ nearer.value ∧ nearer.value ≤ wordValue word ∨
      wordValue word ≤ nearer.value ∧ nearer.value ≤ decimal.value) :
    nearer.word = word ∧
      |nearer.value - wordValue word| ≤ |decimal.value - wordValue word| := by
  have hway : |decimal.value - wordValue word| =
      |decimal.value - nearer.value| + |nearer.value - wordValue word| := by
    rcases hbetween with ⟨hlow, hhigh⟩ | ⟨hlow, hhigh⟩
    · rw [abs_of_nonpos (by linarith), abs_of_nonpos (by linarith), abs_of_nonpos (by linarith)]
      ring
    · rw [abs_of_nonneg (by linarith), abs_of_nonneg (by linarith), abs_of_nonneg (by linarith)]
      ring
  constructor
  · rw [word_eq_iff hword] at hrounds ⊢
    refine closest_toward hrounds ?_
    rw [wordUnits_eq_mul, ← sub_mul, ← sub_mul, ← sub_mul, abs_mul, abs_mul, abs_mul, hway, add_mul]
  · rw [hway]
    exact le_add_of_nonneg_left (abs_nonneg _)

/-- Below the least mantissa of 53 bits the step is half as wide. -/
theorem closest_below_normal (lower : Nat) {shifted : ℚ} (hlow : 2 ^ 52 - 1 / 4 < shifted)
    (hhigh : shifted < 2 ^ 52) :
    Closest (shifted * 2 ^ (lower + 1)) ((lower + 1) * 2 ^ 52 + 2 ^ 52) := by
  have hcarry : (lower + 1) * 2 ^ 52 + 2 ^ 52 = lower * 2 ^ 52 + 2 ^ 53 := by ring
  have hhalf : shifted * 2 ^ (lower + 1) = shifted * 2 * 2 ^ lower := by ring
  have hdistance : |shifted * 2 - (2 ^ 53 : Nat)| < 1 / 2 := by
    push_cast
    exact abs_lt.mpr ⟨by linarith, by linarith⟩
  rw [hcarry, hhalf]
  exact closest_of_near (by linarith) (.inr (by linarith)) hdistance.le
    fun htie => absurd htie hdistance.ne

/-- A relative error of half a unit in the seventeenth digit is less than half
the step to the next word. -/
theorem closest_of_small {units : ℚ}
    (hsmall : |units - wordUnits word| * (2 * 10 ^ 16) ≤ wordUnits word) :
    Closest units word := by
  obtain ⟨shift, mantissa, rfl, hhigh, hlow, hunits⟩ := exists_mantissa word
  have hstep : (0 : ℚ) < 2 ^ shift := by positivity
  have hscale : units = units / 2 ^ shift * 2 ^ shift := (div_mul_cancel₀ _ hstep.ne').symm
  rw [hunits] at hsmall
  generalize units / 2 ^ shift = shifted at hscale
  subst hscale
  rw [Nat.cast_mul, Nat.cast_pow, Nat.cast_ofNat, ← sub_mul, abs_mul, abs_of_pos hstep,
    mul_right_comm, mul_le_mul_iff_left₀ hstep] at hsmall
  have hmost : (mantissa : ℚ) + 1 ≤ 2 ^ 53 := by exact_mod_cast hhigh
  have hnear : |shifted - mantissa| < 1 / 2 := by linarith
  obtain ⟨hbelow, habove⟩ := abs_lt.mp hnear
  by_cases hshifted : shift = 0 ∨ 2 ^ 52 ≤ shifted
  · exact closest_of_near (by linarith) hshifted hnear.le fun htie => absurd htie hnear.ne
  · obtain ⟨hzero, hless⟩ := not_or.mp hshifted
    rw [not_le] at hless
    obtain ⟨lower, rfl⟩ := Nat.exists_eq_succ_of_ne_zero hzero
    obtain rfl : mantissa = 2 ^ 52 := by
      refine Nat.le_antisymm ?_ (hlow.resolve_left hzero)
      have hbound : (mantissa : ℚ) < (2 ^ 52 + 1 : Nat) := by
        push_cast
        linarith
      exact Nat.lt_succ_iff.mp (by exact_mod_cast hbound)
    refine closest_below_normal lower ?_ hless
    rw [abs_sub_comm, abs_of_pos (by push_cast; linarith)] at hsmall
    push_cast at hsmall
    linarith

end Rounding

/-! ## Counting digits -/

theorem digitCount_pos (number : Nat) : 0 < digitCount number := by
  rw [digitCount]
  split
  · exact Nat.one_pos
  · split <;> exact Nat.succ_pos _

/-- Digits that are taken off together count one each. -/
theorem digitCount_div_add_le_iff {number places count : Nat} (hmore : 10 ^ places ≤ number)
    (hfewer : ∀ {rest : Nat}, 0 < rest →
      (digitCount (number / 10 ^ places) ≤ rest ↔ number / 10 ^ places < 10 ^ rest)) :
    digitCount (number / 10 ^ places) + places ≤ count ↔ number < 10 ^ count := by
  rcases Nat.lt_or_ge places count with hgt | hle
  · obtain ⟨rest, rfl⟩ := Nat.exists_eq_add_of_lt hgt
    have hrest : digitCount (number / 10 ^ places) + places ≤ places + rest + 1 ↔
        digitCount (number / 10 ^ places) ≤ rest + 1 := by omega
    rw [hrest, hfewer (Nat.succ_pos rest), Nat.div_lt_iff_lt_mul (Nat.pow_pos (by decide)),
      ← Nat.pow_add, Nat.add_comm (rest + 1), Nat.add_assoc]
  · have hpos := digitCount_pos (number / 10 ^ places)
    have hpower : 10 ^ count ≤ 10 ^ places := Nat.pow_le_pow_right (by decide) hle
    omega

/-- A number has at most so many digits if it is below that power of ten. -/
theorem digitCount_le_iff (number : Nat) {count : Nat} (hcount : 0 < count) :
    digitCount number ≤ count ↔ number < 10 ^ count := by
  fun_induction digitCount number generalizing count with
  | case1 number hdigit =>
      have hpower : 10 ^ 1 ≤ 10 ^ count := Nat.pow_le_pow_right (by decide) hcount
      omega
  | case2 number hmore hless ih =>
      exact digitCount_div_add_le_iff (by omega : 10 ^ 1 ≤ number) ih
  | case3 number hmore hless ih =>
      exact digitCount_div_add_le_iff (Nat.not_lt.mp hless) ih

theorem lt_pow_digitCount (number : Nat) : number < 10 ^ digitCount number :=
  (digitCount_le_iff number (digitCount_pos number)).mp (Nat.le_refl _)

theorem pow_le_of_lt_digitCount {number count : Nat} (hpos : 0 < number)
    (hcount : count < digitCount number) : 10 ^ count ≤ number := by
  rcases Nat.eq_zero_or_pos count with rfl | hcountPos
  · exact hpos
  · exact Nat.not_lt.mp (mt (digitCount_le_iff number hcountPos).mpr (Nat.not_le.mpr hcount))

/-- Digits up to a power of ten are below it once their zeros are moved into the
exponent. -/
theorem digits_trim_lt {decimal : Decimal} {count : Nat} (hcount : 0 < count)
    (hdigits : decimal.digits ≤ 10 ^ count) : decimal.trim.digits < 10 ^ count := by
  fun_induction Decimal.trim decimal with
  | case1 decimal hzero => exact Nat.pow_pos (by decide)
  | case2 decimal hzero hten ih => exact ih (Nat.le_trans (Nat.div_le_self _ _) hdigits)
  | case3 decimal hzero hten =>
      refine Nat.lt_of_le_of_ne hdigits ?_
      intro hpower
      obtain ⟨fewer, rfl⟩ := Nat.exists_eq_add_of_lt hcount
      rw [hpower, Nat.zero_add, Nat.pow_succ] at hten
      exact hten (Nat.mul_mod_left _ _)

/-! ## The leading digit -/

/-- The digits of a fraction that is scaled to at least one tell the power of ten
in front of it. -/
theorem leading_scaled {units perOne places : Nat} {leading : Int} (hperOne : 0 < perOne)
    (hleast : perOne ≤ units * Nat.pow 10 places)
    (hleading : leading + (places + 1 : Nat) = digitCount (units * Nat.pow 10 places / perOne)) :
    (10 : ℚ) ^ leading ≤ units / perOne ∧ (units / perOne : ℚ) < 10 ^ (leading + 1) := by
  rw [Nat.pow_eq] at *
  generalize hquotient : units * 10 ^ places / perOne = quotient at hleading
  have hpos : 0 < quotient := hquotient ▸ Nat.div_pos hleast hperOne
  obtain ⟨more, hmore⟩ := Nat.exists_eq_add_of_lt (digitCount_pos quotient)
  have hperOne' : (0 : ℚ) < perOne := by exact_mod_cast hperOne
  have hten : (0 : ℚ) < 10 ^ places := by positivity
  have hfirst : leading = more - places := by omega
  have hnext : leading + 1 = (more + 1 : Nat) - places := by omega
  have hlow : 10 ^ more * perOne ≤ units * 10 ^ places := by
    rw [← Nat.le_div_iff_mul_le hperOne, hquotient]
    exact pow_le_of_lt_digitCount hpos (by omega)
  have hhigh : units * 10 ^ places < 10 ^ (more + 1) * perOne := by
    rw [← Nat.div_lt_iff_lt_mul hperOne, hquotient]
    exact (digitCount_le_iff quotient (Nat.succ_pos more)).mp (by omega)
  rw [hnext, hfirst, zpow_sub₀ (by norm_num), zpow_sub₀ (by norm_num), zpow_natCast,
    zpow_natCast, zpow_natCast, div_le_div_iff₀ hten hperOne', div_lt_div_iff₀ hperOne' hten]
  exact ⟨by exact_mod_cast hlow, by exact_mod_cast hhigh⟩

/-- The value of a word lies between the power of ten of its leading digit and
the next one. -/
theorem leadingExponent_bounds {word : Nat} (hpos : 0 < word) :
    (10 : ℚ) ^ leadingExponent word ≤ wordValue word ∧
      wordValue word < 10 ^ (leadingExponent word + 1) := by
  have hunits : 0 < wordUnits word := Nat.pos_of_ne_zero fun hzero =>
    hpos.ne' (wordUnits_strictMono.injective (hzero.trans (wordUnits_of_lt (by decide)).symm))
  have hperOne : 0 < unitsPerOne := by exact_mod_cast units_pos
  have hplaces : unitsPerOne ≤ Nat.pow 10 324 := by decide +kernel
  have hleast : unitsPerOne ≤ wordUnits word * Nat.pow 10 324 :=
    Nat.le_trans hplaces (Nat.le_mul_of_pos_left _ hunits)
  exact leading_scaled hperOne hleast (Int.sub_add_cancel _ _)

/-! ## The neighbours on a grid -/

section Grid

variable {word : Nat} {exponent : Int}

/-- The neighbour below the value of a word, or the value itself. -/
def below (word : Nat) (exponent : Int) : Decimal :=
  ⟨(gridFraction word exponent).1 / (gridFraction word exponent).2, exponent⟩

def above (word : Nat) (exponent : Int) : Decimal :=
  ⟨(below word exponent).digits + 1, exponent⟩

theorem shifted_fraction (units perOne : Nat) (exponent : Int) :
    ((units * Nat.pow 10 (-exponent).toNat : Nat) /
        (perOne * Nat.pow 10 exponent.toNat : Nat) : ℚ) =
      units / perOne / 10 ^ exponent := by
  rw [Nat.pow_eq, Nat.pow_eq]
  obtain ⟨places, hplaces | hplaces⟩ := Int.eq_nat_or_neg exponent
  · simp [hplaces, div_div]
  · simp [hplaces, div_mul_eq_mul_div]

theorem gridFraction_eq (word : Nat) (exponent : Int) :
    ((gridFraction word exponent).1 / (gridFraction word exponent).2 : ℚ) =
      wordValue word / 10 ^ exponent :=
  shifted_fraction (wordUnits word) unitsPerOne exponent

theorem gridFraction_pos (word : Nat) (exponent : Int) : 0 < (gridFraction word exponent).2 :=
  Nat.mul_pos (by exact_mod_cast units_pos) (Nat.pow_pos (by decide))

theorem value_above (word : Nat) (exponent : Int) :
    (above word exponent).value = (below word exponent).value + 10 ^ exponent := by
  rw [Decimal.value, Decimal.value, above, below, Nat.cast_add_one, add_one_mul]

theorem value_below_le (word : Nat) (exponent : Int) :
    (below word exponent).value ≤ wordValue word := by
  have hpos : (0 : ℚ) < (gridFraction word exponent).2 := by
    exact_mod_cast gridFraction_pos word exponent
  rw [Decimal.value, below, ← le_div_iff₀ (by positivity), ← gridFraction_eq, le_div_iff₀ hpos]
  exact_mod_cast Nat.div_mul_le_self _ _

theorem lt_value_above (word : Nat) (exponent : Int) :
    wordValue word < (above word exponent).value := by
  have hpos : (0 : ℚ) < (gridFraction word exponent).2 := by
    exact_mod_cast gridFraction_pos word exponent
  rw [Decimal.value, above, below, ← div_lt_iff₀ (by positivity), ← gridFraction_eq,
    div_lt_iff₀ hpos]
  exact_mod_cast Nat.lt_mul_of_div_lt (Nat.lt_succ_self _) (gridFraction_pos word exponent)

/-- The neighbour that the value is rounded to comes first. -/
theorem neighbours_eq (word : Nat) (exponent : Int) :
    neighbours word exponent =
      if roundHalfEven (gridFraction word exponent).1 (gridFraction word exponent).2 =
        (below word exponent).digits then [below word exponent, above word exponent]
      else [above word exponent, below word exponent] := by
  rw [neighbours, above, below]

theorem roundHalfEven_cases (numerator denominator : Nat) :
    roundHalfEven numerator denominator = numerator / denominator ∨
      roundHalfEven numerator denominator = numerator / denominator + 1 := by
  unfold roundHalfEven
  grind

/-- Of the neighbours the nearer one comes first. -/
theorem neighbours_cases (word : Nat) (exponent : Int) :
    neighbours word exponent = [below word exponent, above word exponent] ∧
        wordValue word - (below word exponent).value ≤
          (above word exponent).value - wordValue word ∨
      neighbours word exponent = [above word exponent, below word exponent] ∧
        (above word exponent).value - wordValue word ≤
          wordValue word - (below word exponent).value := by
  have hstep : (0 : ℚ) < 10 ^ exponent := by positivity
  have hnear := (roundHalfEven_near (gridFraction word exponent).1
    (gridFraction_pos word exponent)).1
  have hvalue : wordValue word = wordValue word / 10 ^ exponent * 10 ^ exponent :=
    (div_mul_cancel₀ _ hstep.ne').symm
  rw [gridFraction_eq] at hnear
  rw [neighbours_eq, value_above]
  split
  · next hbelow =>
      rw [hbelow] at hnear
      refine .inl ⟨rfl, ?_⟩
      have hhalf := mul_le_mul_of_nonneg_right (abs_le.mp hnear).2 hstep.le
      rw [sub_mul, ← hvalue] at hhalf
      change wordValue word - (below word exponent).value ≤ _ at hhalf
      linarith
  · next habove =>
      rw [(roundHalfEven_cases _ _).resolve_left habove] at hnear
      refine .inr ⟨rfl, ?_⟩
      have hhalf := mul_le_mul_of_nonneg_right (abs_le.mp hnear).1 hstep.le
      rw [sub_mul, ← hvalue] at hhalf
      change _ ≤ wordValue word - (above word exponent).value at hhalf
      rw [value_above] at hhalf
      linarith

theorem mem_neighbours_iff {decimal : Decimal} :
    decimal ∈ neighbours word exponent ↔
      decimal = below word exponent ∨ decimal = above word exponent := by
  rcases neighbours_cases word exponent with ⟨hneighbours, -⟩ | ⟨hneighbours, -⟩
  · rw [hneighbours, List.mem_pair]
  · rw [hneighbours, List.mem_pair, or_comm]

theorem abs_below (word : Nat) (exponent : Int) :
    |(below word exponent).value - wordValue word| =
      wordValue word - (below word exponent).value := by
  rw [abs_sub_comm, abs_of_nonneg (sub_nonneg.mpr (value_below_le word exponent))]

theorem abs_above (word : Nat) (exponent : Int) :
    |(above word exponent).value - wordValue word| =
      (above word exponent).value - wordValue word :=
  abs_of_pos (sub_pos.mpr (lt_value_above word exponent))

/-- The first of the neighbours is the nearest. -/
theorem exists_nearest (word : Nat) (exponent : Int) :
    ∃ near far, neighbours word exponent = [near, far] ∧
      |near.value - wordValue word| ≤ |far.value - wordValue word| ∧
      |near.value - wordValue word| * 2 ≤ 10 ^ exponent := by
  have hstep := value_above word exponent
  rcases neighbours_cases word exponent with ⟨hneighbours, hnearer⟩ | ⟨hneighbours, hnearer⟩
  · refine ⟨_, _, hneighbours, ?_⟩
    rw [abs_below, abs_above]
    exact ⟨hnearer, by linarith⟩
  · refine ⟨_, _, hneighbours, ?_⟩
    rw [abs_below, abs_above]
    exact ⟨hnearer, by linarith⟩

/-- If a neighbour is rounded to the word, one that is at least as near is found. -/
theorem exists_onGrid? {decimal : Decimal} (hmem : decimal ∈ neighbours word exponent)
    (hrounds : decimal.word = word) :
    ∃ found, onGrid? word exponent = some found ∧
      |found.value - wordValue word| ≤ |decimal.value - wordValue word| := by
  obtain ⟨near, far, hneighbours, hnearer, -⟩ := exists_nearest word exponent
  rw [hneighbours, List.mem_pair] at hmem
  rw [onGrid?, hneighbours]
  by_cases hnear : near.word = word
  · refine ⟨near, List.find?_cons_of_pos (beq_iff_eq.mpr hnear), ?_⟩
    rcases hmem with rfl | rfl
    · exact le_refl _
    · exact hnearer
  · obtain rfl : decimal = far := hmem.resolve_left fun hequal => hnear (hequal ▸ hrounds)
    exact ⟨decimal, by simp [hnear, hrounds], le_refl _⟩

/-! ## Grids by their number of digits -/

variable {extra : Nat}

/-- The grid on which the value of a word has one digit and some extra ones. -/
def gridExponent (word extra : Nat) : Int :=
  leadingExponent word - extra

theorem leading_eq_mul (word extra : Nat) :
    (10 : ℚ) ^ leadingExponent word = 10 ^ extra * 10 ^ gridExponent word extra := by
  rw [gridExponent, ← zpow_natCast, ← zpow_add₀ (by norm_num)]
  congr 1
  ring

/-- On the grid with so many extra digits, the neighbour below has exactly one
digit more than those. -/
theorem digits_below_bounds (hpos : 0 < word) (extra : Nat) :
    10 ^ extra ≤ (below word (gridExponent word extra)).digits ∧
      (below word (gridExponent word extra)).digits < 10 ^ (extra + 1) := by
  have hstep : (0 : ℚ) < 10 ^ gridExponent word extra := by positivity
  obtain ⟨hlow, hhigh⟩ := leadingExponent_bounds hpos
  rw [zpow_add_one₀ (by norm_num)] at hhigh
  rw [leading_eq_mul word extra] at hlow hhigh
  have hbelow := value_below_le word (gridExponent word extra)
  have habove := lt_value_above word (gridExponent word extra)
  constructor
  · have hless : (10 : ℚ) ^ extra * 10 ^ gridExponent word extra <
        ((below word (gridExponent word extra)).digits + 1 : Nat) * 10 ^ gridExponent word extra :=
      lt_of_le_of_lt hlow habove
    rw [mul_lt_mul_iff_left₀ hstep] at hless
    exact Nat.lt_succ_iff.mp (by exact_mod_cast hless)
  · have hless : ((below word (gridExponent word extra)).digits : ℚ) *
        10 ^ gridExponent word extra < 10 ^ (extra + 1) * 10 ^ gridExponent word extra := by
      refine lt_of_le_of_lt hbelow (lt_of_lt_of_eq hhigh ?_)
      ring
    rw [mul_lt_mul_iff_left₀ hstep] at hless
    exact_mod_cast hless

theorem digits_le_of_onGrid? (hpos : 0 < word) {found : Decimal}
    (hfound : onGrid? word (gridExponent word extra) = some found) :
    found.digits ≤ 10 ^ (extra + 1) := by
  have hdigits := (digits_below_bounds hpos extra).2
  rw [onGrid?] at hfound
  rcases mem_neighbours_iff.mp (List.mem_of_find?_eq_some hfound) with rfl | rfl
  · exact hdigits.le
  · exact hdigits

/-- No decimal with so few digits lies between the neighbours. -/
theorem value_le_below_or_above_le (hpos : 0 < word) {other : Decimal}
    (hdigits : other.digits < 10 ^ (extra + 1)) :
    other.value ≤ (below word (gridExponent word extra)).value ∨
      (above word (gridExponent word extra)).value ≤ other.value := by
  have hstep : (0 : ℚ) < 10 ^ gridExponent word extra := by positivity
  rcases Int.lt_or_le other.exponent (gridExponent word extra) with hfiner | hcoarser
  · -- So few digits of a finer grid stay below the leading power of ten.
    left
    have hfine : (10 : ℚ) ^ other.exponent * 10 ≤ 10 ^ gridExponent word extra := by
      rw [← zpow_add_one₀ (by norm_num)]
      exact zpow_le_zpow_right₀ (by norm_num) hfiner
    have hcount : (other.digits : ℚ) ≤ 10 ^ extra * 10 := by
      rw [← pow_succ]
      exact_mod_cast hdigits.le
    have hleast : (10 : ℚ) ^ extra ≤ (below word (gridExponent word extra)).digits := by
      exact_mod_cast (digits_below_bounds hpos extra).1
    calc other.value = other.digits * 10 ^ other.exponent := rfl
      _ ≤ 10 ^ extra * 10 * 10 ^ other.exponent :=
          mul_le_mul_of_nonneg_right hcount (by positivity)
      _ = 10 ^ extra * (10 ^ other.exponent * 10) := by ring
      _ ≤ 10 ^ extra * 10 ^ gridExponent word extra :=
          mul_le_mul_of_nonneg_left hfine (by positivity)
      _ ≤ (below word (gridExponent word extra)).value :=
          mul_le_mul_of_nonneg_right hleast hstep.le
  · -- On a coarser grid there are only multiples of the step.
    obtain ⟨places, hplaces⟩ := Int.le.dest hcoarser
    have hvalue : other.value = (other.digits * 10 ^ places : Nat) *
        10 ^ gridExponent word extra := by
      rw [Decimal.value, ← hplaces, zpow_add₀ (by norm_num), zpow_natCast]
      push_cast
      ring
    rw [hvalue]
    rcases Nat.lt_or_ge (below word (gridExponent word extra)).digits
      (other.digits * 10 ^ places) with hmore | hless
    · right
      exact mul_le_mul_of_nonneg_right (by exact_mod_cast hmore) hstep.le
    · left
      exact mul_le_mul_of_nonneg_right (by exact_mod_cast hless) hstep.le

/-- If a decimal is rounded to the word, so is a neighbour on the grid of its
digits that is at least as near. -/
theorem exists_neighbour (hpos : 0 < word) (hword : word < infinityWord) {other : Decimal}
    (hrounds : other.word = word) (hdigits : other.digits < 10 ^ (extra + 1)) :
    ∃ decimal ∈ neighbours word (gridExponent word extra), decimal.word = word ∧
      |decimal.value - wordValue word| ≤ |other.value - wordValue word| := by
  have hlow := value_below_le word (gridExponent word extra)
  have hhigh := lt_value_above word (gridExponent word extra)
  rcases value_le_below_or_above_le hpos hdigits with hside | hside
  · exact ⟨_, mem_neighbours_iff.mpr (.inl rfl),
      Decimal.word_of_between hword hrounds (.inl ⟨hside, hlow⟩)⟩
  · exact ⟨_, mem_neighbours_iff.mpr (.inr rfl),
      Decimal.word_of_between hword hrounds (.inr ⟨hhigh.le, hside⟩)⟩

/-- The nearest decimal of seventeen digits is rounded to the word. -/
theorem exists_neighbour_maxSignificant (hpos : 0 < word) (hword : word < infinityWord) :
    ∃ decimal ∈ neighbours word (gridExponent word (maxSignificant - 1)), decimal.word = word := by
  obtain ⟨near, far, hneighbours, -, hhalf⟩ :=
    exists_nearest word (gridExponent word (maxSignificant - 1))
  refine ⟨near, hneighbours ▸ List.mem_cons_self, (Decimal.word_eq_iff hword).mpr ?_⟩
  apply closest_of_small
  have hleading := (leadingExponent_bounds hpos).1
  rw [leading_eq_mul word (maxSignificant - 1)] at hleading
  rw [wordUnits_eq_mul, ← sub_mul, abs_mul, abs_of_pos units_pos, mul_right_comm]
  refine mul_le_mul_of_nonneg_right ?_ units_pos.le
  calc |near.value - wordValue word| * (2 * 10 ^ 16)
      = 10 ^ 16 * (|near.value - wordValue word| * 2) := by ring
    _ ≤ 10 ^ 16 * 10 ^ gridExponent word (maxSignificant - 1) :=
        mul_le_mul_of_nonneg_left hhalf (by positivity)
    _ ≤ wordValue word := hleading

end Grid

/-! ## The search -/

/-- A decimal that is rounded to a word, has as few digits as any such decimal,
and is as near to the value of the word as any with so many digits. -/
structure IsShortest (word : Nat) (decimal : Decimal) : Prop where
  rounds : decimal.word = word
  fewest : ∀ other : Decimal, other.word = word →
    digitCount decimal.digits ≤ digitCount other.digits
  nearest : ∀ other : Decimal, other.word = word →
    digitCount other.digits = digitCount decimal.digits →
    |decimal.value - wordValue word| ≤ |other.value - wordValue word|

/-- A search through the numbers below a bound finds the least of them that gives
something. -/
theorem exists_of_findSome?_range {count : Nat} {search : Nat → Option Decimal} {found : Decimal}
    (hfound : (List.range count).findSome? search = some found) :
    ∃ index, search index = some found ∧ ∀ earlier < index, search earlier = none := by
  obtain ⟨before, index, after, hrange, hindex, hbefore⟩ :=
    List.findSome?_eq_some_iff.mp hfound
  refine ⟨index, hindex, fun earlier hearlier => hbefore earlier ?_⟩
  have hbound : index < count := List.mem_range.mp (by simp [hrange])
  have hmem : earlier ∈ before ++ index :: after :=
    hrange ▸ List.mem_range.mpr (hearlier.trans hbound)
  have hsorted : (before ++ index :: after).Pairwise (· < ·) := hrange ▸ List.pairwise_lt_range
  rcases List.mem_append.mp hmem with hmem | hmem
  · exact hmem
  · rcases List.mem_cons.mp hmem with rfl | hmem
    · exact absurd hearlier (Nat.lt_irrefl _)
    · exact absurd (List.rel_of_pairwise_cons (List.pairwise_append.mp hsorted).2.1 hmem)
        hearlier.not_gt

/-- The search stops at the first grid with a neighbour that is rounded to the
word. -/
theorem exists_shortest_eq {word : Nat} (hpos : 0 < word) (hword : word < infinityWord) :
    ∃ extra found, onGrid? word (gridExponent word extra) = some found ∧
      (∀ fewer < extra, onGrid? word (gridExponent word fewer) = none) ∧
      shortest word = found.trim := by
  obtain ⟨decimal, hmem, hrounds⟩ := exists_neighbour_maxSignificant hpos hword
  obtain ⟨last, hlast, -⟩ := exists_onGrid? hmem hrounds
  cases hsearch : (List.range maxSignificant).findSome? fun (extra : Nat) =>
      onGrid? word (leadingExponent word - extra) with
  | none =>
      have hnone := List.findSome?_eq_none_iff.mp hsearch (maxSignificant - 1)
        (List.mem_range.mpr (by decide))
      rw [← gridExponent, hlast] at hnone
      cases hnone
  | some found =>
      obtain ⟨extra, hfound, hnone⟩ := exists_of_findSome?_range hsearch
      refine ⟨extra, found, hfound, hnone, ?_⟩
      rw [shortest]
      simp only [hsearch, Option.getD_some]

/-- The search finds a shortest decimal. -/
theorem isShortest_shortest {word : Nat} (hpos : 0 < word) (hword : word < infinityWord) :
    IsShortest word (shortest word) := by
  obtain ⟨extra, found, hfound, hnone, hshortest⟩ := exists_shortest_eq hpos hword
  have hmost : digitCount (shortest word).digits ≤ extra + 1 := by
    rw [hshortest, digitCount_le_iff _ (Nat.succ_pos extra)]
    exact digits_trim_lt (Nat.succ_pos extra) (digits_le_of_onGrid? hpos hfound)
  have hgrid : ∀ other : Decimal, other.word = word →
      ∃ more nearer, digitCount other.digits = more + 1 ∧ extra ≤ more ∧
        onGrid? word (gridExponent word more) = some nearer ∧
        |nearer.value - wordValue word| ≤ |other.value - wordValue word| := by
    intro other hrounds
    obtain ⟨more, hmore⟩ := Nat.exists_eq_add_of_lt (digitCount_pos other.digits)
    have hdigits := lt_pow_digitCount other.digits
    rw [hmore, Nat.zero_add] at hdigits
    obtain ⟨decimal, hmem, hdecimal, hnearer⟩ := exists_neighbour hpos hword hrounds hdigits
    obtain ⟨nearer, hsome, hnearest⟩ := exists_onGrid? hmem hdecimal
    refine ⟨more, nearer, by omega, ?_, hsome, hnearest.trans hnearer⟩
    by_contra hfewer
    rw [hnone more (Nat.not_le.mp hfewer)] at hsome
    cases hsome
  refine ⟨word_shortest hword, fun other hrounds => ?_, fun other hrounds hcount => ?_⟩
  · obtain ⟨more, -, hmore, hextra, -⟩ := hgrid other hrounds
    omega
  · obtain ⟨more, nearer, hmore, hextra, hsome, hnearest⟩ := hgrid other hrounds
    obtain rfl : more = extra := by omega
    obtain rfl : nearer = found := Option.some_inj.mp (hsome.symm.trans hfound)
    rw [hshortest, Decimal.value_trim]
    exact hnearest

theorem isShortest_zero : IsShortest 0 ⟨0, 0⟩ where
  rounds := Decimal.word_of_value (by decide) (by
    rw [wordValue_zero, Decimal.value, Nat.cast_zero, zero_mul])
  fewest other _ := by
    rw [digitCount]
    exact digitCount_pos other.digits
  nearest other _ _ := by
    rw [wordValue_zero, Decimal.value, Nat.cast_zero, zero_mul, sub_self, abs_zero]
    exact abs_nonneg _

end Lumen.Number
