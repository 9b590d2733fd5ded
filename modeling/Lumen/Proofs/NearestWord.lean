import Mathlib.Algebra.Order.Field.Basic
import Mathlib.Algebra.Order.Field.Rat
import Mathlib.Algebra.Order.Ring.Abs
import Mathlib.Order.Monotone.Basic
import Mathlib.Tactic.FieldSimp
import Mathlib.Tactic.Linarith
import Mathlib.Tactic.Positivity
import Mathlib.Tactic.Ring
import Lumen.Number.Rounding

/-!
# The nearest word

The words below that of infinity count units, and the counts grow with the
words.  Rounding divides by a power of two that leaves a quotient of 53 bits.
Above the least quotient of 53 bits all counts are multiples of that power, and
below it they are farther away than this least quotient, so the nearest multiple
is nearest among all words.  Taken as one more word, infinity is the nearest
from half a step beyond the greatest finite word on.
-/

namespace Lumen.Number

/-! ## Halves go to the even number -/

theorem div_eq_quotient_add (numerator : Nat) {denominator : Nat} (hpos : 0 < denominator) :
    (numerator / denominator : ℚ) =
      (numerator / denominator : Nat) + ((numerator % denominator : Nat) : ℚ) / denominator := by
  have hne : (denominator : ℚ) ≠ 0 := by exact_mod_cast hpos.ne'
  have hdivision : (denominator * (numerator / denominator : Nat) +
      (numerator % denominator : Nat) : ℚ) = numerator := by
    exact_mod_cast Nat.div_add_mod numerator denominator
  rw [eq_comm, eq_div_iff hne, add_mul, div_mul_cancel₀ _ hne, ← hdivision, mul_comm]

/-- The rounded fraction is at most one half away, and even if it is exactly
one half away. -/
theorem roundHalfEven_near (numerator : Nat) {denominator : Nat} (hpos : 0 < denominator) :
    |(numerator / denominator : ℚ) - roundHalfEven numerator denominator| ≤ 1 / 2 ∧
      (|(numerator / denominator : ℚ) - roundHalfEven numerator denominator| = 1 / 2 →
        roundHalfEven numerator denominator % 2 = 0) := by
  have hvalue := div_eq_quotient_add numerator hpos
  have hdenominator : (0 : ℚ) < denominator := by exact_mod_cast hpos
  have hnonneg : (0 : ℚ) ≤ ((numerator % denominator : Nat) : ℚ) / denominator := by positivity
  have hlow : ((numerator % denominator : Nat) : ℚ) / denominator < 1 / 2 ↔
      2 * (numerator % denominator) < denominator := by
    rw [div_lt_iff₀ hdenominator, ← Nat.cast_lt (α := ℚ)]
    push_cast
    constructor <;> intro h <;> linarith
  have hhalf : ((numerator % denominator : Nat) : ℚ) / denominator = 1 / 2 ↔
      2 * (numerator % denominator) = denominator := by
    rw [div_eq_iff hdenominator.ne', ← Nat.cast_inj (R := ℚ)]
    push_cast
    constructor <;> intro h <;> linarith
  have hless : ((numerator % denominator : Nat) : ℚ) / denominator < 1 := by
    rw [div_lt_one hdenominator]
    exact_mod_cast Nat.mod_lt numerator hpos
  rw [hvalue]
  generalize ((numerator % denominator : Nat) : ℚ) / denominator = part at *
  unfold roundHalfEven
  simp only
  split
  · next hround =>
      have hpart := hlow.mpr hround
      rw [add_sub_cancel_left, abs_of_nonneg hnonneg]
      exact ⟨hpart.le, fun htie => absurd htie hpart.ne⟩
  · next hround =>
      split
      · next heven =>
          rw [add_sub_cancel_left, abs_of_nonneg hnonneg, hhalf.mpr heven.1]
          exact ⟨le_refl _, fun _ => heven.2⟩
      · next heven =>
          have hpart : 1 / 2 ≤ part := not_lt.mp (mt hlow.mp hround)
          have hdistance : |((numerator / denominator : Nat) : ℚ) + part -
              ((numerator / denominator + 1 : Nat) : ℚ)| = 1 - part := by
            rw [Nat.cast_add_one, add_sub_add_left_eq_sub, abs_sub_comm, abs_of_pos (by linarith)]
          rw [hdistance]
          refine ⟨by linarith, fun htie => ?_⟩
          have htwice := hhalf.mp (by linarith)
          omega

/-- Another whole number is at least as far away, and one half away if it is
just as far. -/
theorem abs_sub_le_of_half {value : ℚ} {near other : Nat} (hnear : |value - near| ≤ 1 / 2)
    (hother : other ≠ near) :
    |value - near| ≤ |value - other| ∧
      (|value - near| = |value - other| → |value - near| = 1 / 2) := by
  have hapart : (1 : ℚ) ≤ |(other : ℚ) - near| := by
    have hne : (other : ℤ) - near ≠ 0 := by omega
    exact_mod_cast Int.one_le_abs hne
  have htriangle : |(other : ℚ) - near| ≤ |value - near| + |value - other| := by
    rw [abs_sub_comm value other, add_comm]
    exact abs_sub_le (other : ℚ) value near
  exact ⟨by linarith, fun hequal => by linarith⟩

/-! ## Words and units -/

theorem wordUnits_of_lt {word : Nat} (hword : word < 2 ^ 52) : wordUnits word = word :=
  if_pos hword

/-- The word with a given exponent and a mantissa of 53 bits. -/
theorem wordUnits_normal (shift : Nat) {mantissa : Nat} (hlow : 2 ^ 52 ≤ mantissa)
    (hhigh : mantissa < 2 ^ 53) :
    wordUnits (shift * 2 ^ 52 + mantissa) = mantissa * 2 ^ shift := by
  have hquotient : (shift * 2 ^ 52 + mantissa) / 2 ^ 52 = shift + 1 := by omega
  have hremainder : 2 ^ 52 + (shift * 2 ^ 52 + mantissa) % 2 ^ 52 = mantissa := by omega
  have hword : ¬ shift * 2 ^ 52 + mantissa < 2 ^ 52 := by omega
  rw [wordUnits, Nat.pow_eq, if_neg hword, hquotient, hremainder, Nat.add_sub_cancel, Nat.pow_eq]

/-- Every word is a mantissa of at most 53 bits with an exponent, which is zero
if the mantissa is shorter. -/
theorem exists_mantissa (word : Nat) :
    ∃ shift mantissa, word = shift * 2 ^ 52 + mantissa ∧ mantissa < 2 ^ 53 ∧
      (shift = 0 ∨ 2 ^ 52 ≤ mantissa) ∧ wordUnits word = mantissa * 2 ^ shift := by
  by_cases hword : word < 2 ^ 52
  · refine ⟨0, word, by omega, by omega, .inl rfl, ?_⟩
    rw [wordUnits_of_lt hword, Nat.pow_zero, Nat.mul_one]
  · have hsplit : word = (word / 2 ^ 52 - 1) * 2 ^ 52 + (2 ^ 52 + word % 2 ^ 52) := by omega
    have hunits := wordUnits_normal (word / 2 ^ 52 - 1) (Nat.le_add_right (2 ^ 52) (word % 2 ^ 52))
      (by omega)
    rw [← hsplit] at hunits
    exact ⟨_, _, hsplit, by omega, .inr (by omega), hunits⟩

/-- A mantissa that has grown to the next power of two counts as it stands. -/
theorem wordUnits_mantissa {shift mantissa : Nat} (hlow : shift = 0 ∨ 2 ^ 52 ≤ mantissa)
    (hhigh : mantissa ≤ 2 ^ 53) :
    wordUnits (shift * 2 ^ 52 + mantissa) = mantissa * 2 ^ shift := by
  rcases Nat.lt_or_eq_of_le hhigh with hhigh | rfl
  · rcases Nat.lt_or_ge mantissa (2 ^ 52) with hshort | hlow'
    · obtain rfl : shift = 0 := hlow.resolve_right (by omega)
      rw [Nat.zero_mul, Nat.zero_add, wordUnits_of_lt hshort, Nat.pow_zero, Nat.mul_one]
    · exact wordUnits_normal shift hlow' hhigh
  · have hcarry : shift * 2 ^ 52 + 2 ^ 53 = (shift + 1) * 2 ^ 52 + 2 ^ 52 := by omega
    rw [hcarry, wordUnits_normal (shift + 1) (Nat.le_refl _) (by omega), Nat.pow_succ]
    ring

/-- Words count units in ascending order. -/
theorem wordUnits_strictMono : StrictMono wordUnits := by
  apply strictMono_nat_of_lt_succ
  intro word
  obtain ⟨shift, mantissa, rfl, hhigh, hlow, hunits⟩ := exists_mantissa word
  have hlow' : shift = 0 ∨ 2 ^ 52 ≤ mantissa + 1 := by omega
  rw [Nat.add_assoc, wordUnits_mantissa hlow' (by omega), hunits, Nat.succ_mul]
  exact Nat.lt_add_of_pos_right (Nat.two_pow_pos shift)

/-- Counts from the least mantissa of 53 bits on are multiples of the step. -/
theorem wordUnits_grid (word shift : Nat) :
    wordUnits word < 2 ^ 52 * 2 ^ shift ∨ ∃ mantissa, wordUnits word = mantissa * 2 ^ shift := by
  obtain ⟨exponent, mantissa, -, hhigh, -, hunits⟩ := exists_mantissa word
  rcases Nat.lt_or_ge exponent shift with hexponent | hexponent
  · left
    have hstep : 2 ^ (exponent + 1) ≤ 2 ^ shift := Nat.pow_le_pow_right (by decide) hexponent
    calc wordUnits word = mantissa * 2 ^ exponent := hunits
      _ < 2 ^ 53 * 2 ^ exponent := Nat.mul_lt_mul_of_pos_right hhigh (Nat.two_pow_pos _)
      _ = 2 ^ 52 * 2 ^ (exponent + 1) := by ring
      _ ≤ 2 ^ 52 * 2 ^ shift := Nat.mul_le_mul_left _ hstep
  · right
    refine ⟨mantissa * 2 ^ (exponent - shift), ?_⟩
    rw [hunits, Nat.mul_assoc, ← Nat.pow_add, Nat.sub_add_cancel hexponent]

/-! ## The nearest word without an upper bound -/

/-- A word whose count is nearest to a number of units.  It is even if another
word is as near. -/
structure Closest (units : ℚ) (word : Nat) : Prop where
  nearest : ∀ other, |units - wordUnits word| ≤ |units - wordUnits other|
  even : ∀ other, other ≠ word → |units - wordUnits word| = |units - wordUnits other| →
    word % 2 = 0

/-- How far the quotient of a fraction is shifted to leave 53 bits. -/
def shiftOf (numerator denominator : Nat) : Nat :=
  (numerator / denominator).log2 - 52

/-- The word that rounding gives before it is bounded by infinity. -/
def roundedWord (numerator denominator : Nat) : Nat :=
  shiftOf numerator denominator * 2 ^ 52 +
    roundHalfEven numerator (denominator * 2 ^ shiftOf numerator denominator)

/-- The nearest word is the rounded one, up to that of infinity. -/
theorem nearestWord_eq_min (numerator denominator : Nat) :
    nearestWord numerator denominator =
      min (roundedWord (numerator * unitsPerOne) denominator) infinityWord :=
  rfl

/-- The shifted fraction is below the least number of 54 bits, and it has 53
bits unless nothing is shifted. -/
theorem shiftOf_bounds (numerator : Nat) {denominator : Nat} (hpos : 0 < denominator) :
    let shifted : ℚ := numerator / (denominator * 2 ^ shiftOf numerator denominator : Nat)
    shifted < 2 ^ 53 ∧ (shiftOf numerator denominator = 0 ∨ 2 ^ 52 ≤ shifted) := by
  intro shifted
  have hdivisor : (0 : ℚ) < (denominator * 2 ^ shiftOf numerator denominator : Nat) := by
    exact_mod_cast Nat.mul_pos hpos (Nat.two_pow_pos _)
  constructor
  · have hlog : numerator / denominator < 2 ^ (53 + shiftOf numerator denominator) := by
      have hpower : 2 ^ ((numerator / denominator).log2 + 1) ≤
          2 ^ (53 + shiftOf numerator denominator) :=
        Nat.pow_le_pow_right (by decide) (by rw [shiftOf]; omega)
      exact Nat.lt_of_lt_of_le Nat.lt_log2_self hpower
    rw [Nat.div_lt_iff_lt_mul hpos, Nat.pow_add] at hlog
    rw [div_lt_iff₀ hdivisor]
    calc (numerator : ℚ) < (2 ^ 53 * 2 ^ shiftOf numerator denominator * denominator : Nat) := by
          exact_mod_cast hlog
      _ = 2 ^ 53 * (denominator * 2 ^ shiftOf numerator denominator : Nat) := by push_cast; ring
  · rcases Nat.eq_zero_or_pos (shiftOf numerator denominator) with hzero | hshift
    · exact .inl hzero
    · right
      have hlog : (numerator / denominator).log2 = 52 + shiftOf numerator denominator := by
        rw [shiftOf] at hshift ⊢
        omega
      have hpower : 2 ^ (52 + shiftOf numerator denominator) ≤ numerator / denominator := by
        rw [← hlog]
        apply Nat.log2_self_le
        rintro hzero
        rw [hzero, Nat.log2_zero] at hlog
        omega
      rw [Nat.le_div_iff_mul_le hpos, Nat.pow_add] at hpower
      rw [le_div_iff₀ hdivisor]
      calc (2 : ℚ) ^ 52 * (denominator * 2 ^ shiftOf numerator denominator : Nat)
          = (2 ^ 52 * 2 ^ shiftOf numerator denominator * denominator : Nat) := by push_cast; ring
        _ ≤ numerator := by exact_mod_cast hpower

/-- On a grid of multiples, the rounded quotient gives the nearest one. -/
theorem abs_sub_multiple {value step : ℚ} (hstep : 0 < step) {near : Nat}
    (hnear : |value - near| ≤ 1 / 2) (heven : |value - near| = 1 / 2 → near % 2 = 0)
    (other : Nat) :
    |value * step - near * step| ≤ |value * step - other * step| ∧
      (other ≠ near → |value * step - near * step| = |value * step - other * step| →
        near % 2 = 0) := by
  have hscale : ∀ count : Nat, |value * step - count * step| = |value - count| * step := by
    intro count
    rw [← sub_mul, abs_mul, abs_of_pos hstep]
  rw [hscale, hscale]
  by_cases hother : other = near
  · subst hother
    exact ⟨le_refl _, fun hne => absurd rfl hne⟩
  · obtain ⟨hle, htie⟩ := abs_sub_le_of_half hnear hother
    refine ⟨mul_le_mul_of_nonneg_right hle hstep.le, fun _ hequal => ?_⟩
    exact heven (htie (mul_right_cancel₀ hstep.ne' hequal))

/-- A mantissa next to a shifted number of 53 bits makes the nearest word. -/
theorem closest_of_near {shifted : ℚ} {shift mantissa : Nat} (hhigh : shifted < 2 ^ 53)
    (hlow : shift = 0 ∨ 2 ^ 52 ≤ shifted) (hnear : |shifted - mantissa| ≤ 1 / 2)
    (heven : |shifted - mantissa| = 1 / 2 → mantissa % 2 = 0) :
    Closest (shifted * 2 ^ shift) (shift * 2 ^ 52 + mantissa) := by
  have hstep : (0 : ℚ) < 2 ^ shift := by positivity
  obtain ⟨hmantissa, hmantissa'⟩ := abs_le.mp hnear
  have hmantissaHigh : mantissa ≤ 2 ^ 53 := by
    have hless : (mantissa : ℚ) < (2 ^ 53 + 1 : Nat) := by push_cast; linarith
    exact Nat.lt_succ_iff.mp (by exact_mod_cast hless)
  have hmantissaLow : shift = 0 ∨ 2 ^ 52 ≤ mantissa := by
    refine hlow.imp_right fun hshifted => ?_
    have hless : ((2 ^ 52 : Nat) : ℚ) < (mantissa + 1 : Nat) := by push_cast; linarith
    exact Nat.lt_succ_iff.mp (by exact_mod_cast hless)
  have hword := wordUnits_mantissa hmantissaLow hmantissaHigh
  have hparity : (shift * 2 ^ 52 + mantissa) % 2 = mantissa % 2 := by omega
  have hmultiple := abs_sub_multiple hstep hnear heven
  have hother : ∀ other,
      |shifted * 2 ^ shift - mantissa * 2 ^ shift| ≤ |shifted * 2 ^ shift - wordUnits other| ∧
        (other ≠ shift * 2 ^ 52 + mantissa →
          |shifted * 2 ^ shift - mantissa * 2 ^ shift| = |shifted * 2 ^ shift - wordUnits other| →
          mantissa % 2 = 0) := by
    intro other
    by_cases hgrid : ∃ count, wordUnits other = count * 2 ^ shift
    · obtain ⟨count, hcount⟩ := hgrid
      have hcast : (wordUnits other : ℚ) = count * 2 ^ shift := by exact_mod_cast hcount
      rw [hcast]
      refine ⟨(hmultiple count).1, fun hdiffers => (hmultiple count).2 ?_⟩
      rintro rfl
      exact hdiffers (wordUnits_strictMono.injective (hcount.trans hword.symm))
    · -- Off the grid, counts lie below the least mantissa of 53 bits.
      have hbelow : wordUnits other < 2 ^ 52 * 2 ^ shift :=
        (wordUnits_grid other shift).resolve_right hgrid
      have hshifted : 2 ^ 52 ≤ shifted := by
        refine hlow.resolve_left ?_
        rintro rfl
        exact hgrid ⟨wordUnits other, by rw [Nat.pow_zero, Nat.mul_one]⟩
      have hcast : (wordUnits other : ℚ) < 2 ^ 52 * 2 ^ shift := by exact_mod_cast hbelow
      have hleast : (2 : ℚ) ^ 52 * 2 ^ shift ≤ shifted * 2 ^ shift :=
        mul_le_mul_of_nonneg_right hshifted hstep.le
      have hnearer := (hmultiple (2 ^ 52)).1
      rw [Nat.cast_pow, Nat.cast_ofNat, abs_of_nonneg (sub_nonneg.mpr hleast)] at hnearer
      rw [abs_of_pos (by linarith : (0 : ℚ) < shifted * 2 ^ shift - wordUnits other)]
      exact ⟨by linarith, fun _ hequal => by linarith⟩
  have hfound : (wordUnits (shift * 2 ^ 52 + mantissa) : ℚ) = mantissa * 2 ^ shift := by
    exact_mod_cast hword
  constructor
  · intro other
    rw [hfound]
    exact (hother other).1
  · intro other hdiffers hequal
    rw [hfound] at hequal
    rw [hparity]
    exact (hother other).2 hdiffers hequal

/-- Rounding gives the closest word. -/
theorem closest_roundedWord (numerator : Nat) {denominator : Nat} (hpos : 0 < denominator) :
    Closest (numerator / denominator) (roundedWord numerator denominator) := by
  obtain ⟨hhigh, hlow⟩ := shiftOf_bounds numerator hpos
  obtain ⟨hnear, heven⟩ := roundHalfEven_near numerator
    (Nat.mul_pos hpos (Nat.two_pow_pos (shiftOf numerator denominator)))
  have hunits : (numerator / denominator : ℚ) =
      numerator / (denominator * 2 ^ shiftOf numerator denominator : Nat) *
        2 ^ shiftOf numerator denominator := by
    have hdenominator : (denominator : ℚ) ≠ 0 := by exact_mod_cast hpos.ne'
    push_cast
    field_simp
  rw [hunits]
  exact closest_of_near hhigh hlow hnear heven

/-! ## Infinity -/

def halfStepExponent : Nat := 2044

/-- Half the step between the words next to infinity. -/
def halfStep : Nat := 2 ^ halfStepExponent

theorem wordUnits_infinityWord : wordUnits infinityWord = 2 ^ 54 * halfStep := by
  have hword : infinityWord = (halfStepExponent + 2) * 2 ^ 52 + 2 ^ 52 := rfl
  rw [hword, wordUnits_normal (halfStepExponent + 2) (Nat.le_refl _) (by decide), halfStep]
  ring

/-- The greatest finite word counts two half steps less than the word of
infinity. -/
theorem wordUnits_greatest : wordUnits (infinityWord - 1) = (2 ^ 54 - 2) * halfStep := by
  have hword : infinityWord - 1 = (halfStepExponent + 1) * 2 ^ 52 + (2 ^ 53 - 1) := rfl
  rw [hword, wordUnits_normal (halfStepExponent + 1) (by decide) (by decide), halfStep]
  ring

/-- The count half a step beyond the greatest finite word. -/
def overflowUnits : Nat := (2 ^ 54 - 1) * halfStep

/-- From half a step beyond the greatest finite word on, the closest word is not
finite. -/
theorem Closest.infinityWord_le_iff {units : ℚ} {word : Nat} (hclosest : Closest units word) :
    infinityWord ≤ word ↔ (overflowUnits : ℚ) ≤ units := by
  have hstep : (0 : ℚ) < halfStep := by exact_mod_cast Nat.two_pow_pos halfStepExponent
  have hinfinity : (wordUnits infinityWord : ℚ) = overflowUnits + halfStep := by
    rw [wordUnits_infinityWord, overflowUnits]
    push_cast
    ring
  have hgreatest : (wordUnits (infinityWord - 1) : ℚ) = overflowUnits - halfStep := by
    rw [wordUnits_greatest, overflowUnits]
    push_cast
    ring
  constructor
  · intro hword
    have hmono : (wordUnits infinityWord : ℚ) ≤ wordUnits word := by
      exact_mod_cast wordUnits_strictMono.monotone hword
    by_contra hbelow
    rw [not_le] at hbelow
    have hnearest := hclosest.nearest (infinityWord - 1)
    rw [abs_sub_comm, abs_of_pos (by linarith)] at hnearest
    have hnearer : |units - wordUnits (infinityWord - 1)| < wordUnits word - units :=
      abs_lt.mpr ⟨by linarith, by linarith⟩
    linarith
  · intro hunits
    by_contra hword
    have hbelow : word ≤ infinityWord - 1 := by omega
    have hmono : (wordUnits word : ℚ) ≤ wordUnits (infinityWord - 1) := by
      exact_mod_cast wordUnits_strictMono.monotone hbelow
    have hnearest := hclosest.nearest infinityWord
    have hdistance : |units - wordUnits word| = units - wordUnits word :=
      abs_of_pos (by linarith)
    -- Infinity is no farther than the word, so the word is the greatest finite one, which is odd.
    have hnearer : |units - wordUnits infinityWord| ≤ units - wordUnits word :=
      abs_le.mpr ⟨by linarith, by linarith⟩
    have htie : |units - wordUnits word| = |units - wordUnits infinityWord| := by
      rw [hdistance] at hnearest ⊢
      exact le_antisymm hnearest hnearer
    have heven := hclosest.even infinityWord (by omega) htie
    have hmost : (wordUnits (infinityWord - 1) : ℚ) ≤ wordUnits word := by
      rw [hdistance] at htie
      rcases le_total (wordUnits infinityWord : ℚ) units with habove | hwithin
      · rw [abs_of_nonneg (sub_nonneg.mpr habove)] at htie
        linarith
      · rw [abs_of_nonpos (sub_nonpos.mpr hwithin)] at htie
        linarith
    have hleast : infinityWord - 1 ≤ word :=
      wordUnits_strictMono.le_iff_le.mp (by exact_mod_cast hmost)
    have hodd : (infinityWord - 1) % 2 = 1 := rfl
    rw [Nat.le_antisymm hbelow hleast, hodd] at heven
    cases heven

end Lumen.Number
