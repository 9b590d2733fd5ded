import Mathlib
import Lumen.Proofs.NearestWord

/-!
# Doubles and the numbers they stand for

The fields of a double's word are its sign, an exponent and a mantissa.  Without
the sign, the word counts units as rounding assumes, and it is kept when it goes
through a double and back.  So the double that a decimal is rounded to is the
nearest one among all doubles, and infinity from half a step beyond the greatest
finite double on.
-/

namespace Lumen.Number

open Float.Model UnpackedFloat

/-! ## The fields of a word -/

section Fields

variable (bits : BitVec Format.binary64.numBits)

theorem toNat_unpackMantissa : (unpackMantissa bits).toNat = bits.toNat % 2 ^ 52 := by
  simp [unpackMantissa]

theorem toNat_unpackExponent : (unpackExponent bits).toNat = bits.toNat / 2 ^ 52 % 2 ^ 11 := by
  simp [unpackExponent, Nat.shiftRight_eq_div_pow]

theorem toNat_unpackSign : (unpackSign bits).toNat = bits.toNat / 2 ^ 63 := by
  have hbits : bits.toNat < 2 ^ 64 := bits.isLt
  have hshift : (unpackSign bits).toNat = bits.toNat / 2 ^ 63 % 2 := by
    simp [unpackSign, Nat.shiftRight_eq_div_pow]
  omega

def magnitude : Nat := bits.toNat % 2 ^ 63

theorem toNat_exponent : (unpackExponent bits).toNat = magnitude bits / 2 ^ 52 := by
  rw [toNat_unpackExponent, magnitude]
  omega

theorem toNat_mantissa : (unpackMantissa bits).toNat = magnitude bits % 2 ^ 52 := by
  rw [toNat_unpackMantissa, magnitude]
  omega

theorem exponent_eq_iff (exponent : BitVec 11) :
    unpackExponent bits = exponent ↔ magnitude bits / 2 ^ 52 = exponent.toNat := by
  rw [← toNat_exponent, BitVec.toNat_inj]

theorem mantissa_eq_iff (mantissa : BitVec 52) :
    unpackMantissa bits = mantissa ↔ magnitude bits % 2 ^ 52 = mantissa.toNat := by
  rw [← toNat_mantissa, BitVec.toNat_inj]

theorem toNat_implicit (mantissa : BitVec 52) :
    (1#1 ++ mantissa).toNat = 2 ^ 52 + mantissa.toNat := by
  rw [BitVec.toNat_append, ← Nat.shiftLeft_add_eq_or_of_lt mantissa.isLt, Nat.shiftLeft_eq]
  rfl

/-- A finite word other than zero unpacks to a mantissa and an exponent, which
give its magnitude back. -/
theorem unpack_finite (hpos : 0 < magnitude bits) (hfinite : magnitude bits < infinityWord) :
    ∃ (shift mantissa : Nat) (hmantissa : 0 < mantissa),
      UnpackedFloat.unpack Format.binary64 bits =
        .finite (Sign.ofBitVec (unpackSign bits)) mantissa (shift - 1074) hmantissa ∧
      magnitude bits = shift * 2 ^ 52 + mantissa ∧ mantissa < 2 ^ 53 ∧
      (shift = 0 ∨ 2 ^ 52 ≤ mantissa) := by
  have hinfinity : infinityWord = 2047 * 2 ^ 52 := rfl
  have hbias : (Format.binary64.exponentBias : Int) = 1023 := by decide
  have hlast : ¬ unpackExponent bits = -1#11 := by
    rw [exponent_eq_iff]
    change ¬ _ = 2047
    omega
  by_cases hzero : unpackExponent bits = 0#11
  · have hexponent : magnitude bits / 2 ^ 52 = 0 := (exponent_eq_iff bits 0#11).mp hzero
    have hmantissa : ¬ unpackMantissa bits = 0#52 := by
      rw [mantissa_eq_iff]
      change ¬ _ = 0
      omega
    refine ⟨0, magnitude bits % 2 ^ 52, by omega, ?_, by omega, by omega, .inl rfl⟩
    simp only [UnpackedFloat.unpack, if_neg hlast, if_pos hzero, dif_neg hmantissa, finite.injEq,
      true_and, toNat_exponent, toNat_mantissa, hexponent, hbias]
    decide
  · have hexponent : ¬ magnitude bits / 2 ^ 52 = 0 := mt (exponent_eq_iff bits 0#11).mpr hzero
    refine ⟨magnitude bits / 2 ^ 52 - 1, 2 ^ 52 + magnitude bits % 2 ^ 52, by omega, ?_, by omega,
      by omega, .inr (by omega)⟩
    simp only [UnpackedFloat.unpack, if_neg hlast, if_neg hzero, finite.injEq, true_and]
    constructor
    · rw [← toNat_mantissa]
      exact toNat_implicit _
    · rw [toNat_exponent, hbias]
      push_cast
      omega

theorem unpack_zero (hzero : magnitude bits = 0) :
    UnpackedFloat.unpack Format.binary64 bits = .zero (Sign.ofBitVec (unpackSign bits)) := by
  have hexponent : unpackExponent bits = 0#11 := by
    rw [exponent_eq_iff, hzero]
    rfl
  have hmantissa : unpackMantissa bits = 0#52 := by
    rw [mantissa_eq_iff, hzero]
    rfl
  have hlast : ¬ unpackExponent bits = -1#11 := by
    rw [hexponent]
    decide
  simp only [UnpackedFloat.unpack, if_neg hlast, if_pos hexponent, dif_pos hmantissa]

theorem unpack_infinity (hinfinite : magnitude bits = infinityWord) :
    UnpackedFloat.unpack Format.binary64 bits = .infinity (Sign.ofBitVec (unpackSign bits)) := by
  have hexponent : unpackExponent bits = -1#11 := by
    rw [exponent_eq_iff, hinfinite]
    rfl
  have hmantissa : unpackMantissa bits = 0#52 := by
    rw [mantissa_eq_iff, hinfinite]
    rfl
  simp only [UnpackedFloat.unpack, if_pos hexponent, if_pos hmantissa]

theorem unpack_notANumber (hbeyond : infinityWord < magnitude bits) :
    UnpackedFloat.unpack Format.binary64 bits = .notANumber := by
  have hbound : magnitude bits < 2 ^ 63 := Nat.mod_lt _ (by decide)
  have hinfinity : infinityWord = 2047 * 2 ^ 52 := rfl
  have hexponent : unpackExponent bits = -1#11 := by
    rw [exponent_eq_iff]
    change _ = 2047
    omega
  have hmantissa : ¬ unpackMantissa bits = 0#52 := by
    rw [mantissa_eq_iff]
    change ¬ _ = 0
    omega
  simp only [UnpackedFloat.unpack, if_pos hexponent, if_neg hmantissa]

/-- The words of numbers and infinities are packed into what they were unpacked
from. -/
theorem pack_unpack_of_le (hnumber : magnitude bits ≤ infinityWord) :
    UnpackedFloat.pack Format.binary64 (UnpackedFloat.unpack Format.binary64 bits) = bits := by
  have hinfinity : infinityWord = 2047 * 2 ^ 52 := rfl
  have hnot : ¬ isNaNBits bits := by
    rw [isNaNBits, decide_eq_true_iff, exponent_eq_iff, ne_eq, mantissa_eq_iff]
    change ¬ (_ = 2047 ∧ ¬ _ = 0)
    omega
  rw [pack_unpack bits (by decide), if_neg hnot]

theorem sign_eq : Sign.ofBitVec (unpackSign bits) =
    if 2 ^ 63 ≤ bits.toNat then .negative else .positive := by
  have hbits : bits.toNat < 2 ^ 64 := bits.isLt
  have hzero : unpackSign bits = 0#1 ↔ ¬ 2 ^ 63 ≤ bits.toNat := by
    rw [← BitVec.toNat_inj, toNat_unpackSign]
    change _ = 0 ↔ _
    omega
  rw [Sign.ofBitVec, if_congr hzero rfl rfl, ite_not]

/-! ## Words as numbers -/

/-- A unit is two to the negative of this exponent. -/
def unitExponent : Nat := 1074

theorem unitsPerOne_eq : unitsPerOne = 2 ^ unitExponent := by
  decide +kernel

theorem zpow_sub_units (shift : Nat) :
    (2 : ℚ) ^ ((shift : Int) - 1074) = 2 ^ shift / unitsPerOne := by
  change (2 : ℚ) ^ ((shift : Int) - unitExponent) = _
  rw [zpow_sub₀ two_ne_zero, zpow_natCast, zpow_natCast, unitsPerOne_eq, Nat.cast_pow,
    Nat.cast_ofNat]

/-- The number that unpacked fields stand for, if it is finite. -/
def rationalOf : UnpackedFloat → Option ℚ
  | .infinity _ => none
  | .notANumber => none
  | .zero _ => some 0
  | .finite sign mantissa exponent _ => some (sign.apply mantissa * 2 ^ exponent)

/-- A word stands for the units that it counts, with its sign. -/
theorem rationalOf_unpack_eq_some_iff {number : ℚ} :
    rationalOf (UnpackedFloat.unpack Format.binary64 bits) = some number ↔
      magnitude bits < infinityWord ∧
        number = (if 2 ^ 63 ≤ bits.toNat then -1 else 1) *
          (wordUnits (magnitude bits) / unitsPerOne) := by
  rcases Nat.lt_trichotomy (magnitude bits) infinityWord with hfinite | hinfinite | hbeyond
  · rw [and_iff_right hfinite]
    rcases Nat.eq_zero_or_pos (magnitude bits) with hzero | hpos
    · rw [unpack_zero bits hzero, rationalOf, hzero, wordUnits_of_lt (by decide),
        Nat.cast_zero, zero_div, mul_zero, Option.some_inj, eq_comm]
    · obtain ⟨shift, mantissa, hmantissa, hunpack, hsplit, hhigh, hlow⟩ :=
        unpack_finite bits hpos hfinite
      rw [hunpack, rationalOf, hsplit, wordUnits_mantissa hlow hhigh.le, sign_eq, zpow_sub_units,
        Nat.cast_mul, Nat.cast_pow, Nat.cast_ofNat, mul_div_assoc, Option.some_inj, eq_comm]
      split
      · rw [Sign.apply, Int.cast_neg, Int.cast_natCast, neg_mul, neg_one_mul]
      · rw [Sign.apply, Int.cast_natCast, one_mul]
  · simp only [unpack_infinity bits hinfinite, hinfinite, rationalOf, reduceCtorEq, lt_irrefl,
      false_and]
  · simp only [unpack_notANumber bits hbeyond, rationalOf, reduceCtorEq, hbeyond.not_gt, false_and]

end Fields

/-- A double keeps the word that it is made from, unless the word is not a
number. -/
theorem toBits_ofBits {word : UInt64} (hnumber : word.toNat % signWord ≤ infinityWord) :
    (Float.ofBits word).toBits = word :=
  UInt64.eq_of_toBitVec_eq (pack_unpack_of_le word.toBitVec hnumber)

def rational? (value : Float) : Option ℚ :=
  rationalOf value.toModel.unpack

/-- A finite double stands for the units that its word counts, with its sign. -/
theorem rational?_eq_some_iff {value : Float} {number : ℚ} :
    rational? value = some number ↔ magnitudeWord value < infinityWord ∧
      number = (if isNegative value then -1 else 1) *
        (wordUnits (magnitudeWord value) / unitsPerOne) := by
  rw [rational?, isNegative, if_congr decide_eq_true_iff rfl rfl]
  exact rationalOf_unpack_eq_some_iff value.toBits.toBitVec

/-! ## The nearest double -/

/-- Half a step beyond the greatest finite double. -/
def overflow : ℚ := 2 ^ 1024 - 2 ^ 970

/-- The double that a number is rounded to.  Among all finite doubles none is
nearer, and the last bit is zero if another one is as near.  From half a step
beyond the greatest finite double on it is infinity. -/
inductive Rounds (number : ℚ) (value : Float) : Prop
  | finite (found : ℚ) (hfound : rational? value = some found) (hsign : isNegative value = false)
      (hbound : number < overflow)
      (hnearest : ∀ other near, rational? other = some near → |number - found| ≤ |number - near|)
      (heven : ∀ other near, rational? other = some near → near ≠ found →
        |number - found| = |number - near| → value.toBits.toNat % 2 = 0)
  | infinite (hinfinite : value.toModel.unpack = .infinity .positive) (hbound : overflow ≤ number)

theorem units_pos : (0 : ℚ) < unitsPerOne := by
  rw [unitsPerOne_eq]
  exact_mod_cast Nat.two_pow_pos unitExponent

theorem overflow_mul_units : overflow * unitsPerOne = overflowUnits := by
  have hcast : ∀ power half : Nat,
      overflowUnits + 2 ^ half * unitsPerOne = 2 ^ power * unitsPerOne →
      ((2 : ℚ) ^ power - 2 ^ half) * unitsPerOne = overflowUnits := by
    intro power half hunits
    have hrational := congrArg (Nat.cast : Nat → ℚ) hunits
    push_cast at hrational
    linarith
  rw [overflow]
  exact hcast 1024 970 (by decide +kernel)

theorem toBits_ofWord {word : Nat} (hword : word ≤ infinityWord) :
    (Float.ofBits word.toUInt64).toBits.toNat = word := by
  have hinfinity : infinityWord = 2047 * 2 ^ 52 := rfl
  have hsign : signWord = 2 ^ 63 := rfl
  have hnat : word.toUInt64.toNat = word := Nat.mod_eq_of_lt (by omega)
  rw [toBits_ofBits (by rw [hnat]; exact Nat.le_trans (Nat.mod_le _ _) hword), hnat]

theorem magnitudeWord_ofWord {word : Nat} (hword : word ≤ infinityWord) :
    magnitudeWord (Float.ofBits word.toUInt64) = word := by
  have hinfinity : infinityWord = 2047 * 2 ^ 52 := rfl
  have hsign : signWord = 2 ^ 63 := rfl
  rw [magnitudeWord, toBits_ofWord hword]
  exact Nat.mod_eq_of_lt (by omega)

theorem isNegative_ofWord {word : Nat} (hword : word ≤ infinityWord) :
    isNegative (Float.ofBits word.toUInt64) = false := by
  have hinfinity : infinityWord = 2047 * 2 ^ 52 := rfl
  have hsign : signWord = 2 ^ 63 := rfl
  rw [isNegative, toBits_ofWord hword, decide_eq_false_iff_not]
  omega

theorem unpack_infinityWord :
    (Float.ofBits infinityWord.toUInt64).toModel.unpack = .infinity .positive := by
  have hword : (Float.ofBits infinityWord.toUInt64).toBits.toBitVec.toNat = infinityWord :=
    toBits_ofWord (Nat.le_refl _)
  have hsign : ¬ 2 ^ 63 ≤ infinityWord := by decide
  have hunpack := unpack_infinity (Float.ofBits infinityWord.toUInt64).toBits.toBitVec
    (magnitudeWord_ofWord (Nat.le_refl _))
  rw [sign_eq, hword, if_neg hsign] at hunpack
  exact hunpack

/-- The number that a word without sign stands for. -/
def wordValue (word : Nat) : ℚ :=
  wordUnits word / unitsPerOne

theorem wordValue_nonneg (word : Nat) : 0 ≤ wordValue word :=
  div_nonneg (Nat.cast_nonneg _) units_pos.le

theorem wordValue_zero : wordValue 0 = 0 := by
  rw [wordValue, wordUnits_of_lt (by decide), Nat.cast_zero, zero_div]

/-- A double stands for the value of its magnitude or for the negative of it. -/
theorem eq_or_eq_neg_of_rational? {value : Float} {number : ℚ}
    (hvalue : rational? value = some number) :
    number = wordValue (magnitudeWord value) ∨ number = -wordValue (magnitudeWord value) := by
  obtain ⟨-, hnumber⟩ := rational?_eq_some_iff.mp hvalue
  split at hnumber
  · exact .inr (by rw [hnumber, neg_one_mul]; rfl)
  · exact .inl (by rw [hnumber, one_mul]; rfl)

section Closest

variable {number : ℚ} {word : Nat} (hclosest : Closest (number * unitsPerOne) word)
include hclosest

/-- No other word is nearer, and the word is even if another one is as near. -/
theorem Closest.abs_sub_le (other : Nat) :
    |number - wordValue word| ≤ |number - wordValue other| ∧
      (other ≠ word → |number - wordValue word| = |number - wordValue other| → word % 2 = 0) := by
  have hscale : ∀ word, |number - wordValue word| * unitsPerOne =
      |number * unitsPerOne - wordUnits word| := by
    intro word
    rw [← abs_of_pos units_pos, ← abs_mul, abs_of_pos units_pos, sub_mul, wordValue,
      div_mul_cancel₀ _ units_pos.ne']
  constructor
  · rw [← mul_le_mul_iff_left₀ units_pos, hscale, hscale]
    exact hclosest.nearest other
  · intro hother hequal
    refine hclosest.even other hother ?_
    rw [← hscale, ← hscale, hequal]

/-- A negative double is farther from a number that is not negative than the
same double without its sign. -/
theorem Closest.abs_sub_le_of_rational? (hnonneg : 0 ≤ number) {other : Float} {near : ℚ}
    (hother : rational? other = some near) :
    |number - wordValue word| ≤ |number - near| ∧
      (near ≠ wordValue word → |number - wordValue word| = |number - near| → word % 2 = 0) := by
  obtain ⟨hle, heven⟩ := hclosest.abs_sub_le (magnitudeWord other)
  have hsize := wordValue_nonneg (magnitudeWord other)
  rcases eq_or_eq_neg_of_rational? hother with rfl | rfl
  · refine ⟨hle, fun hdiffers => heven ?_⟩
    rintro rfl
    exact hdiffers rfl
  · have hfarther : |number - wordValue (magnitudeWord other)| ≤
        |number - -wordValue (magnitudeWord other)| := by
      rw [sub_neg_eq_add, abs_of_nonneg (add_nonneg hnonneg hsize)]
      exact abs_le.mpr ⟨by linarith, by linarith⟩
    refine ⟨hle.trans hfarther, fun hdiffers hequal => heven ?_ ?_⟩
    · rintro rfl
      -- Both signs of one size are equally near to zero only, where the size is zero.
      have hzero := (hclosest.abs_sub_le 0).1
      rw [wordValue_zero, sub_zero, abs_of_nonneg hnonneg] at hzero
      rw [sub_neg_eq_add, abs_of_nonneg (add_nonneg hnonneg hsize)] at hequal
      have hnone : wordValue (magnitudeWord other) = 0 := by linarith
      exact hdiffers (by rw [hnone, neg_zero])
    · exact le_antisymm hle (hequal ▸ hfarther)

/-- The double of the closest word is the one that a number is rounded to, and
infinity if the word is beyond all finite ones. -/
theorem Closest.rounds (hnonneg : 0 ≤ number) :
    Rounds number (Float.ofBits (min word infinityWord).toUInt64) := by
  have hoverflow : infinityWord ≤ word ↔ overflow ≤ number := by
    rw [hclosest.infinityWord_le_iff, ← overflow_mul_units, mul_le_mul_iff_left₀ units_pos]
  rcases Nat.lt_or_ge word infinityWord with hfinite | hinfinite
  · rw [Nat.min_eq_left hfinite.le]
    refine .finite (wordValue word) ?_ (isNegative_ofWord hfinite.le)
      (not_le.mp (mt hoverflow.mpr (Nat.not_le.mpr hfinite))) ?_ ?_
    · rw [rational?_eq_some_iff, magnitudeWord_ofWord hfinite.le, isNegative_ofWord hfinite.le]
      exact ⟨hfinite, by rw [if_neg Bool.false_ne_true, one_mul, wordValue]⟩
    · intro other near hother
      exact (hclosest.abs_sub_le_of_rational? hnonneg hother).1
    · intro other near hother
      rw [toBits_ofWord hfinite.le]
      exact (hclosest.abs_sub_le_of_rational? hnonneg hother).2
  · rw [Nat.min_eq_right hinfinite]
    exact .infinite (unpack_infinityWord) (hoverflow.mp hinfinite)

end Closest

def Decimal.value (decimal : Decimal) : ℚ :=
  decimal.digits * 10 ^ decimal.exponent

theorem Decimal.value_eq (decimal : Decimal) :
    decimal.value = decimal.numerator / decimal.denominator := by
  rw [Decimal.value, Decimal.numerator, Decimal.denominator, Nat.pow_eq, Nat.pow_eq]
  obtain ⟨places, hplaces | hplaces⟩ := Int.eq_nat_or_neg decimal.exponent
  · simp [hplaces]
  · simp [hplaces, div_eq_mul_inv]

/-- Rounding a decimal gives the closest word. -/
theorem Decimal.closest_roundedWord (decimal : Decimal) :
    Closest (decimal.value * unitsPerOne)
      (roundedWord (decimal.numerator * unitsPerOne) decimal.denominator) := by
  have hpos : 0 < decimal.denominator := Nat.pow_pos (by decide)
  have hunits : ((decimal.numerator * unitsPerOne : Nat) : ℚ) / decimal.denominator =
      decimal.value * unitsPerOne := by
    rw [decimal.value_eq, Nat.cast_mul, div_mul_eq_mul_div]
  rw [← hunits]
  exact Number.closest_roundedWord (decimal.numerator * unitsPerOne) hpos

/-- The double of a decimal is the one that its value is rounded to. -/
theorem Decimal.rounds_toFloat (decimal : Decimal) : Rounds decimal.value decimal.toFloat := by
  have hnonneg : 0 ≤ decimal.value := by
    rw [decimal.value_eq]
    exact div_nonneg (Nat.cast_nonneg _) (Nat.cast_nonneg _)
  rw [Decimal.toFloat, Decimal.word, nearestWord_eq_min]
  exact decimal.closest_roundedWord.rounds hnonneg

end Lumen.Number
