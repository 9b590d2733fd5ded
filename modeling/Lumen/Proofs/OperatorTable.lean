import Mathlib
import Lumen.Proofs.Variants

/-!
# The table of operators

Which operators are defined for two values depends on the variants of the values
alone, and a short table says it all.  What the comparisons of two numbers say, and
how two numbers are ordered, is read off one three-way comparison, which has no
answer if one of them is not a number.
-/

namespace Lumen

/-! ## Names of operators -/

namespace Kind

theorem ofName_name {kind : Kind} (hkind : kind ∈ all) : ofName kind.name = kind := by
  have hall : ∀ kind ∈ all, ofName kind.name = kind := by decide +kernel
  exact hall kind hkind

/-- A name stands for a kind of the language if it is the name of that kind. -/
theorem ofName_eq_iff {kind : Kind} (hkind : kind ∈ all) (name : String) :
    ofName name = kind ↔ name = kind.name := by
  constructor
  · intro hname
    rw [ofName] at hname
    cases hfound : all.find? fun kind => kind.name == name with
    | none =>
        rw [hfound, Option.getD_none] at hname
        subst hname
        simp [all] at hkind
    | some found =>
        have hsame := List.find?_some hfound
        rw [hfound, Option.getD_some] at hname
        subst hname
        exact (beq_iff_eq.mp hsame).symm
  · rintro rfl
    exact ofName_name hkind

theorem ofName_mem_iff {kinds : List Kind} (hkinds : kinds ⊆ all) (name : String) :
    ofName name ∈ kinds ↔ name ∈ kinds.map Kind.name := by
  rw [List.mem_map]
  constructor
  · intro hmem
    exact ⟨ofName name, hmem, ((ofName_eq_iff (hkinds hmem) name).mp rfl).symm⟩
  · rintro ⟨kind, hmem, rfl⟩
    rwa [ofName_name (hkinds hmem)]

end Kind

/-! ## The table -/

namespace Operator

def byName (operator : String) (left right : Value) : Value :=
  binary (Kind.ofName operator) left right

/-- The operators that tell values equal or different. -/
def equalities : List String := ["EQUAL_EQUAL", "BANG_EQUAL"]

def onNumberNames : List String :=
  ["PLUS", "MINUS", "STAR", "SLASH", "GREATER", "GREATER_EQUAL", "LESS", "LESS_EQUAL"] ++ equalities

/-- The table of operators: two numbers, two operands that a plus sign joins to a
text, two booleans, and nil with anything. -/
inductive Supports (operator : String) : Variant → Variant → Prop
  | numbers (hoperator : operator ∈ onNumberNames) : Supports operator .number .number
  | texts (hoperator : operator ∈ "PLUS" :: equalities) : Supports operator .text .text
  | numberText (hoperator : operator ∈ "PLUS" :: equalities) : Supports operator .number .text
  | textNumber (hoperator : operator ∈ "PLUS" :: equalities) : Supports operator .text .number
  | booleans (hoperator : operator ∈ equalities) : Supports operator .boolean .boolean
  | nilLeft (right : Variant) (hoperator : operator ∈ equalities) : Supports operator .nil right
  | nilRight (left : Variant) (hoperator : operator ∈ equalities) : Supports operator left .nil

/-- Operands that can only be told equal or different. -/
theorem mem_equalities_iff (operator : String) :
    operator ∈ equalities ↔ Variant.onEquality (Kind.ofName operator) ≠ .invalid := by
  have hkinds : ∀ kind, Variant.onEquality kind ≠ .invalid ↔
      kind ∈ [Kind.equalEqual, Kind.bangEqual] := by
    intro kind
    cases kind <;> simp [Variant.onEquality]
  rw [hkinds, Kind.ofName_mem_iff (by decide)]
  rfl

/-- Operands that a plus sign joins. -/
theorem mem_plus_equalities_iff (operator : String) :
    operator ∈ "PLUS" :: equalities ↔ Variant.onTexts (Kind.ofName operator) ≠ .invalid := by
  have hkinds : ∀ kind, Variant.onTexts kind ≠ .invalid ↔
      kind ∈ [Kind.plus, Kind.equalEqual, Kind.bangEqual] := by
    intro kind
    cases kind <;> simp [Variant.onTexts, Variant.onEquality]
  rw [hkinds, Kind.ofName_mem_iff (by decide)]
  rfl

theorem mem_onNumberNames_iff (operator : String) :
    operator ∈ onNumberNames ↔ Variant.onNumbers (Kind.ofName operator) ≠ .invalid := by
  have hkinds : ∀ kind, Variant.onNumbers kind ≠ .invalid ↔
      kind ∈ [Kind.plus, Kind.minus, Kind.star, Kind.slash, Kind.greater, Kind.greaterEqual,
        Kind.less, Kind.lessEqual, Kind.equalEqual, Kind.bangEqual] := by
    intro kind
    cases kind <;> simp [Variant.onNumbers]
  rw [hkinds, Kind.ofName_mem_iff (by decide)]
  rfl

/-- The table lists exactly the operators that give a result. -/
theorem supports_iff (operator : String) (left right : Variant) :
    Supports operator left right ↔
      Variant.binary (Kind.ofName operator) left right ≠ .invalid := by
  constructor
  · intro hsupports
    cases hsupports with
    | numbers hoperator => exact (mem_onNumberNames_iff operator).mp hoperator
    | texts hoperator => exact (mem_plus_equalities_iff operator).mp hoperator
    | numberText hoperator => exact (mem_plus_equalities_iff operator).mp hoperator
    | textNumber hoperator => exact (mem_plus_equalities_iff operator).mp hoperator
    | booleans hoperator => exact (mem_equalities_iff operator).mp hoperator
    | nilLeft right hoperator =>
        cases right <;> exact (mem_equalities_iff operator).mp hoperator
    | nilRight left hoperator =>
        cases left <;> exact (mem_equalities_iff operator).mp hoperator
  · fun_cases Variant.binary (Kind.ofName operator) left right with
    | case1 => exact fun hdefined => .numbers ((mem_onNumberNames_iff operator).mpr hdefined)
    | case2 => exact fun hdefined => .texts ((mem_plus_equalities_iff operator).mpr hdefined)
    | case3 => exact fun hdefined => .numberText ((mem_plus_equalities_iff operator).mpr hdefined)
    | case4 => exact fun hdefined => .textNumber ((mem_plus_equalities_iff operator).mpr hdefined)
    | case5 => exact fun hdefined => .booleans ((mem_equalities_iff operator).mpr hdefined)
    | case6 => exact fun hdefined => .nilLeft right ((mem_equalities_iff operator).mpr hdefined)
    | case7 => exact fun hdefined => .nilRight left ((mem_equalities_iff operator).mpr hdefined)
    | case8 => exact fun hdefined => absurd rfl hdefined

/-- An operation is undefined exactly where the table does not list it. -/
theorem byName_eq_invalid_iff (operator : String) (left right : Value) :
    byName operator left right = .invalid ↔ ¬ Supports operator left.variant right.variant := by
  have hvariant : ∀ value : Value, value = .invalid ↔ value.variant = .invalid := by
    intro value
    cases value <;> simp
  rw [supports_iff, ← variant_binary, not_not, byName, hvariant]

/-- The table does not tell left from right. -/
theorem Supports.symm {operator : String} {left right : Variant}
    (hsupports : Supports operator left right) : Supports operator right left := by
  cases hsupports with
  | numbers hoperator => exact .numbers hoperator
  | texts hoperator => exact .texts hoperator
  | numberText hoperator => exact .textNumber hoperator
  | textNumber hoperator => exact .numberText hoperator
  | booleans hoperator => exact .booleans hoperator
  | nilLeft right hoperator => exact .nilRight right hoperator
  | nilRight left hoperator => exact .nilLeft left hoperator

/-! ## Equality and joining -/

theorem same_comm (left right : Value) : left.same right = right.same left := by
  cases left <;> cases right <;> simp [Value.same, BEq.comm]

/-- Where equality is defined, it is that of values, and the other operator says
the opposite. -/
theorem byName_equalities {left right : Value}
    (hsupports : Supports "EQUAL_EQUAL" left.variant right.variant) :
    byName "EQUAL_EQUAL" left right = .boolean (left.same right) ∧
      byName "BANG_EQUAL" left right = .boolean (!left.same right) := by
  have hdefined : binary .equalEqual left right ≠ .invalid := fun hinvalid =>
    (byName_eq_invalid_iff "EQUAL_EQUAL" left right).mp hinvalid hsupports
  change binary .equalEqual left right = _ ∧ binary .bangEqual left right = _
  cases left <;> cases right <;>
    simp [binary, onNumbers, onTexts, onEquality, Value.same, bne] at hdefined ⊢

/-- A text joins with the text that the other operand is shown as. -/
theorem byName_plus {left right : Value} (hsupports : Supports "PLUS" left.variant right.variant)
    (htext : left.variant = .text ∨ right.variant = .text) :
    byName "PLUS" left right = .text (left.display ++ right.display) := by
  have hdefined : binary .plus left right ≠ .invalid := fun hinvalid =>
    (byName_eq_invalid_iff "PLUS" left right).mp hinvalid hsupports
  change binary .plus left right = _
  cases left <;> cases right <;>
    simp [binary, onTexts, onEquality, Value.display] at hdefined htext ⊢

end Operator

/-! ## Numbers -/

namespace Number

open Float.Model

/-- Two numbers have an order unless one of them is not a number. -/
theorem compare_eq_none_iff (left right : UnpackedFloat) :
    left.compare right = none ↔ (left.isNaN || right.isNaN) = true := by
  rw [Bool.or_eq_true, UnpackedFloat.isNaN_iff, UnpackedFloat.isNaN_iff]
  fun_cases UnpackedFloat.compare left right <;> simp_all

/-- Swapping two numbers swaps the answer. -/
theorem compare_swap (left right : UnpackedFloat) :
    right.compare left = (left.compare right).map Ordering.swap := by
  cases left with
  | notANumber => cases right <;> rfl
  | infinity sign =>
      cases right with
      | notANumber => cases sign <;> rfl
      | infinity sign' => cases sign <;> cases sign' <;> rfl
      | zero sign' => cases sign <;> rfl
      | finite sign' => cases sign <;> rfl
  | zero sign =>
      cases right with
      | notANumber => rfl
      | infinity sign' => cases sign' <;> rfl
      | zero sign' => rfl
      | finite sign' => cases sign' <;> rfl
  | finite sign mantissa exponent =>
      cases right with
      | notANumber => cases sign <;> rfl
      | infinity sign' => cases sign <;> cases sign' <;> rfl
      | zero sign' => cases sign <;> rfl
      | finite sign' mantissa' exponent' =>
          have hswap : (compare exponent' exponent).then (compare mantissa' mantissa) =
              ((compare exponent exponent').then (compare mantissa mantissa')).swap := by
            rw [Ordering.swap_then, ← Std.OrientedCmp.eq_swap, ← Std.OrientedCmp.eq_swap]
          cases sign <;> cases sign' <;> simp [UnpackedFloat.compare, hswap]

/-- The order of two numbers, unless one of them is not a number. -/
def compare? (left right : Float) : Option Ordering :=
  left.toModel.unpack.compare right.toModel.unpack

section Comparisons

variable (left right : Float)

theorem lt_iff : left < right ↔ compare? left right = some .lt := by
  change decide (left.toModel.unpack.lt right.toModel.unpack = true) = true ↔ _
  rw [decide_eq_true_iff, UnpackedFloat.lt, beq_iff_eq]
  rfl

theorem le_iff :
    left ≤ right ↔ compare? left right = some .lt ∨ compare? left right = some .eq := by
  change decide ((compare? left right).any (·.isLE) = true) = true ↔ _
  rw [decide_eq_true_iff]
  cases compare? left right with
  | none => simp
  | some order => cases order <;> simp

theorem beq_iff : (left == right) = true ↔ compare? left right = some .eq := by
  change (compare? left right == some .eq) = true ↔ _
  rw [beq_iff_eq]

theorem compare?_eq_none_iff :
    compare? left right = none ↔ (left.isNaN || right.isNaN) = true :=
  compare_eq_none_iff left.toModel.unpack right.toModel.unpack

theorem compare?_swap : compare? right left = (compare? left right).map Ordering.swap :=
  compare_swap left.toModel.unpack right.toModel.unpack

theorem gt_iff : right < left ↔ compare? left right = some .gt := by
  rw [lt_iff, compare?_swap left right]
  cases compare? left right with
  | none => simp
  | some order => cases order <;> simp

/-- Two numbers are ordered as they are compared. -/
theorem order?_number : Value.order? (.number left) (.number right) = compare? left right := by
  rw [Value.order?]
  simp only [← compare?_eq_none_iff, lt_iff left right, gt_iff left right]
  cases compare? left right with
  | none => simp
  | some order => cases order <;> simp

end Comparisons

end Number

namespace Operator

/-- The comparisons of two numbers are read off their order. -/
theorem byName_comparisons (left right : Float) :
    let order := Value.order? (.number left) (.number right)
    byName "LESS" (.number left) (.number right) = .boolean (order == some .lt) ∧
      byName "EQUAL_EQUAL" (.number left) (.number right) = .boolean (order == some .eq) ∧
      byName "GREATER" (.number left) (.number right) = .boolean (order == some .gt) ∧
      byName "GREATER_EQUAL" (.number left) (.number right) =
        .boolean (order == some .gt || order == some .eq) ∧
      byName "LESS_EQUAL" (.number left) (.number right) =
        .boolean (order == some .lt || order == some .eq) := by
  intro order
  have horder : order = Number.compare? left right := Number.order?_number left right
  have hgreaterEqual : right ≤ left ↔
      Number.compare? left right = some .gt ∨ Number.compare? left right = some .eq := by
    rw [Number.le_iff, Number.compare?_swap left right]
    cases Number.compare? left right with
    | none => simp
    | some order => cases order <;> simp
  have hboolean : ∀ {held expected : Bool}, (held = true ↔ expected = true) →
      Value.boolean held = .boolean expected := fun hsame =>
    congrArg Value.boolean (Bool.eq_iff_iff.mpr hsame)
  rw [horder]
  refine ⟨hboolean ?_, hboolean ?_, hboolean ?_, hboolean ?_, hboolean ?_⟩
  · rw [decide_eq_true_iff, Number.lt_iff, beq_iff_eq]
  · rw [Number.beq_iff, beq_iff_eq]
  · rw [decide_eq_true_iff, Number.gt_iff, beq_iff_eq]
  · rw [decide_eq_true_iff, hgreaterEqual, Bool.or_eq_true, beq_iff_eq, beq_iff_eq]
  · rw [decide_eq_true_iff, Number.le_iff, Bool.or_eq_true, beq_iff_eq, beq_iff_eq]

/-- An operator gives a result for two values exactly if the table of operators has
it for their variants.  Where the two equality operators are defined, they say the
opposite of each other and the same for both orders of the operands.  The other
comparisons of two numbers agree with one another and with the order of numbers,
which is missing exactly if none of them holds.  A plus sign with a text gives the
text of both operands. -/
theorem operators_follow_table (operator : String) (left right : Value) :
    (byName operator left right = .invalid ↔ ¬ Supports operator left.variant right.variant) ∧
    (Supports "EQUAL_EQUAL" left.variant right.variant →
      byName "EQUAL_EQUAL" left right = .boolean (left.same right) ∧
        byName "BANG_EQUAL" left right = .boolean (!left.same right) ∧
        byName "EQUAL_EQUAL" right left = byName "EQUAL_EQUAL" left right ∧
        byName "BANG_EQUAL" right left = byName "BANG_EQUAL" left right) ∧
    (left.variant = .number → right.variant = .number → ∃ less equal greater : Bool,
      byName "LESS" left right = .boolean less ∧
        byName "EQUAL_EQUAL" left right = .boolean equal ∧
        byName "GREATER" left right = .boolean greater ∧
        byName "GREATER_EQUAL" left right = .boolean (greater || equal) ∧
        byName "LESS_EQUAL" left right = .boolean (less || equal) ∧
        byName "GREATER" right left = .boolean less ∧
        (left.order? right = some .lt ↔ less = true) ∧
        (left.order? right = some .eq ↔ equal = true) ∧
        (left.order? right = some .gt ↔ greater = true) ∧
        (left.order? right = none ↔ less = false ∧ equal = false ∧ greater = false)) ∧
    (Supports "PLUS" left.variant right.variant → left.variant = .text ∨ right.variant = .text →
      byName "PLUS" left right = .text (left.display ++ right.display)) := by
  refine ⟨byName_eq_invalid_iff operator left right, ?_, ?_, byName_plus⟩
  · intro hsupports
    obtain ⟨hequal, hdifferent⟩ := byName_equalities hsupports
    obtain ⟨hequal', hdifferent'⟩ := byName_equalities hsupports.symm
    rw [hequal, hdifferent, hequal', hdifferent', same_comm right left]
    exact ⟨rfl, rfl, rfl, rfl⟩
  · intro hleft hright
    cases left with
    | number left =>
        cases right with
        | number right =>
            obtain ⟨hless, hequal, hgreater, hgreaterEqual, hlessEqual⟩ :=
              byName_comparisons left right
            refine ⟨_, _, _, hless, hequal, hgreater, hgreaterEqual, hlessEqual, hless, ?_⟩
            cases Value.order? (.number left) (.number right) with
            | none => simp
            | some order => cases order <;> simp
        | text | boolean | nil | invalid => cases hright
    | text | boolean | nil | invalid => cases hleft

/-- Something that is not a number is not ordered, so all comparisons with it fail and it
differs even from itself.  Nil with a text has two operators, and a text absorbs a number. -/
theorem operators_follow_table_nan :
    let nan := Value.number (Float.ofBits 0x7FF8000000000000)
    let one := Value.number 1
    byName "LESS_EQUAL" nan one = .boolean false ∧ nan.order? one = none ∧
      byName "EQUAL_EQUAL" nan nan = .boolean false ∧ byName "BANG_EQUAL" nan nan = .boolean true ∧
      byName "LESS" .nil (.text "a") = .invalid ∧
      byName "EQUAL_EQUAL" (.text "a") .nil = byName "EQUAL_EQUAL" .nil (.text "a") ∧
      byName "PLUS" (.text "a") one = .text "a1" := by
  intro nan one
  have hnone : nan.order? one = none := by decide +kernel
  obtain ⟨-, -, hcompare, -⟩ := operators_follow_table "LESS_EQUAL" nan one
  obtain ⟨less, equal, greater, -, -, -, -, hlessEqual, -, -, -, -, hunordered⟩ := hcompare rfl rfl
  obtain ⟨rfl, rfl, -⟩ := hunordered.mp hnone
  obtain ⟨-, hsame, -⟩ := operators_follow_table "EQUAL_EQUAL" nan nan
  obtain ⟨hequal, hdifferent, -⟩ := hsame (.numbers (by decide))
  obtain ⟨hinvalid, hnil, -⟩ := operators_follow_table "LESS" .nil (.text "a")
  obtain ⟨-, -, hswapped, -⟩ := hnil (.nilLeft _ (by decide))
  obtain ⟨-, -, -, hjoined⟩ := operators_follow_table "PLUS" (.text "a") one
  have hself : nan.same nan = false := by decide +kernel
  have hdisplay : (Value.text "a").display ++ one.display = "a1" := by decide +kernel
  rw [hself] at hequal hdifferent
  refine ⟨hlessEqual, hnone, hequal, hdifferent, hinvalid.mpr ?_, hswapped, ?_⟩
  · intro hsupports
    cases hsupports with
    | nilLeft _ hoperator => exact absurd hoperator (by decide)
  · rw [hjoined (.textNumber (by decide)) (.inl rfl), hdisplay]

end Operator

end Lumen
