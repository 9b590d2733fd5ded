import Lumen.Scan
import Lumen.Proofs.Trace

/-!
# What values are good for

A run looks at its values only to compute other values.  Which variant an
operator gives, and whether it is defined at all, depends on the variants of its
operands.  So two runs of one program, whose variables agree in their variants,
go through the same steps: statement by statement they fail in the same way or
not at all, and their variables agree again at the end.
-/

namespace Lumen

/-- A value without what it holds. -/
inductive Variant where
  | number | text | boolean | nil | invalid
  deriving DecidableEq, Repr

def Value.variant : Value → Variant
  | number _ => .number
  | text _ => .text
  | boolean _ => .boolean
  | nil => .nil
  | invalid => .invalid

namespace Value

@[simp] theorem variant_number (value : Float) : (number value).variant = .number := rfl
@[simp] theorem variant_text (value : String) : (text value).variant = .text := rfl
@[simp] theorem variant_boolean (value : Bool) : (boolean value).variant = .boolean := rfl
@[simp] theorem variant_nil : nil.variant = .nil := rfl
@[simp] theorem variant_invalid : invalid.variant = .invalid := rfl

end Value

/-! ## Operators -/

namespace Variant

def onNumbers : Kind → Variant
  | .plus | .minus | .star | .slash => .number
  | .greater | .greaterEqual | .less | .lessEqual | .equalEqual | .bangEqual => .boolean
  | _ => .invalid

/-- What an operator gives for operands that can only be told equal or
different. -/
def onEquality : Kind → Variant
  | .equalEqual | .bangEqual => .boolean
  | _ => .invalid

/-- What an operator gives for operands that a plus sign joins. -/
def onTexts : Kind → Variant
  | .plus => .text
  | kind => onEquality kind

def binary (kind : Kind) : Variant → Variant → Variant
  | .number, .number => onNumbers kind
  | .text, .text | .number, .text | .text, .number => onTexts kind
  | .boolean, .boolean => onEquality kind
  | .nil, _ => onEquality kind
  | _, .nil => onEquality kind
  | _, _ => .invalid

def unary? (kind : Kind) (operand : Variant) : Option Variant :=
  match kind with
  | .minus => some (if operand = .number then .number else .nil)
  | .bang => some .boolean
  | _ => none

end Variant

namespace Operator

theorem variant_onNumbers (kind : Kind) (left right : Float) :
    (onNumbers kind left right).variant = Variant.onNumbers kind := by
  cases kind <;> rfl

theorem variant_onEquality (kind : Kind) (equal : Bool) :
    (onEquality kind equal).variant = Variant.onEquality kind := by
  cases kind <;> rfl

theorem variant_onTexts (kind : Kind) (left right : String) (equal : Bool) :
    (onTexts kind left right equal).variant = Variant.onTexts kind := by
  cases kind <;> rfl

/-- The variant of a result depends on those of the operands. -/
theorem variant_binary (kind : Kind) (left right : Value) :
    (binary kind left right).variant = Variant.binary kind left.variant right.variant := by
  cases left <;> cases right <;>
    simp [binary, Variant.binary, variant_onNumbers, variant_onEquality, variant_onTexts]

theorem variant_unary? (kind : Kind) (operand : Value) :
    (unary? kind operand).map Value.variant = Variant.unary? kind operand.variant := by
  cases kind <;> cases operand <;> rfl

end Operator

/-! ## Expressions -/

/-- Two outcomes that are the same fault, or values of one variant. -/
inductive AlikeOutcome : Except RuntimeFault Value → Except RuntimeFault Value → Prop where
  | ok {first second : Value} (hvariant : first.variant = second.variant) :
      AlikeOutcome (.ok first) (.ok second)
  | error (fault : RuntimeFault) : AlikeOutcome (.error fault) (.error fault)

/-- Steps that go on alike from values of one variant end alike. -/
theorem AlikeOutcome.bind {first second : Except RuntimeFault Value}
    {next next' : Value → Except RuntimeFault Value} (halike : AlikeOutcome first second)
    (hnext : ∀ value value' : Value, value.variant = value'.variant →
      AlikeOutcome (next value) (next' value')) :
    AlikeOutcome (first.bind next) (second.bind next') := by
  cases halike with
  | ok hvariant => exact hnext _ _ hvariant
  | error fault => exact .error fault

theorem AlikeOutcome.ofOption (fault : RuntimeFault) {first second : Option Value}
    (hvariant : first.map Value.variant = second.map Value.variant) :
    AlikeOutcome (first.elim (.error fault) .ok) (second.elim (.error fault) .ok) := by
  cases first with
  | none =>
      rw [Option.map_eq_none_iff.mp hvariant.symm]
      exact .error fault
  | some value =>
      obtain ⟨value', rfl, hvalue⟩ := Option.map_eq_some_iff.mp hvariant.symm
      exact .ok hvalue.symm

theorem applyBinary_eq (operator : Token) (left right : Value) :
    applyBinary operator left right =
      if (Operator.binary operator.kind left right).variant = .invalid then
        .error (.illegal operator)
      else .ok (Operator.binary operator.kind left right) := by
  rw [applyBinary]
  cases Operator.binary operator.kind left right <;> rfl

/-- Operands of the same variants have results of one variant, or the same
fault. -/
theorem alikeOutcome_applyBinary (operator : Token) {left left' right right' : Value}
    (hleft : left.variant = left'.variant) (hright : right.variant = right'.variant) :
    AlikeOutcome (applyBinary operator left right) (applyBinary operator left' right') := by
  have hresult : (Operator.binary operator.kind left right).variant =
      (Operator.binary operator.kind left' right').variant := by
    rw [Operator.variant_binary, Operator.variant_binary, hleft, hright]
  rw [applyBinary_eq, applyBinary_eq, ← hresult]
  split
  · exact .error _
  · exact .ok hresult

theorem applyUnary_eq (operator : Token) (operand : Value) :
    applyUnary operator operand =
      (Operator.unary? operator.kind operand).elim
        (.error (.unknownOperator operator.kind)) .ok := by
  rw [applyUnary]
  cases Operator.unary? operator.kind operand <;> rfl

theorem alikeOutcome_applyUnary (operator : Token) {operand operand' : Value}
    (hoperand : operand.variant = operand'.variant) :
    AlikeOutcome (applyUnary operator operand) (applyUnary operator operand') := by
  have hresult : (Operator.unary? operator.kind operand).map Value.variant =
      (Operator.unary? operator.kind operand').map Value.variant := by
    rw [Operator.variant_unary?, Operator.variant_unary?, hoperand]
  rw [applyUnary_eq, applyUnary_eq]
  exact .ofOption _ hresult

namespace Bindings

/-- Two sets of bindings that bind the same names to values of the same
variants. -/
def Alike (first second : Bindings) : Prop :=
  ∀ name, (first.get? name).map Value.variant = (second.get? name).map Value.variant

theorem lookup_entry (key other : String) (value : Value) (entries : List (String × Value)) :
    ((key, value) :: entries).lookup other =
      if other = key then some value else entries.lookup other := by
  rw [List.lookup_cons]
  by_cases hkey : other = key
  · rw [if_pos hkey, beq_iff_eq.mpr hkey]
  · rw [if_neg hkey, beq_eq_false_iff_ne.mpr hkey]

theorem lookup_insertEntry (name other : String) (value : Value)
    (entries : List (String × Value)) :
    (insertEntry name value entries).lookup other =
      if other = name then some value else entries.lookup other := by
  induction entries with
  | nil => exact lookup_entry name other value []
  | cons entry entries ih =>
      obtain ⟨key, old⟩ := entry
      rw [insertEntry]
      split
      · exact lookup_entry name other value _
      · split
        · next hequal =>
            subst hequal
            rw [lookup_entry, lookup_entry]
            split <;> rfl
        · next hdiffer =>
            rw [lookup_entry, lookup_entry, ih]
            by_cases hkey : other = key
            · have hname : other ≠ name := fun hname => hdiffer (hname.symm.trans hkey)
              rw [if_pos hkey, if_neg hname, if_pos hkey]
            · rw [if_neg hkey, if_neg hkey]

theorem get?_define (bindings : Bindings) (name other : String) (value : Value) :
    (bindings.define name value).get? other =
      if other = name then some value else bindings.get? other :=
  lookup_insertEntry name other value bindings.entries

/-- Binding a name to values of one variant keeps bindings alike. -/
theorem Alike.define {first second : Bindings} (halike : first.Alike second) (name : String)
    {value value' : Value} (hvariant : value.variant = value'.variant) :
    (first.define name value).Alike (second.define name value') := by
  intro other
  rw [get?_define, get?_define]
  split
  · exact congrArg some hvariant
  · exact halike other

theorem value_eq (bindings : Bindings) (name : Token) :
    bindings.value name = (bindings.get? name.lexeme).elim (.error (.undefined name)) .ok := by
  rw [value]
  cases bindings.get? name.lexeme <;> rfl

/-- A variable has values of one variant, or is unbound in both. -/
theorem Alike.value {first second : Bindings} (halike : first.Alike second) (name : Token) :
    AlikeOutcome (first.value name) (second.value name) := by
  rw [value_eq, value_eq]
  exact .ofOption _ (halike name.lexeme)

end Bindings

namespace Expr

variable {limits : Limits} {first second : Bindings}

theorem alikeOutcome_within {load : Load} {expr : Expr} {inside inside' : Except RuntimeFault Value}
    (hinside : AlikeOutcome inside inside') :
    AlikeOutcome (within limits load expr inside) (within limits load expr inside') := by
  rw [within, within]
  split
  · exact .error _
  · split
    · exact .error _
    · exact hinside

theorem alikeOutcome_evaluateOperand {load : Load} {operand : Expr}
    (hoperand :
      AlikeOutcome (evaluateAt limits first load operand) (evaluateAt limits second load operand)) :
    AlikeOutcome (evaluateOperand limits first load operand)
      (evaluateOperand limits second load operand) := by
  rw [evaluateOperand, evaluateOperand]
  split
  · exact .error _
  · exact hoperand

/-- Bindings whose values are of the same variants lead to outcomes of the same
variant. -/
theorem alikeOutcome_evaluateAt (halike : first.Alike second) (expr : Expr) (load : Load) :
    AlikeOutcome (evaluateAt limits first load expr) (evaluateAt limits second load expr) := by
  induction expr generalizing load with
  | binary left operator right ihLeft ihRight =>
      rw [evaluateAt_binary, evaluateAt_binary]
      apply (alikeOutcome_evaluateOperand (ihLeft _)).bind
      intro value value' hvalue
      apply (alikeOutcome_evaluateOperand (ihRight _)).bind
      intro operand operand' hoperand
      exact alikeOutcome_applyBinary operator hvalue hoperand
  | grouping inner paren ih =>
      rw [evaluateAt_grouping, evaluateAt_grouping]
      exact alikeOutcome_within (ih _)
  | literal value =>
      rw [evaluateAt, evaluateAt]
      exact .ok rfl
  | unary operator operand ih =>
      rw [evaluateAt_unary, evaluateAt_unary]
      apply alikeOutcome_within
      apply (ih _).bind
      intro value value' hvalue
      exact alikeOutcome_applyUnary operator hvalue
  | reference name =>
      rw [evaluateAt, evaluateAt]
      exact halike.value name

end Expr

/-! ## Statements -/

/-- Two machines whose variables and last values agree in their variants. -/
structure Machine.Alike (first second : Machine) : Prop where
  bindings : first.bindings.Alike second.bindings
  last : first.last.map Value.variant = second.last.map Value.variant

/-- A step without its events. -/
def Step.judgement (step : Step) : Step :=
  ⟨step.stmt, step.outcome.map fun _ => []⟩

namespace Step

theorem completes_judgement (step : Step) : step.judgement.completes = step.completes := by
  obtain ⟨stmt, outcome⟩ := step
  cases outcome <;> rfl

theorem failure?_judgement (step : Step) : step.judgement.failure? = step.failure? := by
  obtain ⟨stmt, outcome⟩ := step
  cases outcome <;> rfl

variable {first second : List Step}

theorem map_completes_eq (hsteps : first.map judgement = second.map judgement) :
    first.map completes = second.map completes := by
  have hjudged : completes ∘ judgement = completes := funext completes_judgement
  calc first.map completes = (first.map judgement).map completes := by rw [List.map_map, hjudged]
    _ = (second.map judgement).map completes := by rw [hsteps]
    _ = second.map completes := by rw [List.map_map, hjudged]

/-- The diagnostics of steps depend on their judgements alone. -/
theorem map_failure?_eq (hsteps : first.map judgement = second.map judgement) :
    (first.filter fun step => !step.completes).map failure? =
      (second.filter fun step => !step.completes).map failure? := by
  have hjudged : failure? ∘ judgement = failure? := funext failure?_judgement
  have hkept : ((fun step : Step => !step.completes) ∘ judgement) =
      fun step => !step.completes := by
    funext step
    exact congrArg not (completes_judgement step)
  have hfilter : ∀ steps : List Step, (steps.filter fun step => !step.completes).map failure? =
      ((steps.map judgement).filter fun step => !step.completes).map failure? := by
    intro steps
    rw [List.filter_map, hkept, List.map_map, hjudged]
  rw [hfilter first, hfilter second, hsteps]

end Step

/-- A statement fails in the same way under both bindings, or has the effects of
values of one variant. -/
theorem Stmt.alike_effect (limits : Limits) {first second : Bindings}
    (halike : first.Alike second) (stmt : Stmt) :
    (∃ fault, stmt.effect limits first = .error fault ∧
        stmt.effect limits second = .error fault) ∨
      ∃ value value' : Value, value.variant = value'.variant ∧
        stmt.effect limits first = .ok (stmt.effectOf value) ∧
        stmt.effect limits second = .ok (stmt.effectOf value') := by
  rw [effect_eq, effect_eq]
  cases stmt.expr? with
  | none => exact .inr ⟨.nil, .nil, rfl, rfl, rfl⟩
  | some expr =>
      have houtcome : AlikeOutcome (expr.evaluate limits first) (expr.evaluate limits second) :=
        expr.alikeOutcome_evaluateAt halike .empty
      dsimp only
      generalize expr.evaluate limits first = outcome at houtcome ⊢
      generalize expr.evaluate limits second = outcome' at houtcome ⊢
      cases houtcome with
      | ok hvariant => exact .inr ⟨_, _, hvariant, rfl, rfl⟩
      | error fault => exact .inl ⟨fault, rfl, rfl⟩

theorem Bindings.Alike.apply_effectOf {first second : Bindings} (halike : first.Alike second)
    (stmt : Stmt) {value value' : Value} (hvalue : value.variant = value'.variant) :
    Machine.Alike ⟨(stmt.effectOf value).apply first, (stmt.effectOf value).value?⟩
      ⟨(stmt.effectOf value').apply second, (stmt.effectOf value').value?⟩ := by
  cases stmt with
  | print expr => exact ⟨halike, rfl⟩
  | expression expr => exact ⟨halike, congrArg some hvalue⟩
  | declare name initializer => exact ⟨halike.define name.lexeme hvalue, rfl⟩

namespace Machine

variable {first second : Machine}

/-- A statement fails in the same way on both machines or on none, and leaves
them alike. -/
theorem Alike.execute (halike : first.Alike second) (limits : Limits) (stmt : Stmt) :
    Step.judgement ⟨stmt, (first.execute limits stmt).1⟩ =
        Step.judgement ⟨stmt, (second.execute limits stmt).1⟩ ∧
      (first.execute limits stmt).2.Alike (second.execute limits stmt).2 := by
  rcases stmt.alike_effect limits halike.bindings with
    ⟨fault, hfirst, hsecond⟩ | ⟨value, value', hvariant, hfirst, hsecond⟩
  · simp only [Machine.execute, hfirst, hsecond]
    exact ⟨trivial, halike.bindings, rfl⟩
  · simp only [Machine.execute, hfirst, hsecond]
    exact ⟨rfl, halike.bindings.apply_effectOf stmt hvariant⟩

/-- Both machines go through the same steps and are alike at the end. -/
theorem Alike.trace (halike : first.Alike second) (limits : Limits) (stmts : List Stmt) :
    (first.trace limits stmts).map Step.judgement =
        (second.trace limits stmts).map Step.judgement ∧
      (first.after limits stmts).Alike (second.after limits stmts) := by
  induction stmts generalizing first second with
  | nil => exact ⟨rfl, halike⟩
  | cons stmt stmts ih =>
      obtain ⟨hstep, hnext⟩ := halike.execute limits stmt
      obtain ⟨hlater, hend⟩ := ih hnext
      refine ⟨?_, hend⟩
      rw [Machine.trace, Machine.trace, List.map_cons, List.map_cons, hstep, hlater]

end Machine

/-! ## Runs -/

/-- The outcomes of two runs of what was read off some tokens, on variables that
agree in their variants, differ in nothing but the values: they report the same
failures, complete the same statements, and agree in their variants again. -/
theorem faults_depend_on_variants (reading limits : Limits) (tokens : List Token)
    (first second : Bindings) (halike : first.Alike second) :
    let stmts := (Program.ofTokens reading tokens).statements
    let earlier := Machine.run limits ⟨first, none⟩ stmts
    let later := Machine.run limits ⟨second, none⟩ stmts
    earlier.aborted = none ∧ later.aborted = none ∧
      earlier.succeeded = later.succeeded ∧ earlier.failures = later.failures ∧
      (Machine.trace limits ⟨first, none⟩ stmts).map Step.completes =
        (Machine.trace limits ⟨second, none⟩ stmts).map Step.completes ∧
      earlier.machine.bindings.Alike later.machine.bindings ∧
      earlier.machine.last.map Value.variant = later.machine.last.map Value.variant := by
  intro stmts earlier later
  have hwritten : ∀ stmt ∈ stmts, stmt.Written := Program.written_statements reading tokens
  have hmachines : Machine.Alike ⟨first, none⟩ ⟨second, none⟩ := ⟨halike, rfl⟩
  obtain ⟨hsteps, hend⟩ := hmachines.trace limits stmts
  have hcompleted := Step.map_completes_eq hsteps
  have hfailures : earlier.failures = later.failures := by
    apply (List.map_inj_right fun _ _ => Option.some.inj).mp
    rw [Machine.failures_run hwritten, Machine.failures_run hwritten]
    exact Step.map_failure?_eq hsteps
  have hsucceeded : earlier.succeeded = later.succeeded := by
    rw [Execution.succeeded, Execution.succeeded, hfailures]
  rw [← Machine.machine_run hwritten, ← Machine.machine_run hwritten] at hend
  exact ⟨Machine.aborted_run hwritten _, Machine.aborted_run hwritten _, hsucceeded, hfailures,
    hcompleted, hend.bindings, hend.last⟩

/-- Two texts and two booleans that have nothing in common but their variants:
the outputs and the last values differ, the failing statement is the same. -/
theorem faults_depend_on_variants_texts :
    let tokens := (Scan.ofSource "print b; print x + b; var b = !b; print x + x; b;").tokens
    let stmts := (Program.ofTokens (.standard 3) tokens).statements
    let first := (Bindings.empty.define "b" (.boolean true)).define "x" (.text "a")
    let second := (Bindings.empty.define "b" (.boolean false)).define "x" (.text "")
    let earlier := Machine.run (.standard 3) ⟨first, none⟩ stmts
    let later := Machine.run (.standard 3) ⟨second, none⟩ stmts
    first.Alike second ∧ earlier.failures = later.failures ∧
      (Machine.trace (.standard 3) ⟨first, none⟩ stmts).map Step.completes =
        (Machine.trace (.standard 3) ⟨second, none⟩ stmts).map Step.completes ∧
      (Machine.trace (.standard 3) ⟨second, none⟩ stmts).map Step.completes =
        [true, false, true, true, true] ∧
      earlier.events.output = "true\naa\n" ∧ later.events.output = "false\n\n" ∧
      earlier.machine.last = some (.boolean false) ∧ later.machine.last = some (.boolean true) := by
  intro tokens stmts first second earlier later
  have hempty : Bindings.empty.Alike Bindings.empty := fun _ => rfl
  have hboolean : (Bindings.empty.define "b" (.boolean true)).Alike
      (Bindings.empty.define "b" (.boolean false)) := hempty.define "b" rfl
  have halike : first.Alike second := hboolean.define "x" rfl
  obtain ⟨-, -, -, hfailures, hcompleted, -, -⟩ :=
    faults_depend_on_variants (.standard 3) (.standard 3) tokens first second halike
  exact ⟨halike, hfailures, hcompleted, by decide +kernel, by decide +kernel, by decide +kernel,
    by decide +kernel, by decide +kernel⟩

end Lumen
