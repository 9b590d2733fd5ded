import Lumen.Proofs.Variants

/-!
# What a program touches and sees

A walk through an expression meets every variable that evaluation may look up, and
a statement binds nothing but the name it declares.  So a run leaves all names
alone that no statement declares, and it cannot tell two sets of bindings apart
that agree on the names which stand in the program.
-/

namespace Lumen

/-! ## Names -/

def Expr.name? : Expr → Option String
  | reference name => some name.lexeme
  | _ => none

/-- The names of the variables that a walk through the expression meets. -/
def Expr.names (expr : Expr) : List String :=
  expr.walk.filterMap name?

def Stmt.declared? : Stmt → Option String
  | declare name _ => some name.lexeme
  | _ => none

/-- The names that a statement declares or that stand in its expression. -/
def Stmt.names (stmt : Stmt) : List String :=
  stmt.declared?.toList ++ stmt.expr?.toList.flatMap Expr.names

namespace Expr

theorem names_binary (left : Expr) (operator : Token) (right : Expr) :
    (binary left operator right).names = left.names ++ right.names := by
  rw [names, walk_eq, List.filterMap_cons_none rfl, children, List.flatMap_cons,
    List.flatMap_singleton, List.filterMap_append]
  rfl

theorem names_grouping (inner : Expr) (paren : Option Token) :
    (grouping inner paren).names = inner.names := by
  rw [names, walk_eq, List.filterMap_cons_none rfl, children, List.flatMap_singleton]
  rfl

theorem names_unary (operator : Token) (operand : Expr) :
    (unary operator operand).names = operand.names := by
  rw [names, walk_eq, List.filterMap_cons_none rfl, children, List.flatMap_singleton]
  rfl

theorem names_reference (name : Token) : (reference name).names = [name.lexeme] := by
  rw [names, walk_eq]
  rfl

end Expr

/-! ## Two sets of bindings -/

/-- Both bind a name of the list to the same value, or both leave it unbound. -/
def Bindings.AgreeOn (names : List String) (first second : Bindings) : Prop :=
  ∀ name ∈ names, first.get? name = second.get? name

namespace Bindings

variable {names : List String} {first second : Bindings}

instance : Decidable (AgreeOn names first second) :=
  inferInstanceAs (Decidable (∀ name ∈ names, first.get? name = second.get? name))

theorem AgreeOn.mono (hagree : AgreeOn names first second) {fewer : List String}
    (hfewer : fewer ⊆ names) : AgreeOn fewer first second :=
  fun name hname => hagree name (hfewer hname)

theorem AgreeOn.define (hagree : AgreeOn names first second) (name : String) (value : Value) :
    AgreeOn names (first.define name value) (second.define name value) := by
  intro other hother
  rw [get?_define, get?_define, hagree other hother]

end Bindings

/-- Evaluation looks up the names of the expression only. -/
theorem Expr.evaluateAt_congr {limits : Limits} {first second : Bindings} {expr : Expr}
    (hagree : Bindings.AgreeOn expr.names first second) (load : Load) :
    evaluateAt limits first load expr = evaluateAt limits second load expr := by
  induction expr generalizing load with
  | binary left operator right ihLeft ihRight =>
      rw [names_binary] at hagree
      have hleft := ihLeft (hagree.mono (List.subset_append_left _ _))
      have hright := ihRight (hagree.mono (List.subset_append_right _ _))
      have hleft' : evaluateLeft limits first load left = evaluateLeft limits second load left := by
        rw [evaluateLeft, evaluateLeft, evaluateOperand, evaluateOperand, hleft]
      rw [evaluateAt_binary, evaluateAt_binary, hleft']
      congr 1
      funext value
      rw [applyRight, applyRight, evaluateOperand, evaluateOperand, hright]
  | grouping inner paren ih =>
      rw [names_grouping] at hagree
      rw [evaluateAt_grouping, evaluateAt_grouping, ih hagree]
  | literal value => rw [evaluateAt, evaluateAt]
  | unary operator operand ih =>
      rw [names_unary] at hagree
      rw [evaluateAt_unary, evaluateAt_unary, ih hagree]
  | reference name =>
      rw [names_reference] at hagree
      rw [evaluateAt, evaluateAt, Bindings.value_eq, Bindings.value_eq,
        hagree name.lexeme List.mem_cons_self]

namespace Stmt

variable {limits : Limits} {first second : Bindings} {stmt : Stmt}

/-- A statement does the same under bindings that agree on its names. -/
theorem effect_congr (hagree : Bindings.AgreeOn stmt.names first second) :
    stmt.effect limits first = stmt.effect limits second := by
  rw [effect_eq, effect_eq]
  cases hexpr : stmt.expr? with
  | none => rfl
  | some expr =>
      have hnames : expr.names ⊆ stmt.names := by
        rw [names, hexpr, Option.toList_some, List.flatMap_singleton]
        exact List.subset_append_right _ _
      dsimp only
      rw [Expr.evaluate, Expr.evaluate, Expr.evaluateAt_congr (hagree.mono hnames)]

/-- A statement binds the name it declares, if any. -/
theorem get?_apply {effect : Effect} (heffect : stmt.effect limits first = .ok effect)
    {name : String} (hname : name ∉ stmt.declared?) :
    (effect.apply first).get? name = first.get? name := by
  obtain ⟨value, rfl⟩ : ∃ value, effect = stmt.effectOf value := by
    rw [effect_eq] at heffect
    cases hexpr : stmt.expr? with
    | none =>
        rw [hexpr] at heffect
        exact ⟨.nil, (Except.ok.inj heffect).symm⟩
    | some expr =>
        rw [hexpr] at heffect
        dsimp only at heffect
        cases houtcome : expr.evaluate limits first with
        | ok value =>
            rw [houtcome] at heffect
            exact ⟨value, (Except.ok.inj heffect).symm⟩
        | error fault =>
            rw [houtcome] at heffect
            cases heffect
  cases stmt with
  | print expr => rfl
  | expression expr => rfl
  | declare declared initializer =>
      rw [effectOf, Effect.apply, Bindings.get?_define, if_neg]
      rintro rfl
      exact hname rfl

end Stmt

/-! ## Runs -/

namespace Machine

variable {limits : Limits} {names : List String}

/-- A statement changes no name but the one it declares. -/
theorem get?_execute (machine : Machine) {stmt : Stmt} {name : String}
    (hname : name ∉ stmt.declared?) :
    (machine.execute limits stmt).2.bindings.get? name = machine.bindings.get? name := by
  rw [execute]
  cases heffect : stmt.effect limits machine.bindings with
  | ok effect => exact Stmt.get?_apply heffect hname
  | error fault => rfl

/-- What no statement declares keeps its binding. -/
theorem get?_after (machine : Machine) {stmts : List Stmt} {name : String}
    (hname : name ∉ stmts.filterMap Stmt.declared?) :
    (machine.after limits stmts).bindings.get? name = machine.bindings.get? name := by
  induction stmts generalizing machine with
  | nil => rfl
  | cons stmt stmts ih =>
      rw [List.mem_filterMap, not_exists] at hname
      have hlater : name ∉ stmts.filterMap Stmt.declared? := by
        rw [List.mem_filterMap, not_exists]
        exact fun other hother => hname other ⟨List.mem_cons_of_mem _ hother.1, hother.2⟩
      have hfirst : name ∉ stmt.declared? := fun hdeclared =>
        hname stmt ⟨List.mem_cons_self, hdeclared⟩
      exact (ih (machine.execute limits stmt).2 hlater).trans (machine.get?_execute hfirst)

/-- Two machines with the same last value whose bindings agree on some names. -/
structure AgreeOn (names : List String) (first second : Machine) : Prop where
  bindings : Bindings.AgreeOn names first.bindings second.bindings
  last : first.last = second.last

/-- A statement has the same outcome on both machines, and they agree again. -/
theorem AgreeOn.execute {first second : Machine} (hagree : AgreeOn names first second)
    (limits : Limits) {stmt : Stmt} (hnames : stmt.names ⊆ names) :
    (first.execute limits stmt).1 = (second.execute limits stmt).1 ∧
      AgreeOn names (first.execute limits stmt).2 (second.execute limits stmt).2 := by
  have heffect : stmt.effect limits first.bindings = stmt.effect limits second.bindings :=
    Stmt.effect_congr (hagree.bindings.mono hnames)
  rw [Machine.execute, Machine.execute, heffect]
  cases stmt.effect limits second.bindings with
  | error fault => exact ⟨rfl, hagree.bindings, rfl⟩
  | ok effect =>
      refine ⟨rfl, ?_, rfl⟩
      cases effect with
      | print text => exact hagree.bindings
      | yield value => exact hagree.bindings
      | bind name value => exact hagree.bindings.define name value

/-- Both machines go through the same steps, and they agree at the end. -/
theorem AgreeOn.trace {first second : Machine} (hagree : AgreeOn names first second)
    (limits : Limits) {stmts : List Stmt} (hnames : stmts.flatMap Stmt.names ⊆ names) :
    first.trace limits stmts = second.trace limits stmts ∧
      AgreeOn names (first.after limits stmts) (second.after limits stmts) := by
  induction stmts generalizing first second with
  | nil => exact ⟨rfl, hagree⟩
  | cons stmt stmts ih =>
      rw [List.flatMap_cons, List.append_subset] at hnames
      obtain ⟨houtcome, hnext⟩ := hagree.execute limits hnames.1
      obtain ⟨hlater, hend⟩ := ih hnext hnames.2
      refine ⟨?_, hend⟩
      rw [Machine.trace, Machine.trace, houtcome, hlater]

end Machine

/-- A run of what was read off some tokens leaves every name alone that no
statement declares.  On bindings that agree on the names of the program it prints
the same text, reports the same failures and leaves the same last value, and the
bindings agree on these names again. -/
theorem run_sees_own_names (reading limits : Limits) (tokens : List Token) :
    let stmts := (Program.ofTokens reading tokens).statements
    let names := stmts.flatMap Stmt.names
    (∀ (machine : Machine) (name : String), name ∉ stmts.filterMap Stmt.declared? →
      (machine.run limits stmts).machine.bindings.get? name = machine.bindings.get? name) ∧
    ∀ first second : Bindings, Bindings.AgreeOn names first second →
      let earlier := Machine.run limits ⟨first, none⟩ stmts
      let later := Machine.run limits ⟨second, none⟩ stmts
      earlier.aborted = none ∧ later.aborted = none ∧
        earlier.succeeded = later.succeeded ∧
        earlier.events.output = later.events.output ∧
        earlier.failures = later.failures ∧
        earlier.machine.last = later.machine.last ∧
        Bindings.AgreeOn names earlier.machine.bindings later.machine.bindings := by
  intro stmts names
  have hwritten : ∀ stmt ∈ stmts, stmt.Written := Program.written_statements reading tokens
  constructor
  · intro machine name hname
    rw [Machine.machine_run hwritten]
    exact machine.get?_after hname
  · intro first second hagree earlier later
    have hmachines : Machine.AgreeOn names ⟨first, none⟩ ⟨second, none⟩ := ⟨hagree, rfl⟩
    obtain ⟨htrace, hend⟩ := hmachines.trace limits (List.Subset.refl names)
    rw [← Machine.machine_run hwritten, ← Machine.machine_run hwritten] at hend
    have hevents : earlier.events = later.events := by
      rw [Machine.events_run hwritten, Machine.events_run hwritten, htrace]
    have hfailures : earlier.failures = later.failures := by
      rw [Execution.failures, Execution.failures, hevents]
    refine ⟨Machine.aborted_run hwritten _, Machine.aborted_run hwritten _, ?_, ?_, hfailures,
      hend.last, hend.bindings⟩
    · rw [Execution.succeeded, Execution.succeeded, hfailures]
    · rw [hevents]

/-- Only one of two sets of bindings has `x`, which the program does not mention.
Both leave `d` unbound, so the second `print` fails on both. -/
theorem run_sees_own_names_unbound :
    let limits := Limits.standard 64
    let tokens := (Scan.ofSource "var a = b + c; print a; print d; b;").tokens
    let stmts := (Program.ofTokens limits tokens).statements
    let names := stmts.flatMap Stmt.names
    let second := (Bindings.empty.define "b" (.text "u")).define "c" (.text "v")
    let first := second.define "x" (.boolean true)
    let earlier := Machine.run limits ⟨first, none⟩ stmts
    let later := Machine.run limits ⟨second, none⟩ stmts
    names = ["a", "b", "c", "a", "d", "b"] ∧ Bindings.AgreeOn names first second ∧
      earlier.machine.bindings.get? "x" = some (.boolean true) ∧
      later.machine.bindings.get? "x" = none ∧
      earlier.events.output = later.events.output ∧ later.events.output = "uv\n" ∧
      earlier.failures = later.failures ∧ later.failures.length = 1 ∧
      earlier.machine.last = later.machine.last ∧
      Bindings.AgreeOn names earlier.machine.bindings later.machine.bindings := by
  intro limits tokens stmts names second first earlier later
  obtain ⟨hnames, hundeclared, hagree, hfirst, hsecond, houtput, hfailures⟩ :
      names = ["a", "b", "c", "a", "d", "b"] ∧ "x" ∉ stmts.filterMap Stmt.declared? ∧
        Bindings.AgreeOn names first second ∧ first.get? "x" = some (.boolean true) ∧
        second.get? "x" = none ∧ later.events.output = "uv\n" ∧ later.failures.length = 1 := by
    decide +kernel
  obtain ⟨hkept, hsame⟩ := run_sees_own_names limits limits tokens
  obtain ⟨-, -, -, hprinted, hreported, hlast, hend⟩ := hsame first second hagree
  exact ⟨hnames, hagree, (hkept ⟨first, none⟩ "x" hundeclared).trans hfirst,
    (hkept ⟨second, none⟩ "x" hundeclared).trans hsecond, hprinted, houtput, hreported, hfailures,
    hlast, hend⟩

end Lumen
