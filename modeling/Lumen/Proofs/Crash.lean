import Lumen.Cursor
import Lumen.Grammar.Reading

/-!
# Steps that may fail

A call that goes step by step ends at the first step that fails.  So a result
shows that every step had one, and a step with a result can be left behind.
-/

namespace Lumen

/-- What would keep a call from coming to its end. -/
inductive Crash where
  /-- A character is read where there is none. -/
  | character (fault : Cursor.Fault)
  /-- A text that denotes no number is converted. -/
  | number (text : List Char)
  /-- A token is asked for where there is none. -/
  | token (position : Nat)
  /-- A mistake in the source that nobody reports. -/
  | mistake (fault : GrammarFault)
  /-- An exhausted stack that nobody reports. -/
  | overflow
  /-- A prefix operator that the language does not have. -/
  | operator (kind : Kind)
  /-- A statement shows or keeps the mark of an undefined operation. -/
  | sentinel
  | emptyBatch
  /-- A loop makes no progress. -/
  | endless
  deriving DecidableEq

theorem ok_bind {ε α β : Type} (value : α) (next : α → Except ε β) :
    Except.ok value >>= next = next value :=
  rfl

/-- Steps that lead to a result both have one. -/
theorem exists_of_bind {ε α β : Type} {action : Except ε α} {next : α → Except ε β} {result : β}
    (hbind : action >>= next = .ok result) :
    ∃ value, action = .ok value ∧ next value = .ok result := by
  cases action with
  | error fault => cases hbind
  | ok value => exact ⟨value, rfl, hbind⟩

end Lumen
