import Lumen.Event

/-!
# The reporter

The reporter writes diagnostics and remembers them.  Batches are taken apart,
so what it remembers is a plain list.  Mistakes in the source and failures of a
run are remembered apart.
-/

namespace Lumen

structure Reporter where
  diagnostics : List Diagnostic := []
  hadError : Bool := false
  hadRuntimeError : Bool := false
  deriving DecidableEq, Inhabited

namespace Reporter

def fresh : Reporter where
  diagnostics := []
  hadError := false
  hadRuntimeError := false

def record (reporter : Reporter) (diagnostic : Diagnostic) : Reporter where
  diagnostics := reporter.diagnostics ++ [diagnostic]
  hadError := reporter.hadError || diagnostic.stage != .running
  hadRuntimeError := reporter.hadRuntimeError || diagnostic.stage == .running

def recordAll (reporter : Reporter) (diagnostics : List Diagnostic) : Reporter where
  diagnostics := reporter.diagnostics ++ diagnostics
  hadError := reporter.hadError || diagnostics.any (·.stage != .running)
  hadRuntimeError := reporter.hadRuntimeError || diagnostics.any (·.stage == .running)

@[simp] theorem recordAll_nil (reporter : Reporter) : reporter.recordAll [] = reporter := by
  simp [recordAll]

theorem recordAll_cons (reporter : Reporter) (diagnostic : Diagnostic)
    (diagnostics : List Diagnostic) :
    reporter.recordAll (diagnostic :: diagnostics) =
      (reporter.record diagnostic).recordAll diagnostics := by
  simp [recordAll, record, Bool.or_assoc]

theorem recordAll_append (reporter : Reporter) (first second : List Diagnostic) :
    reporter.recordAll (first ++ second) = (reporter.recordAll first).recordAll second := by
  simp [recordAll, Bool.or_assoc]

mutual

/-- Reports a diagnostic or every diagnostic of a batch. -/
def report (reporter : Reporter) : Report → Reporter × Transcript
  | .single diagnostic => (reporter.record diagnostic, [.reported diagnostic])
  | .batch earlier last =>
      let (afterEarlier, before) := reportAll reporter earlier
      let (afterLast, written) := report afterEarlier last
      (afterLast, before ++ written)

def reportAll (reporter : Reporter) : List Report → Reporter × Transcript
  | [] => (reporter, [])
  | first :: reports =>
      let (afterFirst, before) := report reporter first
      let (afterAll, written) := reportAll afterFirst reports
      (afterAll, before ++ written)

end

end Reporter

end Lumen
