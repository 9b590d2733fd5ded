import Mathlib.Data.List.DropRight
import Lumen.Reporter
import Lumen.Proofs.Reporting

/-!
# Batches

Batches may hold batches, to any depth.  The reporter, the text of a report and
the diagnostic that a batch presents itself as go through them on their own, and
each of them sees the diagnostics at the leaves from left to right.  So what a
reporter keeps is a plain list, and it is the list of what was written since the
reporter was reset.
-/

namespace Lumen

def Diagnostic.lines (diagnostics : List Diagnostic) : String :=
  String.join (diagnostics.map fun diagnostic => diagnostic.render ++ "\n")

theorem Diagnostic.lines_append (first second : List Diagnostic) :
    lines (first ++ second) = lines first ++ lines second := by
  rw [lines, List.map_append, String.join_append]
  rfl

namespace Report

/-! ## Leaves -/

/-- What holds of single diagnostics, and of a batch if it holds of the reports
in it, holds of every report. -/
@[elab_as_elim]
theorem nested_induction {motive : Report → Prop}
    (single : ∀ diagnostic, motive (.single diagnostic))
    (batch : ∀ earlier last, (∀ report ∈ earlier, motive report) → motive last →
      motive (.batch earlier last)) : ∀ report, motive report
  | .single diagnostic => single diagnostic
  | .batch earlier last =>
      batch earlier last (fun report _ => nested_induction single batch report)
        (nested_induction single batch last)

theorem leavesOf_eq (reports : List Report) : leavesOf reports = reports.flatMap leaves := by
  induction reports with
  | nil => rw [leavesOf, List.flatMap_nil]
  | cons report reports ih => rw [leavesOf, ih, List.flatMap_cons]

theorem leaves_batch (earlier : List Report) (last : Report) :
    (batch earlier last).leaves = earlier.flatMap leaves ++ last.leaves := by
  rw [leaves, leavesOf_eq]

/-- A batch presents itself as its last leaf. -/
theorem getLast?_leaves (report : Report) : report.leaves.getLast? = some report.face := by
  induction report using nested_induction with
  | single diagnostic => rfl
  | batch earlier last ihEarlier ihLast =>
      rw [leaves_batch, List.getLast?_append, ihLast, face]
      rfl

theorem renderBefore_append {reports : List Report}
    (hreports : ∀ report ∈ reports, report.render ++ "\n" = Diagnostic.lines report.leaves)
    (text : String) :
    renderBefore reports text = Diagnostic.lines (reports.flatMap leaves) ++ text := by
  induction reports with
  | nil => exact String.empty_append.symm
  | cons report reports ih =>
      obtain ⟨hreport, hmore⟩ := List.forall_mem_cons.mp hreports
      rw [renderBefore, ih hmore, hreport, List.flatMap_cons, Diagnostic.lines_append,
        String.append_assoc]

/-- The text of a report has a line for every leaf. -/
theorem render_line (report : Report) :
    report.render ++ "\n" = Diagnostic.lines report.leaves := by
  induction report using nested_induction with
  | single diagnostic =>
      rw [render, leaves, Diagnostic.lines, List.map_singleton, String.join_cons, String.join_nil,
        String.append_empty]
  | batch earlier last ihEarlier ihLast =>
      rw [render, renderBefore_append ihEarlier, String.append_assoc, ihLast, leaves_batch,
        Diagnostic.lines_append]

theorem lines_leaves (reports : List Report) :
    Diagnostic.lines (reports.flatMap leaves) =
      String.join (reports.map fun report => report.render ++ "\n") := by
  induction reports with
  | nil => rfl
  | cons report reports ih =>
      rw [List.flatMap_cons, Diagnostic.lines_append, ih, ← render_line, List.map_cons,
        String.join_cons]

end Report

namespace Reporter

/-! ## One call -/

theorem reportAll_eq {reports : List Report}
    (hreports : ∀ report ∈ reports, ∀ reporter : Reporter, reporter.report report =
      (reporter.recordAll report.leaves, report.leaves.map .reported)) (reporter : Reporter) :
    reporter.reportAll reports =
      (reporter.recordAll (reports.flatMap Report.leaves),
        (reports.flatMap Report.leaves).map .reported) := by
  induction reports generalizing reporter with
  | nil => rw [reportAll, List.flatMap_nil, recordAll_nil, List.map_nil]
  | cons report reports ih =>
      obtain ⟨hreport, hmore⟩ := List.forall_mem_cons.mp hreports
      rw [reportAll, hreport]
      dsimp only
      rw [ih hmore, List.flatMap_cons, recordAll_append, List.map_append]

/-- A report is remembered and written leaf by leaf. -/
theorem report_eq (reporter : Reporter) (report : Report) :
    reporter.report report =
      (reporter.recordAll report.leaves, report.leaves.map .reported) := by
  induction report using Report.nested_induction generalizing reporter with
  | single diagnostic =>
      rw [Reporter.report, Report.leaves, recordAll_cons, recordAll_nil, List.map_singleton]
  | batch earlier last ihEarlier ihLast =>
      rw [Reporter.report, reportAll_eq ihEarlier]
      dsimp only
      rw [ihLast, Report.leaves_batch, recordAll_append, List.map_append]

/-- A report is written as it is rendered. -/
theorem errors_report (reporter : Reporter) (report : Report) :
    (reporter.report report).2.errors false = report.render ++ "\n" := by
  rw [report_eq, Report.render_line, Transcript.errors, List.map_map]
  rfl

/-! ## Sequences of calls -/

inductive Call where
  | report (given : Report)
  | reset

def Call.report? : Call → Option Report
  | .report given => some given
  | .reset => none

/-- The reporter behind a call, and what the call writes. -/
def perform (reporter : Reporter) : Call → Reporter × Transcript
  | .report given => reporter.report given
  | .reset => (fresh, [])

def after (calls : List Call) : Reporter :=
  calls.foldl (fun reporter call => (reporter.perform call).1) fresh

/-- The reports behind the last reset. -/
def sinceReset (calls : List Call) : List Report :=
  (calls.rtakeWhile fun call => call.report?.isSome).filterMap Call.report?

theorem after_concat (calls : List Call) (call : Call) :
    after (calls ++ [call]) = ((after calls).perform call).1 := by
  rw [after, List.foldl_concat]
  rfl

theorem sinceReset_report (calls : List Call) (given : Report) :
    sinceReset (calls ++ [.report given]) = sinceReset calls ++ [given] := by
  rw [sinceReset, List.rtakeWhile_concat_pos _ _ _ rfl, List.filterMap_append]
  rfl

theorem sinceReset_reset (calls : List Call) : sinceReset (calls ++ [.reset]) = [] := by
  rw [sinceReset, List.rtakeWhile_concat_neg _ _ _ Bool.false_ne_true, List.filterMap_nil]

/-- A reporter is as if it had just been given the leaves of the reports since
the last reset. -/
theorem after_eq (calls : List Call) :
    after calls = fresh.recordAll ((sinceReset calls).flatMap Report.leaves) := by
  -- The last call decides, since a reset throws away what all calls before it left.
  induction calls using List.reverseRecOn with
  | nil => exact (recordAll_nil fresh).symm
  | append_singleton calls call ih =>
      rw [after_concat, ih]
      cases call with
      | report given =>
          rw [perform, report_eq, sinceReset_report, List.flatMap_append,
            List.flatMap_singleton, recordAll_append]
      | reset => rw [perform, sinceReset_reset, List.flatMap_nil, recordAll_nil]

/-- Behind any sequence of calls a reporter keeps the leaves of the reports since
the last reset from left to right, its flags say whether a failure and whether a
mistake is among them, and their lines are what those reports wrote.  The next
report writes its text and ends the line, and every report presents itself as its
last leaf. -/
theorem record_matches_writing (calls : List Call) :
    let reporter := after calls
    let kept := (sinceReset calls).flatMap Report.leaves
    reporter.diagnostics = kept ∧
      (reporter.hadRuntimeError = true ↔ ∃ leaf ∈ kept, leaf.stage = .running) ∧
      (reporter.hadError = true ↔ ∃ leaf ∈ kept, leaf.stage ≠ .running) ∧
      Diagnostic.lines reporter.diagnostics =
        String.join ((sinceReset calls).map fun report => report.render ++ "\n") ∧
      (∀ report, (reporter.report report).2.errors false = report.render ++ "\n") ∧
      ∀ report : Report, report.leaves.getLast? = some report.face := by
  intro reporter kept
  have hreporter : reporter = fresh.recordAll kept := after_eq calls
  have hdiagnostics : reporter.diagnostics = kept := by
    rw [hreporter]
    rfl
  refine ⟨hdiagnostics, ?_, ?_, ?_, reporter.errors_report, Report.getLast?_leaves⟩
  · simp [hreporter, recordAll, fresh]
  · simp [hreporter, recordAll, fresh]
  · rw [hdiagnostics]
    exact Report.lines_leaves (sinceReset calls)

end Reporter

end Lumen
