import Mathlib.Algebra.Ring.Nat
import Mathlib.Data.List.Basic

/-!
# Bebop — the diagnostics of a schema

`bebop__schema_add_diagnostic` of `bebop_schema.c`, and the counters from which the compiler
derives its status. A schema stores a hundred diagnostics; what is reported after them is
not counted either (`SchemaLog.Holds`).
-/

namespace Bebop.Compiler

/-- `bebop_diag_severity_t` -/
inductive Severity
  | info
  | warning
  | error
  deriving DecidableEq, Repr

/-- `bebop_span_t` -/
structure Span where
  off : Nat
  len : Nat
  startLine : Nat
  startCol : Nat
  endLine : Nat
  endCol : Nat
  deriving DecidableEq, Repr

/-- `bebop__diag_loc_t` -/
structure DiagLoc where
  severity : Severity
  code : Nat
  span : Span
  deriving DecidableEq, Repr

/-- One call of `bebop__schema_add_diagnostic`. -/
structure Report where
  loc : DiagLoc
  message : String
  hint : Option String
  deriving DecidableEq, Repr

/-- `bebop_diagnostic_t`, with the labels that point at other places. -/
structure Diagnostic where
  severity : Severity
  code : Nat
  span : Span
  path : Option String
  message : String
  hint : Option String
  labels : List (Span × Option String)
  deriving DecidableEq, Repr

/-- `BEBOP_MAX_DIAGNOSTICS` -/
def maxDiagnostics : Nat := 100

/-- What a schema stores of the diagnostics reported to it. -/
structure SchemaLog where
  path : Option String
  diagnostics : List Diagnostic
  errorCount : Nat
  warningCount : Nat
  deriving DecidableEq, Repr

namespace SchemaLog

/-- The log of a schema that `bebop__schema_create` made. -/
def create (path : Option String) : SchemaLog := ⟨path, [], 0, 0⟩

/-- `bebop__schema_add_diagnostic`, for an arena that does not run out. -/
def addDiagnostic (log : SchemaLog) (report : Report) : SchemaLog :=
  if log.diagnostics.length ≥ maxDiagnostics then log
  else
    { log with
      diagnostics := log.diagnostics ++ [⟨report.loc.severity, report.loc.code, report.loc.span, log.path,
        report.message, report.hint, []⟩]
      errorCount := if report.loc.severity = .error then log.errorCount + 1 else log.errorCount
      warningCount := if report.loc.severity = .warning then log.warningCount + 1 else log.warningCount }

def addAll (log : SchemaLog) (reports : List Report) : SchemaLog := reports.foldl addDiagnostic log

end SchemaLog

def Report.isError (report : Report) : Bool := report.loc.severity = .error

def Report.isWarning (report : Report) : Bool := report.loc.severity = .warning

/-- The log has stored and counted the first hundred of the reports. -/
structure SchemaLog.Holds (log : SchemaLog) (reports : List Report) : Prop where
  stored : log.diagnostics.length = (reports.take maxDiagnostics).length
  errors : log.errorCount = (reports.take maxDiagnostics).countP Report.isError
  warnings : log.warningCount = (reports.take maxDiagnostics).countP Report.isWarning

namespace SchemaLog

variable {log : SchemaLog} {reports : List Report}

theorem holds_create (path : Option String) : (create path).Holds [] := ⟨rfl, rfl, rfl⟩

theorem count_step (p : Prop) [Decidable p] (n : Nat) :
    (if p then n + 1 else n) = n + if decide p = true then 1 else 0 := by
  by_cases h : p
  · rw [if_pos h, if_pos (decide_eq_true h)]
  · rw [if_neg h, if_neg (by rw [decide_eq_true_iff]; exact h)]
    rfl

theorem Holds.addDiagnostic (h : log.Holds reports) (report : Report) :
    (log.addDiagnostic report).Holds (reports ++ [report]) := by
  have hstored := h.stored
  rw [List.length_take] at hstored
  unfold SchemaLog.addDiagnostic
  split
  · rename_i hfull
    -- the first hundred reports are the same as before
    have hsame : (reports ++ [report]).take maxDiagnostics = reports.take maxDiagnostics :=
      List.take_append_of_le_length (by omega)
    exact ⟨by rw [hsame, h.stored], by rw [hsame, h.errors], by rw [hsame, h.warnings]⟩
  · rename_i hroom
    have hshort : reports.length < maxDiagnostics := by omega
    have hall : reports.take maxDiagnostics = reports := List.take_of_length_le (Nat.le_of_lt hshort)
    have hmore : (reports ++ [report]).take maxDiagnostics = reports ++ [report] := by
      refine List.take_of_length_le ?_
      rw [List.length_append, List.length_singleton]
      exact hshort
    have herrors := h.errors
    have hwarnings := h.warnings
    have hlength := h.stored
    rw [hall] at herrors hwarnings hlength
    refine ⟨?_, ?_, ?_⟩
    · rw [hmore, List.length_append, List.length_append, hlength]
      rfl
    · rw [hmore, List.countP_append, ← herrors, List.countP_singleton]
      exact count_step _ _
    · rw [hmore, List.countP_append, ← hwarnings, List.countP_singleton]
      exact count_step _ _

theorem Holds.addAll (h : log.Holds reports) (more : List Report) :
    (log.addAll more).Holds (reports ++ more) := by
  induction more generalizing log reports with
  | nil => rwa [List.append_nil]
  | cons report more ih =>
    have hnext := ih (h.addDiagnostic report)
    rwa [List.append_assoc] at hnext

theorem Holds.errorCount_pos (h : log.Holds reports) :
    0 < log.errorCount ↔ ∃ report ∈ reports.take maxDiagnostics, report.isError := by
  rw [h.errors, List.countP_pos_iff]

end SchemaLog

end Bebop.Compiler
