import Bebop.Compiler.Diagnostics
import Bebop.Lib.Transition
import Mathlib.Algebra.BigOperators.Group.List.Basic

/-!
# Bebop — from diagnostics to a status

`bebop__parse_impl` of `bebop.c` and the frame of `bebop_validate` of `bebop_validate.c`.
What the scanner, the parser, the resolution of imports and the validator report is left
open, as is what makes them give up. What is fixed is who can report to which schema when,
and how the status comes from the counters.
-/

namespace Bebop.Compiler

open Transition

/-- `bebop_status_t` -/
inductive Status
  | ok
  | okWithWarnings
  | error
  | fatal
  deriving DecidableEq, Repr

/-- Of a schema: its diagnostics, and how many definitions it has. -/
structure LoadedSchema where
  log : SchemaLog
  sortedDefsCount : Nat
  deriving DecidableEq, Repr

def uint32Max : Nat := 0xffffffff

variable (schemas : List LoadedSchema)

/-- The loop that adds up `error_count`, in 32 bits. -/
def totalErrorCount : Nat :=
  schemas.foldl (fun total schema => (total + schema.log.errorCount) % 2 ^ 32) 0

def totalWarningCount : Nat :=
  schemas.foldl (fun total schema => (total + schema.log.warningCount) % 2 ^ 32) 0

/-- The loop that adds up `sorted_defs_count`, which stops at an overflow. -/
def totalDefs : Option Nat :=
  schemas.foldlM (fun total schema =>
    if total > uint32Max - schema.sortedDefsCount then none else some (total + schema.sortedDefsCount)) 0

/-- The end of `bebop_validate`. -/
def finalStatus : Status :=
  if totalErrorCount schemas > 0 then .error
  else if totalWarningCount schemas > 0 then .okWithWarnings
  else .ok

theorem totalErrorCount_eq :
    totalErrorCount schemas = (schemas.map fun schema => schema.log.errorCount).sum % 2 ^ 32 := by
  have hfold (total : Nat) (hlt : total < 2 ^ 32) :
      schemas.foldl (fun total schema => (total + schema.log.errorCount) % 2 ^ 32) total =
        (total + (schemas.map fun schema => schema.log.errorCount).sum) % 2 ^ 32 := by
    induction schemas generalizing total with
    | nil => exact (Nat.mod_eq_of_lt hlt).symm
    | cons schema schemas ih =>
      rw [List.foldl_cons, ih _ (Nat.mod_lt _ (Nat.two_pow_pos 32)), Nat.mod_add_mod, List.map_cons,
        List.sum_cons, Nat.add_assoc]
  rw [totalErrorCount, hfold 0 (Nat.two_pow_pos 32), Nat.zero_add]

theorem finalStatus_cases : (finalStatus schemas = .error ∧ totalErrorCount schemas ≠ 0) ∨
    ((finalStatus schemas = .ok ∨ finalStatus schemas = .okWithWarnings) ∧ totalErrorCount schemas = 0) := by
  unfold finalStatus
  by_cases herror : totalErrorCount schemas > 0
  · rw [if_pos herror]
    exact .inl ⟨rfl, by omega⟩
  · rw [if_neg herror]
    refine .inr ⟨?_, by omega⟩
    split
    · exact .inr rfl
    · exact .inl rfl

/-- Where the compiler is: between two files, at one of the steps of reading a
file (the last schema's), in the passes of `bebop_validate`, or done. -/
inductive Phase
  | next
  | scanning
  | parsing
  | importing
  | validating
  | returned (status : Status)
  deriving DecidableEq, Repr

structure CompilerState where
  phase : Phase
  schemas : List LoadedSchema
  deriving DecidableEq, Repr

/-- What is seen of a step: a diagnostic for one of the schemas, or that the
compiler gives up (memory, a file that cannot be read, a parser stack overflow). -/
inductive Label
  | report (schema : Nat) (report : Report)
  | fail
  | silent
  deriving DecidableEq, Repr

/-- The start of `bebop_validate`: it gives up, returns at once, or goes on. -/
def validateStart : Label × Phase :=
  match totalDefs schemas with
  | none => (.fail, .returned .fatal)
  | some total => (.silent, if total = 0 then .returned .ok else .validating)

/-- The end of `bebop__parse_impl`. -/
def parseEnd : Label × Phase :=
  if totalErrorCount schemas > 0 then (.silent, .returned .error) else validateStart schemas

inductive MayReport : Phase → Nat → Nat → Prop
  | scanning (count : Nat) : MayReport .scanning (count + 1) count
  | parsing (count : Nat) : MayReport .parsing (count + 1) count
  | importing (count : Nat) : MayReport .importing (count + 1) count
  | validating {count i : Nat} : i < count → MayReport .validating count i

def Phase.running : Phase → Bool
  | .returned _ => false
  | _ => true

def LoadedSchema.addDiagnostic (report : Report) (schema : LoadedSchema) : LoadedSchema :=
  { schema with log := schema.log.addDiagnostic report }

inductive Step : CompilerState → Label → CompilerState → Prop
  /-- `bebop__schema_create` for the next file of the work list -/
  | create (schemas : List LoadedSchema) (path : Option String) :
      Step ⟨.next, schemas⟩ .silent ⟨.scanning, schemas ++ [⟨.create path, 0⟩]⟩
  | scanned (schemas : List LoadedSchema) : Step ⟨.scanning, schemas⟩ .silent ⟨.parsing, schemas⟩
  /-- `bebop__schema_register_def` -/
  | register (schemas : List LoadedSchema) (schema : LoadedSchema) :
      Step ⟨.parsing, schemas ++ [schema]⟩ .silent
        ⟨.parsing, schemas ++ [{ schema with sortedDefsCount := schema.sortedDefsCount + 1 }]⟩
  /-- `bebop__result_add_schema` -/
  | parsed (schemas : List LoadedSchema) : Step ⟨.parsing, schemas⟩ .silent ⟨.importing, schemas⟩
  /-- the end of `bebop__process_imports` -/
  | imported (schemas : List LoadedSchema) : Step ⟨.importing, schemas⟩ .silent ⟨.next, schemas⟩
  /-- the work list is done -/
  | loaded (schemas : List LoadedSchema) :
      Step ⟨.next, schemas⟩ (parseEnd schemas).1 ⟨(parseEnd schemas).2, schemas⟩
  /-- the passes of `bebop_validate` are done -/
  | validated (schemas : List LoadedSchema) :
      Step ⟨.validating, schemas⟩ .silent ⟨.returned (finalStatus schemas), schemas⟩
  | report {phase : Phase} (schemas : List LoadedSchema) {i : Nat} (report : Report) :
      MayReport phase schemas.length i →
      Step ⟨phase, schemas⟩ (.report i report) ⟨phase, schemas.modify i (LoadedSchema.addDiagnostic report)⟩
  | fail {phase : Phase} (schemas : List LoadedSchema) : phase.running = true →
      Step ⟨phase, schemas⟩ .fail ⟨.returned .fatal, schemas⟩

def CompilerState.start : CompilerState := ⟨.next, []⟩

/-! ## What was reported -/

def reportsTo (i : Nat) (labels : List Label) : List Report :=
  labels.filterMap fun label =>
    match label with
    | .report schema report => if schema = i then some report else none
    | _ => none

theorem mem_reportsTo {i : Nat} {labels : List Label} {report : Report} :
    report ∈ reportsTo i labels ↔ .report i report ∈ labels := by
  unfold reportsTo
  rw [List.mem_filterMap]
  constructor
  · rintro ⟨label, hmem, hlabel⟩
    cases label with
    | report schema report' =>
      dsimp only at hlabel
      split at hlabel
      · rename_i heq
        cases hlabel
        rwa [← heq]
      · cases hlabel
    | fail => cases hlabel
    | silent => cases hlabel
  · intro hmem
    exact ⟨_, hmem, if_pos rfl⟩

theorem reportsTo_append (i : Nat) (labels labels' : List Label) :
    reportsTo i (labels ++ labels') = reportsTo i labels ++ reportsTo i labels' :=
  List.filterMap_append

theorem reportsTo_report (i j : Nat) (report : Report) :
    reportsTo i [.report j report] = if j = i then [report] else [] := by
  unfold reportsTo
  rw [List.filterMap_cons]
  split <;> simp_all

theorem reportsTo_silent (i : Nat) : reportsTo i [.silent] = [] := rfl

theorem reportsTo_fail (i : Nat) : reportsTo i [.fail] = [] := rfl

/-- Every schema has the first hundred of the diagnostics reported to it. -/
structure Logged (labels : List Label) (schemas : List LoadedSchema) : Prop where
  holds : ∀ {i : Nat} {schema : LoadedSchema}, schemas[i]? = some schema →
    schema.log.Holds (reportsTo i labels)
  later : ∀ {i : Nat}, schemas.length ≤ i → reportsTo i labels = []

def Label.quiet : Label → Bool
  | .report _ _ => false
  | _ => true

theorem reportsTo_of_quiet {label : Label} (h : label.quiet = true) (i : Nat) : reportsTo i [label] = [] := by
  cases label with
  | report schema report => cases h
  | fail => rfl
  | silent => rfl

variable {labels : List Label} {schemas} {label : Label}

theorem Logged.quiet (h : Logged labels schemas) (hlabel : label.quiet = true) :
    Logged (labels ++ [label]) schemas := by
  have hsame (i : Nat) : reportsTo i (labels ++ [label]) = reportsTo i labels := by
    rw [reportsTo_append, reportsTo_of_quiet hlabel, List.append_nil]
  refine ⟨fun hget => ?_, fun hlate => ?_⟩
  · rw [hsame]
    exact h.holds hget
  · rw [hsame]
    exact h.later hlate

theorem Logged.create (h : Logged labels schemas) (path : Option String) :
    Logged labels (schemas ++ [⟨.create path, 0⟩]) := by
  refine ⟨fun {i schema} hget => ?_, fun {i} hlate => ?_⟩
  · rcases Nat.lt_or_ge i schemas.length with hlt | hge
    · rw [List.getElem?_append_left hlt] at hget
      exact h.holds hget
    · rw [List.getElem?_append_right hge] at hget
      obtain ⟨hindex, hschema⟩ := List.getElem?_eq_some_iff.mp hget
      rw [List.length_singleton, Nat.lt_one_iff] at hindex
      rw [h.later hge]
      rw [← hschema]
      simp only [hindex, List.getElem_cons_zero]
      exact SchemaLog.holds_create path
  · rw [List.length_append, List.length_singleton] at hlate
    exact h.later (by omega)

theorem Logged.register {schema : LoadedSchema} {count : Nat} (h : Logged labels (schemas ++ [schema])) :
    Logged labels (schemas ++ [{ schema with sortedDefsCount := count }]) := by
  refine ⟨fun {i schema'} hget => ?_, fun {i} hlate => ?_⟩
  · rcases Nat.lt_or_ge i schemas.length with hlt | hge
    · rw [List.getElem?_append_left hlt] at hget
      refine h.holds (i := i) ?_
      rwa [List.getElem?_append_left hlt]
    · rw [List.getElem?_append_right hge] at hget
      obtain ⟨hindex, hschema⟩ := List.getElem?_eq_some_iff.mp hget
      rw [List.length_singleton, Nat.lt_one_iff] at hindex
      have hlast : (schemas ++ [schema])[i]? = some schema := by
        rw [List.getElem?_append_right hge, hindex]
        rfl
      have hlog : schema'.log = schema.log := by
        rw [← hschema]
        simp only [hindex, List.getElem_cons_zero]
      rw [hlog]
      exact h.holds hlast
  · refine h.later (i := i) ?_
    rw [List.length_append, List.length_singleton] at hlate ⊢
    exact hlate

theorem Logged.report (h : Logged labels schemas) {i : Nat} (hi : i < schemas.length) (report : Report) :
    Logged (labels ++ [.report i report]) (schemas.modify i (LoadedSchema.addDiagnostic report)) := by
  refine ⟨fun {j schema} hget => ?_, fun {j} hlate => ?_⟩
  · rw [List.getElem?_modify] at hget
    obtain ⟨old, hold, hschema⟩ := Option.map_eq_some_iff.mp hget
    rw [reportsTo_append, reportsTo_report]
    by_cases hij : i = j
    · rw [if_pos hij] at hschema ⊢
      rw [← hschema]
      exact (h.holds hold).addDiagnostic report
    · rw [if_neg hij] at hschema ⊢
      rw [List.append_nil, ← hschema]
      exact h.holds hold
  · rw [List.length_modify] at hlate
    rw [reportsTo_append, reportsTo_report, if_neg (by omega), List.append_nil]
    exact h.later hlate

theorem MayReport.lt {phase : Phase} {count i : Nat} (h : MayReport phase count i) : i < count := by
  cases h with
  | scanning => exact Nat.lt_succ_self _
  | parsing => exact Nat.lt_succ_self _
  | importing => exact Nat.lt_succ_self _
  | validating hlt => exact hlt

theorem validateStart_quiet (schemas : List LoadedSchema) : (validateStart schemas).1.quiet = true := by
  unfold validateStart
  split <;> rfl

theorem parseEnd_quiet (schemas : List LoadedSchema) : (parseEnd schemas).1.quiet = true := by
  unfold parseEnd
  split
  · rfl
  · exact validateStart_quiet schemas

theorem Logged.step {state state' : CompilerState} (h : Logged labels state.schemas)
    (hstep : Step state label state') : Logged (labels ++ [label]) state'.schemas := by
  cases hstep with
  | create schemas path => exact (h.create path).quiet rfl
  | scanned schemas => exact h.quiet rfl
  | register schemas schema => exact h.register.quiet rfl
  | parsed schemas => exact h.quiet rfl
  | imported schemas => exact h.quiet rfl
  | loaded schemas => exact h.quiet (parseEnd_quiet schemas)
  | validated schemas => exact h.quiet rfl
  | report schemas report hmay => exact h.report hmay.lt report
  | fail schemas hrunning => exact h.quiet rfl

theorem Logged.run {state state' : CompilerState} {labels' : List Label}
    (h : Logged labels state.schemas) (hrun : Run Step state labels' state') :
    Logged (labels ++ labels') state'.schemas := by
  induction hrun generalizing labels with
  | nil state => rwa [List.append_nil]
  | cons hstep _ ih =>
    have hnext := ih (h.step hstep)
    rwa [List.append_assoc] at hnext

theorem logged_start : Logged [] CompilerState.start.schemas := ⟨nofun, fun _ => rfl⟩

end Bebop.Compiler
