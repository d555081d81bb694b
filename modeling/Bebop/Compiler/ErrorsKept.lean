import Bebop.Compiler.Driver

/-!
# Bebop — which errors the status knows of

The compiler accepts exactly if no error was counted (`Settled`), up to the 32 bits of the
total. A schema counts an error among the first hundred diagnostics reported to it, so an
error is lost if a hundred other diagnostics came first.
-/

namespace Bebop.Compiler

open Transition

/-! ## The totals -/

/-- The errors among the diagnostics that the first `count` schemas stored. -/
def errorsCounted (count : Nat) (labels : List Label) : Nat :=
  ((List.range count).map fun i => ((reportsTo i labels).take maxDiagnostics).countP Report.isError).sum

theorem Logged.sum_errorCount {labels : List Label} {schemas : List LoadedSchema}
    (h : Logged labels schemas) :
    (schemas.map fun schema => schema.log.errorCount).sum = errorsCounted schemas.length labels := by
  unfold errorsCounted
  refine congrArg List.sum (List.ext_getElem ?_ fun i hi hi' => ?_)
  · rw [List.length_map, List.length_map, List.length_range]
  · rw [List.getElem_map, List.getElem_map, List.getElem_range]
    rw [List.length_map] at hi
    exact (h.holds (List.getElem?_eq_getElem hi)).errors

theorem Logged.totalErrorCount {labels : List Label} {schemas : List LoadedSchema}
    (h : Logged labels schemas) :
    totalErrorCount schemas = errorsCounted schemas.length labels % 2 ^ 32 := by
  rw [totalErrorCount_eq, h.sum_errorCount]

theorem errorsCounted_quiet (count : Nat) (labels : List Label) {label : Label} (h : label.quiet = true) :
    errorsCounted count (labels ++ [label]) = errorsCounted count labels := by
  unfold errorsCounted
  simp only [reportsTo_append, reportsTo_of_quiet h, List.append_nil]

theorem errorsCounted_ne_zero {count : Nat} {labels : List Label} :
    errorsCounted count labels ≠ 0 ↔
      ∃ i < count, ∃ report ∈ (reportsTo i labels).take maxDiagnostics, report.isError := by
  unfold errorsCounted
  rw [← Nat.pos_iff_ne_zero, List.sum_pos_iff_exists_pos_nat]
  constructor
  · rintro ⟨n, hn, hpos⟩
    obtain ⟨i, hi, rfl⟩ := List.mem_map.mp hn
    exact ⟨i, List.mem_range.mp hi, List.countP_pos_iff.mp hpos⟩
  · rintro ⟨i, hi, hexists⟩
    exact ⟨_, List.mem_map.mpr ⟨i, List.mem_range.mpr hi, rfl⟩, List.countP_pos_iff.mpr hexists⟩

/-! ## The status -/

/-- What the status says about the total, and about giving up. -/
structure Settled (labels : List Label) (state : CompilerState) : Prop where
  fail : .fail ∈ labels ↔ state.phase = .returned .fatal
  error : state.phase = .returned .error → totalErrorCount state.schemas ≠ 0
  accepted : ∀ {status : Status}, state.phase = .returned status → status = .ok ∨ status = .okWithWarnings →
    totalErrorCount state.schemas = 0

theorem validateStart_cases (schemas : List LoadedSchema) :
    validateStart schemas = (.fail, .returned .fatal) ∨
    validateStart schemas = (.silent, .returned .ok) ∨ validateStart schemas = (.silent, .validating) := by
  unfold validateStart
  split
  · exact .inl rfl
  · split
    · exact .inr (.inl rfl)
    · exact .inr (.inr rfl)

theorem parseEnd_cases (schemas : List LoadedSchema) :
    (parseEnd schemas = (.silent, .returned .error) ∧ totalErrorCount schemas ≠ 0) ∨
    (parseEnd schemas = validateStart schemas ∧ totalErrorCount schemas = 0) := by
  unfold parseEnd
  by_cases herror : totalErrorCount schemas > 0
  · rw [if_pos herror]
    exact .inl ⟨rfl, by omega⟩
  · rw [if_neg herror]
    exact .inr ⟨rfl, by omega⟩

section Settled

variable {labels : List Label} {state state' : CompilerState} {label : Label}

theorem silent_ne_fail : Label.silent ≠ .fail := nofun

theorem report_ne_fail (i : Nat) (report : Report) : Label.report i report ≠ .fail := nofun

theorem mem_snoc_fail {label : Label} (h : label ≠ .fail) : .fail ∈ labels ++ [label] ↔ .fail ∈ labels := by
  rw [List.mem_append, List.mem_singleton]
  exact or_iff_left fun heq => h heq.symm

theorem settled_running (hfail : .fail ∉ labels) (hlabel : label ≠ .fail) {phase : Phase}
    (hphase : phase.running = true) (schemas : List LoadedSchema) :
    Settled (labels ++ [label]) ⟨phase, schemas⟩ := by
  refine ⟨?_, ?_, ?_⟩
  · rw [mem_snoc_fail hlabel]
    refine ⟨fun h => absurd h hfail, fun h => ?_⟩
    rw [show phase = _ from h] at hphase
    cases hphase
  · intro h
    rw [show phase = _ from h] at hphase
    cases hphase
  · intro status h
    rw [show phase = _ from h] at hphase
    cases hphase

theorem settled_fatal (schemas : List LoadedSchema) : Settled (labels ++ [.fail]) ⟨.returned .fatal, schemas⟩ :=
  ⟨⟨fun _ => rfl, fun _ => List.mem_append_right _ (List.mem_singleton_self _)⟩, nofun, fun hphase hstatus => by
    cases hphase
    rcases hstatus with h | h <;> cases h⟩

theorem settled_error (hfail : .fail ∉ labels) {schemas : List LoadedSchema}
    (herror : totalErrorCount schemas ≠ 0) : Settled (labels ++ [.silent]) ⟨.returned .error, schemas⟩ := by
  refine ⟨?_, fun _ => herror, ?_⟩
  · rw [mem_snoc_fail silent_ne_fail]
    exact ⟨fun h => absurd h hfail, nofun⟩
  · intro status hphase hstatus
    cases hphase
    rcases hstatus with h | h <;> cases h

theorem settled_accepted (hfail : .fail ∉ labels) {schemas : List LoadedSchema} {status : Status}
    (hstatus : status = .ok ∨ status = .okWithWarnings) (hnone : totalErrorCount schemas = 0) :
    Settled (labels ++ [.silent]) ⟨.returned status, schemas⟩ := by
  refine ⟨?_, ?_, fun _ _ => hnone⟩
  · rw [mem_snoc_fail silent_ne_fail]
    refine ⟨fun h => absurd h hfail, fun hphase => ?_⟩
    cases hphase
    rcases hstatus with h | h <;> cases h
  · intro hphase
    cases hphase
    rcases hstatus with h | h <;> cases h

theorem settled_validateStart (hfail : .fail ∉ labels) {schemas : List LoadedSchema}
    (hnone : totalErrorCount schemas = 0) :
    Settled (labels ++ [(validateStart schemas).1]) ⟨(validateStart schemas).2, schemas⟩ := by
  rcases validateStart_cases schemas with h | h | h <;> rw [h]
  · exact settled_fatal schemas
  · exact settled_accepted hfail (.inl rfl) hnone
  · exact settled_running hfail silent_ne_fail rfl schemas

theorem MayReport.running {phase : Phase} {count i : Nat} (h : MayReport phase count i) :
    phase.running = true := by
  cases h with
  | scanning => rfl
  | parsing => rfl
  | importing => rfl
  | validating hlt => rfl

theorem Step.running (h : Step state label state') : state.phase.running = true := by
  cases h with
  | create schemas path => rfl
  | scanned schemas => rfl
  | register schemas schema => rfl
  | parsed schemas => rfl
  | imported schemas => rfl
  | loaded schemas => rfl
  | validated schemas => rfl
  | report schemas report hmay => exact hmay.running
  | fail schemas hrunning => exact hrunning

theorem Settled.step (h : Settled labels state) (hstep : Step state label state') :
    Settled (labels ++ [label]) state' := by
  have hfail : .fail ∉ labels := by
    intro hmem
    have hrunning := hstep.running
    rw [h.fail.mp hmem] at hrunning
    cases hrunning
  cases hstep with
  | create schemas path => exact settled_running hfail silent_ne_fail rfl _
  | scanned schemas => exact settled_running hfail silent_ne_fail rfl _
  | register schemas schema => exact settled_running hfail silent_ne_fail rfl _
  | parsed schemas => exact settled_running hfail silent_ne_fail rfl _
  | imported schemas => exact settled_running hfail silent_ne_fail rfl _
  | loaded schemas =>
    rcases parseEnd_cases schemas with ⟨hend, herror⟩ | ⟨hend, hnone⟩ <;> rw [hend]
    · exact settled_error hfail herror
    · exact settled_validateStart hfail hnone
  | validated schemas =>
    rcases finalStatus_cases schemas with ⟨hstatus, herror⟩ | ⟨hstatus, hnone⟩
    · rw [hstatus]
      exact settled_error hfail herror
    · exact settled_accepted hfail hstatus hnone
  | report schemas report hmay =>
    exact settled_running hfail (report_ne_fail _ report) hmay.running _
  | fail schemas hrunning => exact settled_fatal schemas

theorem Settled.run {labels' : List Label} (h : Settled labels state) (hrun : Run Step state labels' state') :
    Settled (labels ++ labels') state' := by
  induction hrun generalizing labels with
  | nil state => rwa [List.append_nil]
  | cons hstep _ ih =>
    have hnext := ih (h.step hstep)
    rwa [List.append_assoc] at hnext

end Settled

theorem settled_start : Settled [] .start :=
  ⟨⟨nofun, nofun⟩, nofun, nofun⟩

/-! ## Errors that are not lost -/

/-- Every error is counted by its schema, and keeps the compiler from accepting. -/
def NoErrorLost (labels : List Label) (schemas : List LoadedSchema) (status : Status) : Prop :=
  ∀ i report, .report i report ∈ labels → report.loc.severity = .error →
    (∃ schema, schemas[i]? = some schema ∧ 0 < schema.log.errorCount) ∧
      status ≠ .ok ∧ status ≠ .okWithWarnings

/-- A schema that gets an error gets one among its first hundred diagnostics. -/
def ErrorsInTime (labels : List Label) : Prop :=
  ∀ i report, .report i report ∈ labels → report.loc.severity = .error →
    ∃ report' ∈ (reportsTo i labels).take maxDiagnostics, report'.loc.severity = .error

/-- The number of errors the schemas count is not a positive multiple of 2³². -/
def TotalFits (count : Nat) (labels : List Label) : Prop :=
  errorsCounted count labels ≠ 0 → errorsCounted count labels % 2 ^ 32 ≠ 0

section NoErrorLost

variable {labels : List Label} {schemas : List LoadedSchema} {status : Status}

theorem isError_iff {report : Report} : report.isError = true ↔ report.loc.severity = .error :=
  decide_eq_true_iff

theorem Logged.lt_of_report (h : Logged labels schemas) {i : Nat} {report : Report}
    (hmem : .report i report ∈ labels) : i < schemas.length := by
  by_contra hge
  have hnone := h.later (Nat.not_lt.mp hge)
  have hmem' := mem_reportsTo.mpr hmem
  rw [hnone] at hmem'
  cases hmem'

theorem Logged.counted_iff (h : Logged labels schemas) {i : Nat} {report : Report}
    (hmem : .report i report ∈ labels) :
    (∃ schema, schemas[i]? = some schema ∧ 0 < schema.log.errorCount) ↔
      ∃ report' ∈ (reportsTo i labels).take maxDiagnostics, report'.loc.severity = .error := by
  have hlt := h.lt_of_report hmem
  have hget : schemas[i]? = some schemas[i] := List.getElem?_eq_getElem hlt
  have hpos := (h.holds hget).errorCount_pos
  simp only [isError_iff] at hpos
  rw [← hpos]
  constructor
  · rintro ⟨schema, hschema, hcount⟩
    rw [hget] at hschema
    cases hschema
    exact hcount
  · intro hcount
    exact ⟨_, hget, hcount⟩

theorem noErrorLost_iff (h : Logged labels schemas)
    (hstatus : (status = .ok ∨ status = .okWithWarnings) → totalErrorCount schemas = 0)
    (herror : ¬(status = .ok ∨ status = .okWithWarnings) → status = .fatal ∨ totalErrorCount schemas ≠ 0) :
    NoErrorLost labels schemas status ↔
      ErrorsInTime labels ∧ (status = .fatal ∨ TotalFits schemas.length labels) := by
  constructor
  · intro hkept
    refine ⟨fun i report hmem hsev => ?_, ?_⟩
    · exact (h.counted_iff hmem).mp (hkept i report hmem hsev).1
    · by_cases haccepted : status = .ok ∨ status = .okWithWarnings
      · -- an accepted run has no error at all, or the property fails
        refine .inr fun hcounted => ?_
        obtain ⟨i, -, report, hreport, hsev⟩ := errorsCounted_ne_zero.mp hcounted
        have hmem := mem_reportsTo.mp (List.mem_of_mem_take hreport)
        have hnot := (hkept i report hmem (isError_iff.mp hsev)).2
        rcases haccepted with heq | heq
        · exact absurd heq hnot.1
        · exact absurd heq hnot.2
      · rcases herror haccepted with hfatal | htotal
        · exact .inl hfatal
        · refine .inr fun _ => ?_
          rwa [← h.totalErrorCount]
  · rintro ⟨hintime, htotal⟩ i report hmem hsev
    refine ⟨(h.counted_iff hmem).mpr (hintime i report hmem hsev), ?_⟩
    have hnot : ¬(status = .ok ∨ status = .okWithWarnings) := by
      intro haccepted
      rcases htotal with hfatal | hfits
      · rw [hfatal] at haccepted
        rcases haccepted with heq | heq <;> cases heq
      · obtain ⟨report', hreport', hsev'⟩ := hintime i report hmem hsev
        have hcounted : errorsCounted schemas.length labels ≠ 0 :=
          errorsCounted_ne_zero.mpr ⟨i, h.lt_of_report hmem, report', hreport', isError_iff.mpr hsev'⟩
        have hzero := hstatus haccepted
        rw [h.totalErrorCount] at hzero
        exact hfits hcounted hzero
    exact ⟨fun heq => hnot (.inl heq), fun heq => hnot (.inr heq)⟩

theorem noErrorLost_ok_iff (h : Logged labels schemas) :
    NoErrorLost labels schemas .ok ↔ ErrorsInTime labels ∧ errorsCounted schemas.length labels = 0 := by
  constructor
  · intro hkept
    refine ⟨fun i report hmem hsev => absurd rfl (hkept i report hmem hsev).2.1, ?_⟩
    by_contra hcounted
    obtain ⟨i, -, report, hreport, hsev⟩ := errorsCounted_ne_zero.mp hcounted
    have hmem := mem_reportsTo.mp (List.mem_of_mem_take hreport)
    exact (hkept i report hmem (isError_iff.mp hsev)).2.1 rfl
  · rintro ⟨hintime, hzero⟩ i report hmem hsev
    obtain ⟨report', hreport', hsev'⟩ := hintime i report hmem hsev
    refine absurd hzero (errorsCounted_ne_zero.mpr ⟨i, h.lt_of_report hmem, report', hreport', ?_⟩)
    exact isError_iff.mpr hsev'

end NoErrorLost

/-! ## The two entry points -/

/-- A call of `bebop_validate` on its own. -/
def ValidateRun (schemas : List LoadedSchema) (labels : List Label) (state : CompilerState) : Prop :=
  ∃ rest, labels = (validateStart schemas).1 :: rest ∧
    Run Step ⟨(validateStart schemas).2, schemas⟩ rest state

theorem Run.of_returned {state state' : CompilerState} {labels : List Label} {status : Status}
    (hrun : Run Step state labels state') (hphase : state.phase = .returned status) :
    labels = [] ∧ state' = state := by
  cases hrun with
  | nil => exact ⟨rfl, rfl⟩
  | cons hstep hrest =>
    have hrunning := hstep.running
    rw [hphase] at hrunning
    cases hrunning

theorem Settled.noErrorLost_iff {before labels : List Label} {state : CompilerState} {status : Status}
    (h : Settled labels state) (hlogged : Logged (before ++ labels) state.schemas)
    (hphase : state.phase = .returned status) :
    NoErrorLost (before ++ labels) state.schemas status ↔
      ErrorsInTime (before ++ labels) ∧
        (.fail ∈ labels ∨ TotalFits state.schemas.length (before ++ labels)) := by
  have hfatal : .fail ∈ labels ↔ status = .fatal := by
    rw [h.fail, hphase, Phase.returned.injEq]
  rw [hfatal]
  refine Compiler.noErrorLost_iff hlogged (h.accepted hphase) fun hnot => ?_
  cases status with
  | ok => exact absurd (.inl rfl) hnot
  | okWithWarnings => exact absurd (.inr rfl) hnot
  | error => exact .inr (h.error hphase)
  | fatal => exact .inl rfl

/-- No error is lost exactly if every schema that gets an error gets one among its first
hundred diagnostics and the number of errors does not wrap around to nothing. A call of
`bebop_validate` on its own must not find schemas without definitions that have errors. -/
theorem errors_kept_iff (labels : List Label) (state : CompilerState) (status : Status) :
    (Run Step .start labels state → state.phase = .returned status →
      (NoErrorLost labels state.schemas status ↔
        ErrorsInTime labels ∧ (.fail ∈ labels ∨ TotalFits state.schemas.length labels))) ∧
    ∀ before schemas, Logged before schemas →
      ValidateRun schemas labels state → state.phase = .returned status →
        (NoErrorLost (before ++ labels) state.schemas status ↔
          ErrorsInTime (before ++ labels) ∧ (.fail ∈ labels ∨
            (TotalFits state.schemas.length (before ++ labels) ∧
              (totalDefs schemas = some 0 → errorsCounted schemas.length before = 0)))) := by
  refine ⟨fun hrun hphase => ?_, ?_⟩
  · have hlogged : Logged ([] ++ labels) state.schemas := logged_start.run hrun
    exact (settled_start.run hrun).noErrorLost_iff hlogged hphase
  · rintro before schemas hbefore ⟨rest, rfl, hrun⟩ hphase
    have hlogged := (hbefore.quiet (validateStart_quiet schemas)).run hrun
    rw [List.append_assoc, List.singleton_append] at hlogged
    cases hdefs : totalDefs schemas with
    | none =>
      have hstart : validateStart schemas = (.fail, .returned .fatal) := by rw [validateStart, hdefs]
      rw [hstart] at hrun hlogged ⊢
      obtain ⟨rfl, rfl⟩ := Run.of_returned hrun rfl
      cases hphase
      rw [Compiler.noErrorLost_iff hlogged (by rintro (h | h) <;> cases h) fun _ => .inl rfl]
      simp only [List.mem_singleton, true_or, and_true]
    | some total =>
      by_cases hzero : total = 0
      · -- nothing is looked at any more
        have hstart : validateStart schemas = (.silent, .returned .ok) := by
          rw [validateStart, hdefs]
          dsimp only
          rw [if_pos hzero]
        rw [hstart] at hrun hlogged ⊢
        obtain ⟨rfl, rfl⟩ := Run.of_returned hrun rfl
        cases hphase
        rw [noErrorLost_ok_iff hlogged]
        have hsame := errorsCounted_quiet schemas.length before (show Label.silent.quiet = true from rfl)
        have hfits : TotalFits schemas.length (before ++ [.silent]) ∧
            (some total = some 0 → errorsCounted schemas.length before = 0) ↔
              errorsCounted schemas.length (before ++ [.silent]) = 0 := by
          rw [hsame, hzero]
          refine ⟨fun h => h.2 rfl, fun h => ⟨fun hne => ?_, fun _ => h⟩⟩
          exact absurd (hsame.trans h) hne
        rw [hfits, List.mem_singleton, or_iff_right silent_ne_fail.symm]
      · have hstart : validateStart schemas = (.silent, .validating) := by
          rw [validateStart, hdefs]
          dsimp only
          rw [if_neg hzero]
        rw [hstart] at hrun hlogged ⊢
        have hsettled : Settled ([] ++ [.silent]) ⟨.validating, schemas⟩ :=
          settled_running (by exact List.not_mem_nil) silent_ne_fail rfl schemas
        have hend := hsettled.run hrun
        rw [List.nil_append, List.singleton_append] at hend
        rw [hend.noErrorLost_iff hlogged hphase]
        simp only [Option.some_inj, hzero, false_implies, and_true]

/-! ## A hundred warnings -/

def Report.of (severity : Severity) (code : Nat) (message : String) : Report :=
  ⟨⟨severity, code, ⟨0, 0, 1, 1, 1, 1⟩⟩, message, none⟩

/-- A syntax error in the only file. -/
theorem errors_kept_syntaxError :
    ∃ labels state, Run Step .start labels state ∧ state.phase = .returned .error ∧
      .report 0 (.of .error 104 "Unexpected token") ∈ labels ∧ NoErrorLost labels state.schemas .error := by
  let report : Report := .of .error 104 "Unexpected token"
  let schema : LoadedSchema := ⟨(SchemaLog.create none).addDiagnostic report, 0⟩
  have hrun : Run Step .start [.silent, .silent, .report 0 report, .silent, .silent, .silent]
      ⟨.returned .error, [schema]⟩ :=
    .cons (.create [] none) <| .cons (.scanned _) <| .cons (.report _ report (.parsing 0)) <|
      .cons (.parsed _) <| .cons (.imported _) <| .cons (.loaded _) (.nil _)
  refine ⟨_, _, hrun, rfl, by decide, ?_⟩
  refine ((errors_kept_iff _ _ _).1 hrun rfl).mpr ⟨?_, .inr ?_⟩
  · intro i report' hmem hsev
    have hreport : Label.report i report' = .report 0 report := by simpa using hmem
    obtain ⟨rfl, rfl⟩ := Label.report.inj hreport
    exact ⟨report, by decide, rfl⟩
  · intro _
    decide

/-- What the parser says of `export struct S { }`. -/
def redundantExport : Report :=
  .of .warning 202 "'export' on top-level definition is redundant (top-level is exported by default)"

/-- The schema of `count` such definitions. -/
def exported : Nat → LoadedSchema
  | 0 => ⟨.create none, 0⟩
  | count + 1 =>
    { exported count with
      log := (exported count).log.addDiagnostic redundantExport
      sortedDefsCount := (exported count).sortedDefsCount + 1 }

theorem exported_run (count : Nat) :
    Run Step ⟨.parsing, [exported 0]⟩ (List.replicate count [.report 0 redundantExport, .silent]).flatten
      ⟨.parsing, [exported count]⟩ := by
  induction count with
  | zero => exact .nil _
  | succ count ih =>
    rw [List.replicate_succ', List.flatten_append]
    refine ih.append (.cons (.report _ redundantExport (.parsing 0)) (.single ?_))
    exact .register [] ((exported count).addDiagnostic redundantExport)

theorem exported_holds (count : Nat) :
    (exported count).log.Holds (List.replicate count redundantExport) ∧
      (exported count).sortedDefsCount = count := by
  induction count with
  | zero => exact ⟨SchemaLog.holds_create none, rfl⟩
  | succ count ih =>
    rw [List.replicate_succ']
    exact ⟨ih.1.addDiagnostic redundantExport, congrArg (· + 1) ih.2⟩

/-- After a hundred warnings an unknown type is not reported, and is accepted. -/
theorem error_lost :
    ∃ labels state, Run Step .start labels state ∧ state.phase = .returned .okWithWarnings ∧
      .report 0 (.of .error 105 "Unknown type 'Missing' referenced in 'T'") ∈ labels ∧
      ¬NoErrorLost labels state.schemas .okWithWarnings := by
  let unknownType : Report := .of .error 105 "Unknown type 'Missing' referenced in 'T'"
  obtain ⟨full, hexports, hholds, hcount⟩ : ∃ full, Run Step ⟨.parsing, [exported 0]⟩
      (List.replicate maxDiagnostics [.report 0 redundantExport, .silent]).flatten ⟨.parsing, [full]⟩ ∧
      full.log.Holds (List.replicate maxDiagnostics redundantExport) ∧ full.sortedDefsCount = maxDiagnostics :=
    ⟨_, exported_run maxDiagnostics, exported_holds maxDiagnostics⟩
  have hfull : full.log.addDiagnostic unknownType = full.log := by
    have hstored := hholds.stored
    rw [List.take_of_length_le (Nat.le_of_eq List.length_replicate), List.length_replicate] at hstored
    rw [SchemaLog.addDiagnostic, if_pos (Nat.le_of_eq hstored.symm)]
  have herrors : full.log.errorCount = 0 := by
    rw [hholds.errors, List.countP_eq_zero]
    intro report hmem
    rw [List.eq_of_mem_replicate (List.mem_of_mem_take hmem)]
    decide
  have hwarnings : full.log.warningCount = maxDiagnostics := by
    rw [hholds.warnings, List.take_of_length_le (Nat.le_of_eq List.length_replicate), List.countP_replicate]
    rfl
  -- the last definition is `struct T { f: Missing; }`
  let schema : LoadedSchema := { full with sortedDefsCount := maxDiagnostics + 1 }
  have hend : parseEnd [schema] = (.silent, .validating) := by
    rw [parseEnd, totalErrorCount_eq, List.map_singleton, List.sum_singleton, herrors]
    rfl
  have hstatus : finalStatus [schema] = .okWithWarnings := by
    rw [finalStatus, totalErrorCount_eq, List.map_singleton, List.sum_singleton, herrors]
    rw [if_neg (by decide), totalWarningCount, List.foldl_cons, List.foldl_nil, hwarnings]
    rfl
  have hparsed : Step ⟨.parsing, [full]⟩ .silent ⟨.parsing, [schema]⟩ := by
    have hstep := Step.register [] full
    rw [hcount] at hstep
    exact hstep
  have hloaded : Step ⟨.next, [schema]⟩ .silent ⟨.validating, [schema]⟩ := by
    have hstep := Step.loaded [schema]
    rwa [hend] at hstep
  have hreport : Step ⟨.validating, [schema]⟩ (.report 0 unknownType) ⟨.validating, [schema]⟩ := by
    have hstep := Step.report [schema] unknownType (.validating Nat.zero_lt_one)
    have hsame : [schema].modify 0 (LoadedSchema.addDiagnostic unknownType) = [schema] := by
      change [{ schema with log := full.log.addDiagnostic unknownType }] = [schema]
      rw [hfull]
    rwa [hsame] at hstep
  have hvalidated : Step ⟨.validating, [schema]⟩ .silent ⟨.returned .okWithWarnings, [schema]⟩ := by
    have hstep := Step.validated [schema]
    rwa [hstatus] at hstep
  have hrun := (Run.cons (.create [] none) (.single (.scanned _))).append <|
    hexports.append <| .cons hparsed <| .cons (.parsed _) <| .cons (.imported _) <|
      .cons hloaded <| .cons hreport <| .single hvalidated
  have hmem : Label.report 0 unknownType ∈
      [Label.silent, .silent] ++ ((List.replicate maxDiagnostics [.report 0 redundantExport, .silent]).flatten ++
        [.silent, .silent, .silent, .silent, .report 0 unknownType, .silent]) := by
    refine List.mem_append_right _ (List.mem_append_right _ ?_)
    simp only [List.mem_cons, true_or, or_true]
  refine ⟨_, _, hrun, rfl, hmem, fun hkept => ?_⟩
  exact (hkept 0 unknownType hmem rfl).2.2 rfl

end Bebop.Compiler
