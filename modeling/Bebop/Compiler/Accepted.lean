import Bebop.Compiler.Validate
import Bebop.Lib.Loops
import Mathlib.Algebra.Order.BigOperators.Group.List
import Mathlib.Algebra.Order.Group.Nat

/-!
# Bebop — what acceptance says about the first passes

An error that the validator reports is stored and counted if the schema has room
for another diagnostic. A result that is accepted although its schemas have room
is one of which the passes over names and types report nothing.
-/

namespace Bebop.Compiler

def AllErrors (reports : List Report) : Prop := ∀ report ∈ reports, report.isError

section AllErrors

variable {reports reports' : List Report}

theorem allErrors_nil : AllErrors [] := nofun

theorem allErrors_errorAt (code : Nat) (span : Span) (message : String) (hint : Option String) :
    AllErrors [errorAt code span message hint] := by
  intro report hreport
  rw [List.mem_singleton.mp hreport]
  rfl

theorem AllErrors.append (h : AllErrors reports) (h' : AllErrors reports') : AllErrors (reports ++ reports') := by
  intro report hreport
  rcases List.mem_append.mp hreport with hmem | hmem
  · exact h report hmem
  · exact h' report hmem

theorem allErrors_flatMap {α : Type} {items : List α} {f : α → List Report} (h : ∀ a ∈ items, AllErrors (f a)) :
    AllErrors (items.flatMap f) := by
  intro report hreport
  obtain ⟨a, ha, hmem⟩ := List.mem_flatMap.mp hreport
  exact h a ha report hmem

end AllErrors

namespace ParseResult

variable {result : ParseResult}

/-! ## The passes report errors -/

theorem allErrors_multipleDefinitions (ref : DefRef) : AllErrors (result.multipleDefinitions ref) := by
  unfold multipleDefinitions
  split
  · exact allErrors_errorAt _ _ _ _
  · exact allErrors_nil

theorem allErrors_visitDefined (context : DefRef) (kind : ResolveKind) (span : Span) (name : Text)
    (old : Option DefRef) : AllErrors (result.visitDefined context kind span name old).reports := by
  unfold visitDefined
  split
  · exact allErrors_errorAt _ _ _ _
  · exact allErrors_errorAt _ _ _ _
  · split
    · exact allErrors_nil
    · split
      · exact allErrors_errorAt _ _ _ _
      · split
        · exact allErrors_errorAt _ _ _ _
        · exact allErrors_nil

theorem allErrors_visitType (context : DefRef) (kind : ResolveKind) (depth : Nat) (type : Ty) :
    AllErrors (result.visitType context kind depth type).reports := by
  induction type generalizing depth with
  | scalar span scalar =>
    rw [visitType]
    split
    · exact allErrors_errorAt _ _ _ _
    · exact allErrors_nil
  | array span element ih =>
    rw [visitType]
    split
    · exact allErrors_errorAt _ _ _ _
    · exact ih (depth + 1)
  | fixedArray span element size ih =>
    rw [visitType]
    split
    · exact allErrors_errorAt _ _ _ _
    · exact ih (depth + 1)
  | map span key value ihKey ihValue =>
    rw [visitType]
    split
    · exact allErrors_errorAt _ _ _ _
    · dsimp only
      split
      · exact (ihKey (depth + 1)).append (ihValue (depth + 1))
      · exact ihKey (depth + 1)
  | defined span name old =>
    rw [visitType]
    split
    · exact allErrors_errorAt _ _ _ _
    · exact allErrors_visitDefined context kind span name old

theorem allErrors_typeReports (context : DefRef) (kind : ResolveKind) (type : Ty) :
    AllErrors (result.typeReports context kind type) :=
  allErrors_visitType context kind 0 type

theorem allErrors_branchReports (context : DefRef) (branch : Branch) :
    AllErrors (result.branchReports context branch) := by
  unfold branchReports
  split
  · exact allErrors_nil
  · refine (allErrors_typeReports _ _ _).append ?_
    split
    · exact allErrors_errorAt _ _ _ _
    · exact allErrors_errorAt _ _ _ _
    · exact allErrors_errorAt _ _ _ _
    · exact allErrors_errorAt _ _ _ _
    · exact allErrors_errorAt _ _ _ _
    · exact allErrors_nil

theorem allErrors_bodyReports (context : DefRef) (d : Def) : AllErrors (result.bodyReports context d) := by
  unfold bodyReports
  split
  · exact allErrors_flatMap fun field _ => allErrors_typeReports _ _ _
  · exact allErrors_flatMap fun field _ => allErrors_typeReports _ _ _
  · exact allErrors_flatMap fun branch _ => allErrors_branchReports _ _
  · refine AllErrors.append ?_ (allErrors_flatMap fun mixin _ => allErrors_typeReports _ _ _)
    exact allErrors_flatMap fun method _ => (allErrors_typeReports _ _ _).append (allErrors_typeReports _ _ _)
  · exact allErrors_nil
  · exact allErrors_nil
  · exact allErrors_nil

theorem allErrors_resolveDef (ref : DefRef) : AllErrors (result.resolveDef ref) := by
  unfold resolveDef
  split
  · exact allErrors_nil
  · refine (allErrors_bodyReports _ _).append (allErrors_flatMap fun k _ => ?_)
    split
    · exact allErrors_nil
    · exact allErrors_bodyReports _ _

theorem allErrors_flatten {lists : List (List Report)} (h : ∀ reports ∈ lists, AllErrors reports) :
    AllErrors lists.flatten := by
  intro report hreport
  obtain ⟨reports, hmem, hreport⟩ := List.mem_flatten.mp hreport
  exact h reports hmem report hreport

theorem allErrors_mixinMethodReports {methods : List Method} {later : List Ty} {mixinType : Ty} {mixinName : Text}
    {method : Method} {reports : List Report}
    (h : result.mixinMethodReports methods later mixinType mixinName method = some reports) : AllErrors reports := by
  unfold mixinMethodReports at h
  dsimp only at h
  obtain ⟨lists, hlists, rfl⟩ := Option.map_eq_some_iff.mp h
  refine AllErrors.append ?_ (allErrors_flatten fun list hlist => ?_)
  · split
    · exact allErrors_nil
    · exact allErrors_errorAt _ _ _ _
  · obtain ⟨other, -, hsearch⟩ := (Loops.mapM_eq_some hlists).2 list hlist
    obtain ⟨found, -, rfl⟩ := Option.map_eq_some_iff.mp hsearch
    cases found with
    | none => exact allErrors_nil
    | some method => exact allErrors_errorAt _ _ _ _

theorem allErrors_mixinReports {methods : List Method} {mixins : List Ty} {reports : List Report}
    (h : result.mixinReports methods mixins = some reports) : AllErrors reports := by
  induction mixins generalizing reports with
  | nil =>
    cases h
    exact allErrors_nil
  | cons mixin later ih =>
    unfold mixinReports at h
    dsimp only at h
    obtain ⟨first, hfirst, h⟩ := Option.bind_eq_some_iff.mp h
    obtain ⟨rest, hrest, rfl⟩ := Option.map_eq_some_iff.mp h
    refine AllErrors.append ?_ (ih hrest)
    split at hfirst
    · split at hfirst
      · cases hfirst
        exact allErrors_errorAt _ _ _ _
      · obtain ⟨lists, hlists, rfl⟩ := Option.map_eq_some_iff.mp hfirst
        refine allErrors_flatten fun list hlist => ?_
        obtain ⟨method, -, hmethod⟩ := (Loops.mapM_eq_some hlists).2 list hlist
        exact allErrors_mixinMethodReports hmethod
    · cases hfirst
      exact allErrors_nil

theorem allErrors_methodTypeReports (method : Method) (type : Ty) (message : String) :
    AllErrors (result.methodTypeReports method type message) := by
  unfold methodTypeReports
  split
  · exact allErrors_errorAt _ _ _ _
  · exact allErrors_errorAt _ _ _ _
  · exact allErrors_errorAt _ _ _ _
  · exact allErrors_errorAt _ _ _ _
  · exact allErrors_nil

theorem allErrors_validateService {d : Def} {reports : List Report} (h : result.validateService d = some reports) :
    AllErrors reports := by
  unfold validateService at h
  split at h
  · obtain ⟨mixinReports, hmixins, rfl⟩ := Option.map_eq_some_iff.mp h
    refine (AllErrors.append ?_ (allErrors_mixinReports hmixins)).append (allErrors_flatMap fun method _ => ?_)
    · split
      · exact allErrors_errorAt _ _ _ _
      · exact allErrors_nil
    · exact (allErrors_methodTypeReports _ _ _).append (allErrors_methodTypeReports _ _ _)
  · cases h
    exact allErrors_nil

theorem allErrors_decoratorReports (s : Nat) (decorator : Decorator) :
    AllErrors (result.decoratorReports s decorator) := by
  unfold decoratorReports
  split
  · exact allErrors_nil
  · exact allErrors_errorAt _ _ _ _
  · exact allErrors_errorAt _ _ _ _

/-! ## Errors that are kept -/

variable (result) in
/-- The validator cannot lose an error: each schema has room for another
diagnostic, and the schemas are too few for the total to come round to zero. -/
structure KeepsErrors : Prop where
  room : ∀ schema ∈ result.schemas, schema.log.diagnostics.length < maxDiagnostics
  few : result.schemas.length * maxDiagnostics < 2 ^ 32

def reportsOf (reports : List (Nat × Report)) (s : Nat) : List Report :=
  (reports.filter fun report => report.1 = s).map Prod.snd

theorem sum_errorCount_le (result : ParseResult) (reports : List (Nat × Report)) :
    ((result.logged reports).map fun schema => schema.log.errorCount).sum ≤
      result.schemas.length * maxDiagnostics := by
  have hbound (schema : LoadedSchema) (h : schema ∈ result.logged reports) :
      schema.log.errorCount ≤ maxDiagnostics := by
    obtain ⟨s, hs, rfl⟩ := List.mem_mapIdx.mp h
    obtain ⟨before, hbefore⟩ := (result.schemas[s]).log_holds
    have hcount := (hbefore.addAll (reportsOf reports s)).errors
    exact hcount.trans_le (List.countP_le_length.trans (List.length_take_le _ _))
  have hsum := List.sum_le_card_nsmul ((result.logged reports).map fun schema => schema.log.errorCount)
    maxDiagnostics (by
      intro n hn
      obtain ⟨schema, hschema, rfl⟩ := List.mem_map.mp hn
      exact hbound schema hschema)
  rw [List.length_map, Nat.nsmul_eq_mul] at hsum
  rwa [logged, List.length_mapIdx] at hsum

theorem KeepsErrors.finalStatus_error (h : result.KeepsErrors) {s : Nat} (hs : s < result.schemas.length)
    {report : Report} (herror : report.isError) (rest : List (Nat × Report)) :
    finalStatus (result.logged ((s, report) :: rest)) = .error := by
  have hle := sum_errorCount_le result ((s, report) :: rest)
  have hpos : 0 < ((result.logged ((s, report) :: rest)).map fun schema => schema.log.errorCount).sum := by
    refine List.sum_pos_iff_exists_pos_nat.mpr ⟨_, List.mem_map.mpr ⟨_, List.mem_mapIdx.mpr ⟨s, hs, rfl⟩, rfl⟩, ?_⟩
    obtain ⟨before, hbefore⟩ := (result.schemas[s]).log_holds
    -- there are fewer than a hundred reports before it
    have hroom := h.room _ (List.getElem_mem hs)
    rw [hbefore.stored, List.length_take] at hroom
    have hbefore' := hbefore.addAll (reportsOf ((s, report) :: rest) s)
    refine hbefore'.errorCount_pos.mpr ⟨report, ?_, herror⟩
    have hfirst : reportsOf ((s, report) :: rest) s = report :: reportsOf rest s := by
      unfold reportsOf
      rw [List.filter_cons_of_pos (by exact decide_eq_true rfl), List.map_cons]
    rw [hfirst, List.take_append, List.mem_append]
    refine .inr ?_
    obtain ⟨more, hmore⟩ : ∃ more, maxDiagnostics - before.length = more + 1 :=
      ⟨maxDiagnostics - before.length - 1, by omega⟩
    rw [hmore, List.take_succ_cons]
    exact List.mem_cons_self
  rcases finalStatus_cases (result.logged ((s, report) :: rest)) with hstatus | hstatus
  · exact hstatus.1
  · have hzero := hstatus.2
    have hfew := h.few
    rw [totalErrorCount_eq, Nat.mod_eq_of_lt (by omega)] at hzero
    omega

theorem totalDefs_eq {schemas : List LoadedSchema} {total : Nat} (h : totalDefs schemas = some total) :
    total = (schemas.map LoadedSchema.sortedDefsCount).sum := by
  have hfold (start : Nat) (hfold : schemas.foldlM (fun total schema =>
        if total > uint32Max - schema.sortedDefsCount then none else some (total + schema.sortedDefsCount))
        start = some total) : total = start + (schemas.map LoadedSchema.sortedDefsCount).sum := by
    clear h
    induction schemas generalizing start with
    | nil =>
      rw [List.foldlM_nil] at hfold
      exact (Option.some.inj hfold).symm
    | cons schema schemas ih =>
      rw [List.foldlM_cons] at hfold
      obtain ⟨next, hnext, hrest⟩ := Option.bind_eq_some_iff.mp hfold
      rw [ih _ hrest, List.map_cons, List.sum_cons]
      split at hnext
      · cases hnext
      · rw [← Option.some.inj hnext, Nat.add_assoc]
  rw [hfold 0 h, Nat.zero_add]

theorem registered_eq_nil (h : totalDefs (result.logged []) = some 0) : result.registered = [] := by
  have hsum := totalDefs_eq h
  rw [eq_comm, List.sum_eq_zero_iff_forall_eq_nat] at hsum
  refine List.eq_nil_iff_forall_not_mem.mpr fun ref href => ?_
  obtain ⟨refs, hrefs, hmem⟩ := List.mem_flatten.mp href
  obtain ⟨s, hs, rfl⟩ := List.mem_mapIdx.mp hrefs
  have hlength : result.schemas[s].sortedDefs.length = 0 :=
    hsum _ (List.mem_map.mpr ⟨_, List.mem_mapIdx.mpr ⟨s, hs, rfl⟩, rfl⟩)
  rw [List.length_eq_zero_iff.mp hlength] at hmem
  cases hmem

theorem Accepted.first_not_error {checks : DecoratorChecks} (h : result.Accepted checks) (hkeeps : result.KeepsErrors)
    (hsome : result.registered ≠ []) {s : Nat} {report : Report} {rest : List (Nat × Report)}
    (hreports : result.allReports checks = some ((s, report) :: rest)) (hs : s < result.schemas.length) :
    ¬report.isError := by
  intro herror
  unfold Accepted validate at h
  split at h
  · rcases h with h | h <;> cases h
  · rename_i hzero
    exact hsome (registered_eq_nil hzero)
  · rw [hreports, Option.map_some, hkeeps.finalStatus_error hs herror] at h
    split at h
    · rcases h with h | h <;> cases h
    · rcases h with h | h <;> cases h

theorem Accepted.allReports_isSome {checks : DecoratorChecks} (h : result.Accepted checks)
    (hsome : result.registered ≠ []) : ∃ reports, result.allReports checks = some reports := by
  unfold Accepted validate at h
  split at h
  · rcases h with h | h <;> cases h
  · rename_i hzero
    exact absurd (registered_eq_nil hzero) hsome
  · cases hreports : result.allReports checks with
    | some reports => exact ⟨reports, rfl⟩
    | none =>
      rw [hreports] at h
      rcases h with h | h <;> cases h

theorem lt_of_mem_registered {ref : DefRef} (h : ref ∈ result.registered) : ref.schema < result.schemas.length := by
  obtain ⟨d, hd⟩ := mem_registered.mp h
  obtain ⟨schema, hschema, -⟩ := Option.bind_eq_some_iff.mp hd
  exact (List.getElem?_eq_some_iff.mp hschema).1

theorem Accepted.silent {checks : DecoratorChecks} (h : result.Accepted checks) (hkeeps : result.KeepsErrors)
    (hsome : result.registered ≠ []) {first more : List (Nat × Report)}
    (hreports : result.allReports checks = some (first ++ more))
    (herrors : ∀ x ∈ first, x.1 < result.schemas.length ∧ x.2.isError) : first = [] := by
  cases first with
  | nil => rfl
  | cons x rest =>
    obtain ⟨s, report⟩ := x
    have hhead := herrors (s, report) List.mem_cons_self
    exact absurd hhead.2 (h.first_not_error hkeeps hsome hreports hhead.1)

theorem forEachDef_errors {reports : DefRef → List Report} (h : ∀ ref ∈ result.registered, AllErrors (reports ref)) :
    ∀ x ∈ result.forEachDef reports, x.1 < result.schemas.length ∧ x.2.isError := by
  intro x hx
  obtain ⟨ref, href, hx⟩ := List.mem_flatMap.mp hx
  obtain ⟨report, hreport, rfl⟩ := List.mem_map.mp hx
  exact ⟨lt_of_mem_registered href, h ref href report hreport⟩

theorem forEachDef_eq_nil {reports : DefRef → List Report} (h : result.forEachDef reports = []) :
    ∀ ref ∈ result.registered, reports ref = [] :=
  fun ref href => List.map_eq_nil_iff.mp (List.flatMap_eq_nil_iff.mp h ref href)

theorem first_passes_silent {checks : DecoratorChecks} (h : result.Accepted checks) (hkeeps : result.KeepsErrors) :
    (∀ ref ∈ result.registered, result.multipleDefinitions ref = []) ∧
      ∀ ref ∈ result.registered, result.resolveDef ref = [] := by
  by_cases hsome : result.registered = []
  · rw [hsome]
    exact ⟨nofun, nofun⟩
  obtain ⟨reports, hreports⟩ := h.allReports_isSome hsome
  -- the reports of the two passes come first
  obtain ⟨more, rfl⟩ : ∃ more,
      reports = (result.forEachDef result.multipleDefinitions ++ result.forEachDef result.resolveDef) ++ more := by
    obtain ⟨early, hearly, rfl⟩ := Option.map_eq_some_iff.mp hreports
    obtain ⟨services, -, rfl⟩ := Option.map_eq_some_iff.mp hearly
    rw [List.append_assoc, List.append_assoc, List.append_assoc]
    exact ⟨_, rfl⟩
  have hnil := h.silent hkeeps hsome hreports fun x hx => (List.mem_append.mp hx).elim
    (forEachDef_errors (fun ref _ => allErrors_multipleDefinitions ref) x)
    (forEachDef_errors (fun ref _ => allErrors_resolveDef ref) x)
  obtain ⟨hnames, htypes⟩ := List.append_eq_nil_iff.mp hnil
  exact ⟨forEachDef_eq_nil hnames, forEachDef_eq_nil htypes⟩

theorem next_passes_silent {checks : DecoratorChecks} (h : result.Accepted checks) (hkeeps : result.KeepsErrors) :
    (∀ ref ∈ result.registered, ∀ d, result.resolved.def? ref = some d → result.resolved.validateService d = some []) ∧
      ∀ ref ∈ result.registered, ∀ d, result.def? ref = some d → ∀ x ∈ d.decoratorChains.flatten,
        result.decoratorReports ref.schema x = [] := by
  by_cases hsome : result.registered = []
  · rw [hsome]
    exact ⟨fun _ hnone => (by cases hnone), fun _ hnone => by cases hnone⟩
  obtain ⟨reports, hreports⟩ := h.allReports_isSome hsome
  obtain ⟨early, hearly, hrest⟩ := Option.map_eq_some_iff.mp hreports
  rw [← hrest, List.append_assoc] at hreports
  obtain ⟨services, hservices, rfl⟩ := Option.map_eq_some_iff.mp hearly
  obtain ⟨lists, hlists, rfl⟩ := Option.map_eq_some_iff.mp hservices
  obtain ⟨hto, hfrom⟩ := Loops.mapM_eq_some hlists
  have hregistered : result.resolved.registered = result.registered := registered_relink _ _ _
  have herrors : ∀ x ∈ lists.flatten, x.1 < result.schemas.length ∧ x.2.isError := by
    intro x hx
    obtain ⟨list, hlist, hx⟩ := List.mem_flatten.mp hx
    obtain ⟨ref, href, hlist⟩ := hfrom list hlist
    rw [hregistered] at href
    split at hlist
    · cases hlist
      cases hx
    · obtain ⟨reports, hservice, rfl⟩ := Option.map_eq_some_iff.mp hlist
      obtain ⟨report, hreport, rfl⟩ := List.mem_map.mp hx
      exact ⟨lt_of_mem_registered href, allErrors_validateService hservice report hreport⟩
  have hnil := h.silent hkeeps hsome hreports fun x hx => by
    rcases List.mem_append.mp hx with hx | hx
    · rcases List.mem_append.mp hx with hx | hx
      · rcases List.mem_append.mp hx with hx | hx
        · exact forEachDef_errors (fun ref _ => allErrors_multipleDefinitions ref) x hx
        · exact forEachDef_errors (fun ref _ => allErrors_resolveDef ref) x hx
      · exact herrors x hx
    · refine forEachDef_errors (fun ref _ => ?_) x hx
      cases result.def? ref with
      | none => exact allErrors_nil
      | some d => exact allErrors_flatMap fun x _ => allErrors_decoratorReports _ _
  obtain ⟨hfirst, hlast⟩ := List.append_eq_nil_iff.mp hnil
  have hflat := (List.append_eq_nil_iff.mp hfirst).2
  constructor
  · intro ref href d hd
    rw [← hregistered] at href
    obtain ⟨list, hlist, heq⟩ := hto ref href
    rw [hd] at heq
    obtain ⟨reports, hservice, rfl⟩ := Option.map_eq_some_iff.mp heq
    rw [hservice, List.map_eq_nil_iff.mp (List.flatten_eq_nil_iff.mp hflat _ hlist)]
  · intro ref href d hd x hx
    have hreports := forEachDef_eq_nil hlast ref href
    rw [hd] at hreports
    exact List.flatMap_eq_nil_iff.mp hreports x hx

end ParseResult

end Bebop.Compiler
