import Bebop.Compiler.ImportOrder

/-!
# Bebop — validation with the imports in another order

If every name on which the order of the imports could bear means the same in both orders,
then the passes set the same pointers and report as many errors to each schema. The texts
of the reports may differ: a hint lists the definitions in the order of the imports.
-/

namespace Bebop.Compiler

/-! ## Severities decide the status -/

def Report.severity (report : Report) : Severity := report.loc.severity

/-- What a walk sets, whether it got to the end, and how severe its reports are. -/
def Visit.outcome (visit : Visit) : Ty × Bool × List Severity :=
  (visit.type, visit.ok, visit.reports.map Report.severity)

theorem SchemaLog.addAll_congr {reports reports' : List Report}
    (h : reports'.map Report.severity = reports.map Report.severity) {log log' : SchemaLog}
    (hlength : log'.diagnostics.length = log.diagnostics.length) (herrors : log'.errorCount = log.errorCount)
    (hwarnings : log'.warningCount = log.warningCount) :
    (log'.addAll reports').errorCount = (log.addAll reports).errorCount ∧
      (log'.addAll reports').warningCount = (log.addAll reports).warningCount := by
  induction reports generalizing reports' log log' with
  | nil =>
    rw [List.map_nil, List.map_eq_nil_iff] at h
    rw [h]
    exact ⟨herrors, hwarnings⟩
  | cons report reports ih =>
    obtain ⟨report', reports', rfl, hfirst, hrest⟩ := List.map_eq_cons_iff.mp h
    have hseverity : report'.loc.severity = report.loc.severity := hfirst
    refine ih hrest ?_ ?_ ?_
    · unfold SchemaLog.addDiagnostic
      rw [hlength]
      split
      · exact hlength
      · simp only [List.length_append, hlength, List.length_singleton]
    · unfold SchemaLog.addDiagnostic
      rw [hlength, hseverity]
      split
      · exact herrors
      · simp only [herrors]
    · unfold SchemaLog.addDiagnostic
      rw [hlength, hseverity]
      split
      · exact hwarnings
      · simp only [hwarnings]

theorem finalStatus_congr {schemas schemas' : List LoadedSchema}
    (herrors : schemas'.map (fun schema => schema.log.errorCount) = schemas.map fun schema => schema.log.errorCount)
    (hwarnings : schemas'.map (fun schema => schema.log.warningCount) =
      schemas.map fun schema => schema.log.warningCount) :
    finalStatus schemas' = finalStatus schemas := by
  have hfold (f : LoadedSchema → Nat) (schemas : List LoadedSchema) :
      schemas.foldl (fun total schema => (total + f schema) % 2 ^ 32) 0 =
        (schemas.map f).foldl (fun total n => (total + n) % 2 ^ 32) 0 := by
    rw [List.foldl_map]
  unfold finalStatus totalErrorCount totalWarningCount
  rw [hfold (fun schema => schema.log.errorCount), hfold (fun schema => schema.log.errorCount), herrors,
    hfold (fun schema => schema.log.warningCount), hfold (fun schema => schema.log.warningCount), hwarnings]

namespace ParseResult

variable {result : ParseResult} {s : Nat} {imports : List Import}

/-- The reports with their schemas, without their texts. -/
def severities (reports : List (Nat × Report)) : List (Nat × Severity) :=
  reports.map fun report => (report.1, report.2.severity)

theorem severities_append (reports reports' : List (Nat × Report)) :
    severities (reports ++ reports') = severities reports ++ severities reports' :=
  List.map_append

theorem severities_map (s : Nat) (reports : List Report) :
    severities (reports.map (Prod.mk s)) = (reports.map Report.severity).map (Prod.mk s) := by
  rw [severities, List.map_map, List.map_map]
  rfl

theorem severities_of_schema {reports reports' : List (Nat × Report)} (h : severities reports' = severities reports)
    (t : Nat) :
    ((reports'.filter fun report => report.1 = t).map Prod.snd).map Report.severity =
      ((reports.filter fun report => report.1 = t).map Prod.snd).map Report.severity := by
  have hfilter (reports : List (Nat × Report)) :
      ((reports.filter fun report => report.1 = t).map Prod.snd).map Report.severity =
        ((severities reports).filter fun x => x.1 = t).map Prod.snd := by
    rw [severities, List.filter_map, List.map_map, List.map_map]
    rfl
  rw [hfilter, hfilter, h]

theorem finalStatus_logged {reports reports' : List (Nat × Report)} (h : severities reports' = severities reports) :
    finalStatus ((result.withImports s imports).logged reports') = finalStatus (result.logged reports) := by
  have hlogs : (result.withImports s imports).logged reports' = result.logged reports' :=
    mapIdx_withImports _ fun _ _ => rfl
  have hcounts (log : SchemaLog) (t : Nat) :
      (log.addAll ((reports'.filter fun report => report.1 = t).map Prod.snd)).errorCount =
          (log.addAll ((reports.filter fun report => report.1 = t).map Prod.snd)).errorCount ∧
        (log.addAll ((reports'.filter fun report => report.1 = t).map Prod.snd)).warningCount =
          (log.addAll ((reports.filter fun report => report.1 = t).map Prod.snd)).warningCount :=
    SchemaLog.addAll_congr (severities_of_schema h t) rfl rfl rfl
  rw [hlogs]
  refine finalStatus_congr (List.ext_getElem? fun t => ?_) (List.ext_getElem? fun t => ?_)
  · rw [List.getElem?_map, List.getElem?_map, logged, logged, List.getElem?_mapIdx, List.getElem?_mapIdx,
      Option.map_map, Option.map_map]
    exact congrArg (Option.map · result.schemas[t]?) (funext fun schema => (hcounts schema.log t).1)
  · rw [List.getElem?_map, List.getElem?_map, logged, logged, List.getElem?_mapIdx, List.getElem?_mapIdx,
      Option.map_map, Option.map_map]
    exact congrArg (Option.map · result.schemas[t]?) (funext fun schema => (hcounts schema.log t).2)

/-! ## Names that mean the same -/

variable (result) in
def typeMeaning (context : DefRef) (name : Text) : Option DefRef :=
  result.meaning (fun _ => true) context.schema (some context.path) name

variable (result) in
def isDecorator (ref : DefRef) : Bool := (result.def? ref).map Def.kind = some .decorator

variable (result) in
def decoratorMeaning (s : Nat) (name : Text) : Option DefRef := result.meaning result.isDecorator s none name

theorem unambiguous_true {found : Option DefRef × Option DefRef} {target : DefRef} :
    unambiguous (fun _ => true) found = some target ↔ found = (some target, none) := by
  obtain ⟨ref, _ | other⟩ := found
  · have hfilter : ref.filter (fun _ => true) = ref := by cases ref <;> rfl
    unfold unambiguous
    dsimp only
    rw [hfilter, Prod.mk.injEq]
    exact ⟨fun h => ⟨h, rfl⟩, fun h => h.1⟩
  · exact ⟨nofun, nofun⟩

theorem isDecorator_withImports : (result.withImports s imports).isDecorator = result.isDecorator := by
  unfold isDecorator
  rw [sameDefinitions_withImports.def?]

variable (result) in
/-- A result in which the names of the definitions mean the same. -/
structure SameMeanings (result' : ParseResult) : Prop where
  types : ∀ context d, result.def? context = some d → ∀ r ∈ d.references,
    result'.typeMeaning context r.name = result.typeMeaning context r.name
  decorators : ∀ context d, result.def? context = some d → ∀ x ∈ d.decoratorChains.flatten,
    result'.decoratorMeaning context.schema x.name = result.decoratorMeaning context.schema x.name

/-! ## The walk over a type -/

variable {context : DefRef} {kind : ResolveKind}

theorem visitDefined_of_none {span : Span} {name : Text} {old : Option DefRef}
    (h : result.typeMeaning context name = none) :
    (result.visitDefined context kind span name old).outcome = (.defined span name old, false, [.error]) := by
  unfold visitDefined
  split
  · rfl
  · rfl
  · rename_i target htarget
    have hsome : result.typeMeaning context name = some target := unambiguous_true.mpr htarget
    rw [h] at hsome
    cases hsome

theorem visitDefined_withImports {span : Span} {name : Text} {old : Option DefRef}
    (h : (result.withImports s imports).typeMeaning context name = result.typeMeaning context name) :
    ((result.withImports s imports).visitDefined context kind span name old).outcome =
      (result.visitDefined context kind span name old).outcome := by
  cases hmeaning : result.typeMeaning context name with
  | none => rw [visitDefined_of_none hmeaning, visitDefined_of_none (h.trans hmeaning)]
  | some target =>
    have hinternal : (result.withImports s imports).unionInternal = result.unionInternal := by
      unfold unionInternal
      rw [sameDefinitions_withImports.def?]
    unfold visitDefined
    rw [unambiguous_true.mp hmeaning, unambiguous_true.mp (h.trans hmeaning)]
    dsimp only
    rw [sameDefinitions_withImports.def?, hinternal]

theorem visitType_withImports {depth : Nat} {type : Ty}
    (h : ∀ r ∈ type.references,
      (result.withImports s imports).typeMeaning context r.1 = result.typeMeaning context r.1) :
    ((result.withImports s imports).visitType context kind depth type).outcome =
      (result.visitType context kind depth type).outcome := by
  induction type generalizing depth with
  | scalar span scalar =>
    rw [visitType, visitType]
  | array span element ih =>
    have hinner : ((result.withImports s imports).visitType context kind (depth + 1) element).outcome =
        (result.visitType context kind (depth + 1) element).outcome := ih h
    rw [visitType, visitType]
    split
    · rfl
    · unfold Visit.outcome at hinner ⊢
      rw [Prod.mk.injEq, Prod.mk.injEq] at hinner
      dsimp only
      rw [hinner.1, hinner.2.1, hinner.2.2]
  | fixedArray span element size ih =>
    have hinner : ((result.withImports s imports).visitType context kind (depth + 1) element).outcome =
        (result.visitType context kind (depth + 1) element).outcome := ih h
    rw [visitType, visitType]
    split
    · rfl
    · unfold Visit.outcome at hinner ⊢
      rw [Prod.mk.injEq, Prod.mk.injEq] at hinner
      dsimp only
      rw [hinner.1, hinner.2.1, hinner.2.2]
  | map span key value ihKey ihValue =>
    have hkey : ((result.withImports s imports).visitType context kind (depth + 1) key).outcome =
        (result.visitType context kind (depth + 1) key).outcome :=
      ihKey fun r hr => h r (List.mem_append_left _ hr)
    have hvalue : ((result.withImports s imports).visitType context kind (depth + 1) value).outcome =
        (result.visitType context kind (depth + 1) value).outcome :=
      ihValue fun r hr => h r (List.mem_append_right _ hr)
    rw [visitType, visitType]
    split
    · rfl
    · unfold Visit.outcome at hkey hvalue ⊢
      rw [Prod.mk.injEq, Prod.mk.injEq] at hkey hvalue
      dsimp only
      rw [hkey.2.1]
      split
      · dsimp only
        rw [hkey.1, hvalue.1, hvalue.2.1, List.map_append, List.map_append, hkey.2.2, hvalue.2.2]
      · dsimp only
        rw [hkey.1, hkey.2.2]
  | defined span name old =>
    rw [visitType, visitType]
    split
    · rfl
    · exact visitDefined_withImports (h _ (List.mem_singleton.mpr rfl))

/-! ## The passes -/

section SameMeanings

variable (h : result.SameMeanings (result.withImports s imports))

include h

theorem SameMeanings.visit {context : DefRef} {d : Def} (hd : result.def? context = some d) {role : Role} {type : Ty}
    (htype : (role, type) ∈ d.body.referredTypes) (kind : ResolveKind) :
    (result.withImports s imports).linkType context kind type = result.linkType context kind type ∧
      ((result.withImports s imports).typeReports context kind type).map Report.severity =
        (result.typeReports context kind type).map Report.severity := by
  have houtcome : ((result.withImports s imports).visitType context kind 0 type).outcome =
      (result.visitType context kind 0 type).outcome :=
    visitType_withImports fun r hr =>
      h.types context d hd ⟨role, r.1, r.2⟩ (Def.mem_references.mpr ⟨type, htype, hr⟩)
  unfold Visit.outcome at houtcome
  rw [Prod.mk.injEq, Prod.mk.injEq] at houtcome
  exact ⟨houtcome.1, houtcome.2.2⟩

theorem SameMeanings.bodyReports {context : DefRef} {d : Def} (hd : result.def? context = some d) :
    ((result.withImports s imports).bodyReports context d).map Report.severity =
      (result.bodyReports context d).map Report.severity := by
  have htype {role : Role} {type : Ty} (hmem : (role, type) ∈ d.body.referredTypes) (kind : ResolveKind) :=
    h.visit hd hmem kind
  have htarget : (result.withImports s imports).targetKind = result.targetKind := by
    unfold targetKind
    rw [sameDefinitions_withImports.def?]
  unfold ParseResult.bodyReports
  cases hbody : d.body with
  | enum baseType members => rfl
  | struct isMutable fields =>
    rw [hbody] at htype
    dsimp only
    rw [List.map_flatMap, List.map_flatMap]
    exact List.flatMap_congr fun field hfield => (htype (List.mem_map.mpr ⟨field, hfield, rfl⟩) _).2
  | message fields =>
    rw [hbody] at htype
    dsimp only
    rw [List.map_flatMap, List.map_flatMap]
    exact List.flatMap_congr fun field hfield => (htype (List.mem_map.mpr ⟨field, hfield, rfl⟩) _).2
  | union branches =>
    rw [hbody] at htype
    dsimp only
    rw [List.map_flatMap, List.map_flatMap]
    refine List.flatMap_congr fun branch hbranch => ?_
    unfold branchReports
    cases href : branch.typeRef with
    | none => rfl
    | some type =>
      have hmem : (Role.branch, type) ∈ (Body.union branches).referredTypes := by
        refine List.mem_flatMap.mpr ⟨branch, hbranch, ?_⟩
        rw [href]
        exact List.mem_singleton.mpr rfl
      obtain ⟨hlink, hreports⟩ := htype hmem .fieldType
      dsimp only
      rw [List.map_append, List.map_append, hreports, hlink, htarget]
  | service methods mixins =>
    rw [hbody] at htype
    dsimp only
    rw [List.map_append, List.map_append, List.map_flatMap, List.map_flatMap, List.map_flatMap, List.map_flatMap]
    have hmethods : (methods.flatMap fun method =>
          ((result.withImports s imports).typeReports context .fieldType method.requestType ++
            (result.withImports s imports).typeReports context .fieldType method.responseType).map Report.severity) =
        methods.flatMap fun method =>
          (result.typeReports context .fieldType method.requestType ++
            result.typeReports context .fieldType method.responseType).map Report.severity := by
      refine List.flatMap_congr fun method hmethod => ?_
      have hmem (x : Role × Ty) (hx : x ∈ [(Role.method, method.requestType), (.method, method.responseType)]) :
          x ∈ (Body.service methods mixins).referredTypes :=
        List.mem_append_left _ (List.mem_flatMap.mpr ⟨method, hmethod, hx⟩)
      rw [List.map_append, List.map_append, (htype (hmem _ (List.mem_pair.mpr (.inl rfl))) _).2,
        (htype (hmem _ (List.mem_pair.mpr (.inr rfl))) _).2]
    rw [hmethods]
    refine congrArg _ (List.flatMap_congr fun mixin hmixin => ?_)
    exact (htype (List.mem_append_right _ (List.mem_map.mpr ⟨mixin, hmixin, rfl⟩)) _).2
  | const constType value => rfl
  | decorator => rfl

theorem SameMeanings.resolveDef (ref : DefRef) :
    ((result.withImports s imports).resolveDef ref).map Report.severity =
      (result.resolveDef ref).map Report.severity := by
  unfold ParseResult.resolveDef
  rw [sameDefinitions_withImports.def?]
  cases hd : result.def? ref with
  | none => rfl
  | some d =>
    dsimp only
    rw [List.map_append, List.map_append, h.bodyReports hd, List.map_flatMap, List.map_flatMap]
    refine congrArg _ (List.flatMap_congr fun k _ => ?_)
    cases hinline : result.def? ⟨ref.schema, ref.path ++ [k]⟩ with
    | none => rfl
    | some inlineDef => exact h.bodyReports hinline

theorem SameMeanings.decorator {context : DefRef} {d : Def} (hd : result.def? context = some d) {x : Decorator}
    (hx : x ∈ d.decoratorChains.flatten) :
    (result.withImports s imports).linkDecorator context.schema x = result.linkDecorator context.schema x ∧
      ((result.withImports s imports).decoratorReports context.schema x).map Report.severity =
        (result.decoratorReports context.schema x).map Report.severity := by
  -- what is set and how much is reported follows from the meaning of the name
  have houtcome (result : ParseResult) :
      result.linkDecorator context.schema x =
          (match result.decoratorMeaning context.schema x.name with
          | some found => { x with resolved := some found }
          | none => x) ∧
        (result.decoratorReports context.schema x).map Report.severity =
          (match result.decoratorMeaning context.schema x.name with
          | some _ => []
          | none => [.error]) := by
    unfold linkDecorator decoratorReports resolveDecoratorName decoratorMeaning meaning unambiguous isDecorator
    obtain ⟨_ | found, _ | other⟩ := result.resolveType context.schema none x.name
    · exact ⟨rfl, rfl⟩
    · exact ⟨rfl, rfl⟩
    · dsimp only
      rw [Option.filter_some]
      by_cases hkind : (result.def? found).map Def.kind = some .decorator
      · rw [if_pos hkind, decide_eq_true hkind, if_pos rfl]
        exact ⟨rfl, rfl⟩
      · rw [if_neg hkind, decide_eq_false hkind, if_neg Bool.false_ne_true]
        exact ⟨rfl, rfl⟩
    · dsimp only
      by_cases hkind : (result.def? found).map Def.kind = some .decorator
      · rw [if_pos hkind]
        exact ⟨rfl, rfl⟩
      · rw [if_neg hkind]
        exact ⟨rfl, rfl⟩
  have hsame := h.decorators context d hd x hx
  constructor
  · rw [(houtcome _).1, (houtcome result).1, hsame]
  · rw [(houtcome _).2, (houtcome result).2, hsame]

theorem SameMeanings.allDecoratorReports :
    severities (result.withImports s imports).allDecoratorReports = severities result.allDecoratorReports := by
  unfold ParseResult.allDecoratorReports forEachDef
  rw [sameDefinitions_withImports.registered, sameDefinitions_withImports.def?, severities, severities,
    List.map_flatMap, List.map_flatMap]
  refine List.flatMap_congr fun ref _ => ?_
  rw [← severities, ← severities, severities_map, severities_map]
  refine congrArg _ ?_
  dsimp only
  cases hd : result.def? ref with
  | none => rfl
  | some d =>
    dsimp only
    rw [List.map_flatMap, List.map_flatMap]
    exact List.flatMap_congr fun x hx => (h.decorator hd hx).2

/-! ## The pointers -/

theorem SameMeanings.relinkAll {t : Nat} {schema : Schema} (hschema : result.schemas[t]? = some schema) :
    Compiler.relinkAll (fun path => (result.withImports s imports).linkType ⟨t, path⟩)
        ((result.withImports s imports).linkDecorator t) [] 0 schema.definitions =
      Compiler.relinkAll (fun path => result.linkType ⟨t, path⟩) (result.linkDecorator t) [] 0 schema.definitions := by
  refine relinkAll_congr _ _ _ fun k rest e he => ?_
  rw [List.nil_append, Nat.zero_add]
  have hd : result.def? ⟨t, k :: rest⟩ = some e := by
    rw [def?_eq hschema]
    exact he
  have hdecorator {x : Decorator} (hx : x ∈ e.decoratorChains.flatten) :
      (result.withImports s imports).linkDecorator t x = result.linkDecorator t x :=
    (h.decorator hd hx).1
  constructor
  · refine Body.relink_congr (fun x hx => (h.visit hd hx _).1) fun x hx => hdecorator ?_
    exact List.mem_append_right _ hx
  · exact List.map_congr_left fun x hx => hdecorator (List.mem_append_left _ hx)

theorem SameMeanings.definitions_resolved (t : Nat) :
    (result.withImports s imports).resolved.schemas[t]?.map Schema.definitions =
      result.resolved.schemas[t]?.map Schema.definitions := by
  unfold resolved
  rw [getElem?_schemas_relink, getElem?_schemas_relink, getElem?_withImports]
  cases hschema : result.schemas[t]? with
  | none => rfl
  | some schema =>
    refine congrArg some (Eq.trans ?_ (h.relinkAll hschema))
    dsimp only
    split <;> rfl

theorem SameMeanings.sameDefinitions_resolved :
    result.resolved.SameDefinitions (result.withImports s imports).resolved where
  registered := by
    unfold resolved
    rw [registered_relink, registered_relink, sameDefinitions_withImports.registered]
  def? := by
    have hdef (result : ParseResult) (ref : DefRef) :
        result.def? ref = (result.schemas[ref.schema]?.map Schema.definitions).bind (definitionAt · ref.path) := by
      rw [Option.bind_map]
      rfl
    funext ref
    rw [hdef, h.definitions_resolved, ← hdef]
  fqn := by
    funext ref
    unfold resolved
    rw [fqn_relink, fqn_relink, sameDefinitions_withImports.fqn]

/-! ## The status -/

omit h in
theorem multipleDefinitions_withImports (himports : result.IsReordering s imports) (ref : DefRef) :
    ((result.withImports s imports).multipleDefinitions ref).map Report.severity =
      (result.multipleDefinitions ref).map Report.severity := by
  have helsewhere : (result.withImports s imports).definedElsewhere ref = result.definedElsewhere ref := by
    unfold definedElsewhere
    rw [sameDefinitions_withImports.fqn]
    refine congrArg (Option.bind _) (funext fun fqn => ?_)
    rw [sameDefinitions_withImports.findDef]
    refine congrArg (Option.filter · _) (funext fun existing => ?_)
    rw [hasVisibility_withImports himports, hasVisibility_withImports himports]
  unfold ParseResult.multipleDefinitions
  rw [helsewhere, sameDefinitions_withImports.def?]
  split <;> rfl

omit h in
theorem severities_forEachDef {reports' reports : DefRef → List Report}
    (hsame : ∀ ref, (reports' ref).map Report.severity = (reports ref).map Report.severity) :
    severities ((result.withImports s imports).forEachDef reports') = severities (result.forEachDef reports) := by
  unfold forEachDef
  rw [sameDefinitions_withImports.registered, severities, severities, List.map_flatMap, List.map_flatMap]
  refine List.flatMap_congr fun ref _ => ?_
  rw [← severities, ← severities, severities_map, severities_map, hsame]

theorem SameMeanings.earlyReports (himports : result.IsReordering s imports) :
    (result.withImports s imports).earlyReports.map severities = result.earlyReports.map severities := by
  have hnames : severities ((result.withImports s imports).forEachDef
        (result.withImports s imports).multipleDefinitions) =
      severities (result.forEachDef result.multipleDefinitions) :=
    severities_forEachDef (multipleDefinitions_withImports himports)
  have htypes : severities ((result.withImports s imports).forEachDef (result.withImports s imports).resolveDef) =
      severities (result.forEachDef result.resolveDef) :=
    severities_forEachDef h.resolveDef
  have hdecorators := h.allDecoratorReports
  unfold ParseResult.earlyReports
  rw [h.sameDefinitions_resolved.serviceReports, Option.map_map, Option.map_map]
  refine congrArg (Option.map · _) (funext fun services => ?_)
  rw [Function.comp_apply, Function.comp_apply, severities_append, severities_append, severities_append,
    severities_append, severities_append, severities_append, hnames, htypes, hdecorators]

theorem SameMeanings.allReports (himports : result.IsReordering s imports) (checks : DecoratorChecks) :
    ((result.withImports s imports).allReports checks).map severities = (result.allReports checks).map severities := by
  have hresolved := h.sameDefinitions_resolved
  have hearly := h.earlyReports himports
  have hdefinitions : (result.withImports s imports).resolved.schemas.map Schema.definitions =
      result.resolved.schemas.map Schema.definitions := by
    refine List.ext_getElem? fun t => ?_
    rw [List.getElem?_map, List.getElem?_map, h.definitions_resolved]
  have hmore (early : Option (List (Nat × Report))) (checked sorted : List (Nat × Report)) :
      (early.map fun reports => reports ++ checked ++ sorted).map severities =
        (early.map severities).map fun x => x ++ severities checked ++ severities sorted := by
    rw [Option.map_map, Option.map_map]
    refine congrArg (Option.map · early) (funext fun reports => ?_)
    rw [Function.comp_apply, Function.comp_apply, severities_append, severities_append]
  unfold ParseResult.allReports
  rw [hresolved.toposort, hresolved.sortingReports, hdefinitions, hmore, hmore, hearly]

theorem SameMeanings.validate (himports : result.IsReordering s imports) (checks : DecoratorChecks) :
    (result.withImports s imports).validate checks = result.validate checks := by
  have hreports := h.allReports himports checks
  have hlogs : (result.withImports s imports).logged [] = result.logged [] := mapIdx_withImports _ fun _ _ => rfl
  unfold ParseResult.validate
  rw [hlogs, h.sameDefinitions_resolved.toposort]
  cases totalDefs (result.logged []) with
  | none => rfl
  | some total =>
    cases total with
    | zero => rfl
    | succ total =>
      dsimp only
      cases hall : result.allReports checks with
      | none =>
        rw [hall, Option.map_none, Option.map_eq_none_iff] at hreports
        rw [hreports]
        rfl
      | some reports =>
        rw [hall, Option.map_some] at hreports
        obtain ⟨reports', hall', hsame⟩ := Option.map_eq_some_iff.mp hreports
        rw [hall', Option.map_some, Option.map_some, finalStatus_logged hsame]

end SameMeanings

/-! ## The order of the imports -/

variable (result) in
/-- However the import statements of a schema are ordered, the validator accepts as
before, and every name of a type, a mixin or a decorator means the same. -/
def ImportOrderFree (checks : DecoratorChecks) : Prop :=
  ∀ s imports, result.IsReordering s imports →
    ((result.withImports s imports).Accepted checks ↔ result.Accepted checks) ∧
      result.SameMeanings (result.withImports s imports)

variable (result) in
/-- The imports agree on every dotted name: if its first part is found through
imports, then all that have it lead to the same definition. -/
def ImportsAgree : Prop :=
  ∀ context d, result.def? context = some d →
    (∀ r ∈ d.references, result.AgreesOn (fun _ => true) context.schema (some context.path) r.name) ∧
      ∀ x ∈ d.decoratorChains.flatten, result.AgreesOn result.isDecorator context.schema none x.name

/-- Order does not matter exactly to results whose imports agree on dotted names. -/
theorem import_order_iff (checks : DecoratorChecks) (result : ParseResult) :
    result.ImportOrderFree checks ↔ result.ImportsAgree := by
  constructor
  · intro h context d hd
    constructor
    · intro r hr
      exact agreesOn_of_meaning fun imports himports => (h _ imports himports).2.types context d hd r hr
    · intro x hx
      refine agreesOn_of_meaning fun imports himports => ?_
      have hsame := (h _ imports himports).2.decorators context d hd x hx
      unfold decoratorMeaning at hsame
      rwa [isDecorator_withImports] at hsame
  · intro h s imports himports
    have hmeanings : result.SameMeanings (result.withImports s imports) := by
      refine ⟨fun context d hd r hr => ?_, fun context d hd x hx => ?_⟩
      · exact meaning_withImports himports ((h context d hd).1 r hr)
      · unfold decoratorMeaning
        rw [isDecorator_withImports]
        exact meaning_withImports himports ((h context d hd).2 x hx)
    refine ⟨?_, hmeanings⟩
    unfold Accepted
    rw [hmeanings.validate himports]

end ParseResult

/-! ## A name that depends on the order -/

namespace Sample

/-- `package p struct A { struct X {} }` and `package q struct A {}`, imported by a
file with `struct B { f: A.X; }` in an order. -/
def firstParts (imports : List Import) : ParseResult where
  schemas :=
    [.ofDefinitions (some ['p']) [] [scope ['A'] [scope ['X'] []]] (by decide),
      .ofDefinitions (some ['q']) [] [scope ['A'] []] (by decide),
      .ofDefinitions none imports [record ['B'] [['A', '.', 'X']] []] (by decide)]

def importP : Import := ⟨['p'], nowhere, some 0⟩

def importQ : Import := ⟨['q'], nowhere, some 1⟩

end Sample

open Sample

namespace ParseResult

/-- The file is accepted with the imports in one order and not in the other. -/
theorem import_order_matters :
    [importQ, importP].Perm [importP, importQ] ∧ (firstParts [importP, importQ]).Accepted (fun _ => []) ∧
      ¬(firstParts [importQ, importP]).Accepted (fun _ => []) ∧
        ¬(firstParts [importP, importQ]).ImportOrderFree (fun _ => []) := by
  have haccepted : (firstParts [importP, importQ]).Accepted (fun _ => []) := by decide
  have hrejected : ¬(firstParts [importQ, importP]).Accepted (fun _ => []) := by decide
  have hperm : [importQ, importP].Perm [importP, importQ] := List.Perm.swap _ _ _
  refine ⟨hperm, haccepted, hrejected, fun h => ?_⟩
  have hreordering : (firstParts [importP, importQ]).IsReordering 2 [importQ, importP] := by
    intro schema hschema
    cases hschema
    exact hperm
  exact hrejected ((h 2 _ hreordering).1.mpr haccepted)

end ParseResult

end Bebop.Compiler
