import Bebop.Compiler.Driver
import Bebop.Compiler.Relink
import Bebop.Compiler.Toposort

/-!
# Bebop — the passes of the validator

`bebop_validate` of `bebop_validate.c`: what each pass reports to which schema, and the
status. Names are looked up in what the parser has left, so that it does not matter in
which order the pointers are set. The checks of the arguments of decorators, which run Lua,
are a parameter.
-/

namespace Bebop.Compiler

/-- What `bebop__validate_all_decorators` reports. -/
abbrev DecoratorChecks := List (List Def) → List (Nat × Report)

namespace ParseResult

variable (result : ParseResult)

/-! ## A fully qualified name in several schemas -/

/-- The path, line and column of the other definition. -/
def otherDefinitionHint (existing : DefRef) : String :=
  let span := ((result.def? existing).map Def.span).getD ⟨0, 0, 0, 0, 0, 0⟩
  let place := "line " ++ toString span.startLine ++ ", column " ++ toString span.startCol
  match result.schemas[existing.schema]?.bind fun schema => schema.log.path with
  | some path => "Also defined in '" ++ path ++ "' at " ++ place
  | none => "Also defined at " ++ place

/-- The first one of the name is in another schema, and neither imports the other. -/
def definedElsewhere (ref : DefRef) : Option DefRef :=
  (result.fqn ref).bind fun fqn =>
    (result.findDef fqn).filter fun existing =>
      existing ≠ ref && existing.schema ≠ ref.schema && !result.hasVisibility ref.schema existing.schema &&
        !result.hasVisibility existing.schema ref.schema

def multipleDefinitions (ref : DefRef) : List Report :=
  match result.definedElsewhere ref, result.def? ref with
  | some existing, some d =>
    [errorAt 101 d.span
      ("Definition " ++ quote ((result.fqn ref).getD []) ++ " is defined in multiple schemas")
      (some (result.otherDefinitionHint existing))]
  | _, _ => []

/-! ## `bebop__validate_resolve_def` -/

def linkType (context : DefRef) (kind : ResolveKind) (type : Ty) : Ty := (result.visitType context kind 0 type).type

def typeReports (context : DefRef) (kind : ResolveKind) (type : Ty) : List Report :=
  (result.visitType context kind 0 type).reports

/-- The kind of the definition that a type's pointer points to. -/
def targetKind (type : Ty) : Option DefKind :=
  match type with
  | .defined _ _ (some target) => (result.def? target).map Def.kind
  | _ => none

/-- The type of a branch, which is a struct or a message. -/
def branchReports (context : DefRef) (branch : Branch) : List Report :=
  match branch.typeRef with
  | none => []
  | some type =>
    result.typeReports context .fieldType type ++
      match result.targetKind (result.linkType context .fieldType type) with
      | some .union => [errorAt 141 branch.span "Union branch cannot reference another union" none]
      | some .enum | some .service | some .const | some .decorator =>
        [errorAt 141 branch.span "Union branch must reference a struct or message type" none]
      | _ => []

def bodyReports (context : DefRef) (d : Def) : List Report :=
  match d.body with
  | .struct _ fields => fields.flatMap fun field => result.typeReports context .fieldType field.type
  | .message fields => fields.flatMap fun field => result.typeReports context .fieldType field.type
  | .union branches => branches.flatMap (result.branchReports context)
  | .service methods mixins =>
    (methods.flatMap fun method =>
        result.typeReports context .fieldType method.requestType ++
          result.typeReports context .fieldType method.responseType) ++
      mixins.flatMap (result.typeReports context .mixinType)
  | .enum _ _ => []
  | .const _ _ => []
  | .decorator => []

end ParseResult

/-- `BEBOP_VALIDATE_DEF_STACK_SIZE` -/
def defStackSize : Nat := 64

/-- The inline branches that are visited with a union, the last one first. -/
def Def.inlineBranches (d : Def) : List Nat :=
  match d.body with
  | .union branches => ((branches.filterMap Branch.inlineDef).take defStackSize).reverse
  | _ => []

namespace ParseResult

variable (result : ParseResult)

/-- `bebop__validate_resolve_def` -/
def resolveDef (ref : DefRef) : List Report :=
  match result.def? ref with
  | none => []
  | some d =>
    result.bodyReports ref d ++
      d.inlineBranches.flatMap fun k =>
        match result.def? ⟨ref.schema, ref.path ++ [k]⟩ with
        | none => []
        | some inlineDef => result.bodyReports ⟨ref.schema, ref.path ++ [k]⟩ inlineDef

/-! ## `bebop__validate_service` -/

def service? (ref : DefRef) : Option (List Method × List Ty) :=
  (result.def? ref).bind fun d =>
    match d.body with
    | .service methods mixins => some (methods, mixins)
    | _ => none

def mixinService (mixin : Ty) : Option DefRef :=
  match mixin with
  | .defined _ _ (some target) => if (result.service? target).isSome then some target else none
  | _ => none

/-- `bebop__validate_service_has_method`: the first method of a name, in a service or, one after
another, in its mixins. A search that is too deep is in a service twice, and never ends. -/
def serviceHasMethod (name : Text) : Nat → DefRef → Option (Option Method)
  | 0, _ => none
  | depth + 1, ref =>
    match result.service? ref with
    | none => some none
    | some (methods, mixins) =>
      match methods.find? fun method => method.name = name with
      | some method => some (some method)
      | none =>
        (mixins.filterMap result.mixinService).foldlM (fun found mixin =>
          match found with
          | some method => some (some method)
          | none => serviceHasMethod name depth mixin) none

/-- A mixin's method against those of the service and of later mixins. -/
def mixinMethodReports (methods : List Method) (later : List Ty) (mixinType : Ty) (mixinName : Text)
    (mixinMethod : Method) : Option (List Report) :=
  let own :=
    match methods.find? fun method => method.name = mixinMethod.name with
    | none => []
    | some existing =>
      [errorAt 151 existing.nameSpan
        ("Method " ++ quote mixinMethod.name ++ " conflicts with method from mixin " ++ quote mixinName) none]
  ((later.filterMap result.mixinService).mapM fun other =>
    (result.serviceHasMethod mixinMethod.name (result.registered.length + 1) other).map fun found =>
      match found with
      | none => []
      | some _ =>
        [errorAt 151 mixinType.span
          ("Method " ++ quote mixinMethod.name ++ " from mixin " ++ quote mixinName ++ " conflicts with mixin " ++
            quote ((result.def? other).map Def.name |>.getD [])) none]).map fun others => own ++ others.flatten

def mixinReports (methods : List Method) : List Ty → Option (List Report)
  | [] => some []
  | mixin :: later =>
    let reports :=
      match mixin with
      | .defined span name (some target) =>
        match result.service? target with
        | none => some [errorAt 149 span (quote name ++ " is not a service") none]
        | some (mixinMethods, _) =>
          (mixinMethods.mapM (result.mixinMethodReports methods later mixin
            ((result.def? target).map Def.name |>.getD []))).map List.flatten
      | _ => some []
    reports.bind fun reports => (mixinReports methods later).map fun others => reports ++ others

/-- A request or response is a struct, a message or a union. -/
def methodTypeReports (method : Method) (type : Ty) (message : String) : List Report :=
  match result.targetKind type with
  | some .enum | some .service | some .const | some .decorator => [errorAt 132 method.span message none]
  | _ => []

/-- `bebop__validate_service`, unless it does not end. -/
def validateService (d : Def) : Option (List Report) :=
  match d.body with
  | .service methods mixins =>
    (result.mixinReports methods mixins).map fun mixinReports =>
      (if methods.length > 255 then [errorAt 103 d.span "A service cannot have more than 255 methods" none]
        else []) ++ mixinReports ++
      methods.flatMap fun method =>
        result.methodTypeReports method method.requestType "Service request type must be struct, message, or union" ++
          result.methodTypeReports method method.responseType
            "Service response type must be struct, message, or union"
  | _ => some []

/-! ## Decorators -/

/-- `bebop__validate_resolve_decorator_name` -/
def resolveDecoratorName (s : Nat) (name : Text) : Option DefRef × Option DefRef :=
  match result.resolveType s none name with
  | (some found, other) =>
    if (result.def? found).map Def.kind = some .decorator then (some found, other) else (none, none)
  | (none, _) => (none, none)

/-- `bebop__validate_resolve_chain`, for one decorator. -/
def linkDecorator (s : Nat) (decorator : Decorator) : Decorator :=
  match result.resolveDecoratorName s decorator.name with
  | (some found, none) => { decorator with resolved := some found }
  | _ => decorator

def decoratorReports (s : Nat) (decorator : Decorator) : List Report :=
  match result.resolveDecoratorName s decorator.name with
  | (some _, none) => []
  | (none, _) => [errorAt 134 decorator.span ("Unknown decorator '@" ++ String.ofList decorator.name ++ "'") none]
  | (some found, some other) =>
    [errorAt 147 decorator.span
      ("'@" ++ String.ofList decorator.name ++ "' is defined in multiple imported schemas")
      (some (result.disambiguateHint "@" decorator.name found other))]

/-- The result with the pointers of its types and decorators set. -/
def resolved : ParseResult := result.relink result.linkType result.linkDecorator

/-! ## `bebop_validate` -/

/-- The reports about each definition, to its schema. -/
def forEachDef (reports : DefRef → List Report) : List (Nat × Report) :=
  result.registered.flatMap fun ref => (reports ref).map (Prod.mk ref.schema)

def serviceReports : Option (List (Nat × Report)) :=
  (result.registered.mapM fun ref =>
    match result.def? ref with
    | none => some []
    | some d => (result.validateService d).map (List.map (Prod.mk ref.schema))).map List.flatten

def allDecoratorReports : List (Nat × Report) :=
  result.forEachDef fun ref =>
    match result.def? ref with
    | none => []
    | some d => d.decoratorChains.flatten.flatMap (result.decoratorReports ref.schema)

def sortingReports (sorting : Sorting) : List (Nat × Report) :=
  match sorting with
  | .cyclic on path =>
    [(on.schema, errorAt 116 (((result.def? on).map Def.span).getD ⟨0, 0, 0, 0, 0, 0⟩)
      ("Cyclic dependency: " ++ String.ofList path) none)]
  | _ => []

/-- What the passes before the check of decorators report, unless they do not end. -/
def earlyReports : Option (List (Nat × Report)) :=
  result.resolved.serviceReports.map fun serviceReports =>
    result.forEachDef result.multipleDefinitions ++ result.forEachDef result.resolveDef ++ serviceReports ++
      result.allDecoratorReports

/-- What all passes report, in their order, unless they do not end. -/
def allReports (checks : DecoratorChecks) : Option (List (Nat × Report)) :=
  result.earlyReports.map fun early =>
    early ++ checks (result.resolved.schemas.map Schema.definitions) ++
      result.resolved.sortingReports result.resolved.toposort

/-- The schemas with what is reported to them stored. -/
def logged (reports : List (Nat × Report)) : List LoadedSchema :=
  result.schemas.mapIdx fun s schema =>
    ⟨schema.log.addAll ((reports.filter fun report => report.1 = s).map Prod.snd), schema.sortedDefs.length⟩

/-- `bebop_validate`, unless it does not end. -/
def validate (checks : DecoratorChecks) : Option Status :=
  match totalDefs (result.logged []) with
  | none => some .fatal
  | some 0 => some .ok
  | some (_ + 1) =>
    (result.allReports checks).map fun reports =>
      if result.resolved.toposort = .failed then .fatal else finalStatus (result.logged reports)

/-- `bebop_validate` accepts a result. -/
def Accepted (checks : DecoratorChecks) : Prop :=
  result.validate checks = some .ok ∨ result.validate checks = some .okWithWarnings

instance (checks : DecoratorChecks) : Decidable (result.Accepted checks) := by
  unfold Accepted
  infer_instance

end ParseResult

end Bebop.Compiler
