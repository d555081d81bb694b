import Bebop.Compiler.Validate

/-!
# Bebop — descriptors

`bebop_descriptor_build` of `bebop_descriptor.c`: what plugins see of a parse
result. Definitions are referred to by their fully qualified names; the names of
decorators are those that the source has.

The arguments of decorators, literals, documentation and source positions are left
out, as are the sizes of structs.
-/

namespace Bebop.Compiler

/-! ## `DescriptorSet` -/

/-- `TypeDescriptor`, with what is set for its kind. -/
inductive TypeDescriptor
  | scalar (kind : Scalar)
  | array (element : TypeDescriptor)
  | fixedArray (element : TypeDescriptor) (size : Nat)
  | map (key value : TypeDescriptor)
  | defined (fqn : Text)
  deriving DecidableEq, Repr

/-- `DecoratorUsage` -/
structure DecoratorUsage where
  fqn : Text
  deriving DecidableEq, Repr

/-- `FieldDescriptor` -/
structure FieldDescriptor where
  name : Text
  type : TypeDescriptor
  index : Nat
  decorators : List DecoratorUsage
  deriving DecidableEq, Repr

/-- `EnumMemberDescriptor` -/
structure EnumMemberDescriptor where
  name : Text
  value : Int
  decorators : List DecoratorUsage
  deriving DecidableEq, Repr

/-- `UnionBranchDescriptor` -/
structure UnionBranchDescriptor where
  discriminator : Nat
  inlineFqn : Option Text
  typeRefFqn : Option Text
  name : Option Text
  decorators : List DecoratorUsage
  deriving DecidableEq, Repr

/-- `MethodDescriptor` -/
structure MethodDescriptor where
  name : Text
  requestType : TypeDescriptor
  responseType : TypeDescriptor
  methodType : MethodType
  id : Nat
  decorators : List DecoratorUsage
  deriving DecidableEq, Repr

/-- The part of a descriptor that depends on the kind of the definition. -/
inductive BodyDescriptor
  | enumDef (baseType : Scalar) (isFlags : Bool) (members : List EnumMemberDescriptor)
  | structDef (isMutable : Bool) (fields : List FieldDescriptor)
  | messageDef (fields : List FieldDescriptor)
  | unionDef (branches : List UnionBranchDescriptor)
  | serviceDef (methods : List MethodDescriptor)
  | constDef (type : TypeDescriptor)
  | decoratorDef
  deriving DecidableEq, Repr

/-- `DefinitionDescriptor` -/
structure DefinitionDescriptor where
  kind : DefKind
  visibility : Visibility
  name : Text
  fqn : Text
  decorators : List DecoratorUsage
  nested : List DefinitionDescriptor
  body : BodyDescriptor

/-- `SchemaDescriptor` -/
structure SchemaDescriptor where
  path : Option String
  package : Option Text
  imports : List Text
  definitions : List DefinitionDescriptor

/-- `DescriptorSet` -/
structure DescriptorSet where
  schemas : List SchemaDescriptor

/-! ## `bebop_descriptor_build` -/

/-- The name of the definition a pointer leads to, or the one in the source. -/
def writtenName (fqnOf : DefRef → Option Text) (name : Text) (resolved : Option DefRef) : Text :=
  (resolved.bind fqnOf).getD name

/-- `_desc_build_type` -/
def buildType (fqnOf : DefRef → Option Text) : Ty → TypeDescriptor
  | .scalar _ kind => .scalar kind
  | .array _ element => .array (buildType fqnOf element)
  | .fixedArray _ element size => .fixedArray (buildType fqnOf element) size
  | .map _ key value => .map (buildType fqnOf key) (buildType fqnOf value)
  | .defined _ name resolved => .defined (writtenName fqnOf name resolved)

/-- `_desc_build_decorators` -/
def buildDecorators (chain : List Decorator) : List DecoratorUsage := chain.map fun decorator => ⟨decorator.name⟩

/-- `_desc_build_fields` -/
def buildFields (fqnOf : DefRef → Option Text) (fields : List Field) : List FieldDescriptor :=
  fields.map fun field => ⟨field.name, buildType fqnOf field.type, field.index, buildDecorators field.decorators⟩

/-- A branch of a union: the name of its inline definition, or of its type. -/
def buildBranch (fqnOf : DefRef → Option Text) (inlineFqn : Nat → Option Text) (branch : Branch) :
    UnionBranchDescriptor :=
  let decorators := buildDecorators branch.decorators
  match branch.inlineDef with
  | some k => ⟨branch.discriminator, inlineFqn k, none, none, decorators⟩
  | none =>
    match branch.typeRef with
    | some (.defined _ name resolved) =>
      ⟨branch.discriminator, none, some (writtenName fqnOf name resolved), some branch.name, decorators⟩
    -- never: the type of a branch is a name
    | _ => ⟨branch.discriminator, none, none, none, decorators⟩

def buildMethod (fqnOf : DefRef → Option Text) (method : Method) : MethodDescriptor :=
  ⟨method.name, buildType fqnOf method.requestType, buildType fqnOf method.responseType, method.methodType, method.id,
    buildDecorators method.decorators⟩

/-- The second half of `_desc_build_def`. Mixins are not written. -/
def buildBody (fqnOf : DefRef → Option Text) (inlineFqn : Nat → Option Text) (decorators : List Decorator) :
    Body → BodyDescriptor
  | .enum baseType members =>
    .enumDef baseType (decorators.any fun decorator => decorator.name = "flags".toList)
      (members.map fun member => ⟨member.name, member.value, buildDecorators member.decorators⟩)
  | .struct isMutable fields => .structDef isMutable (buildFields fqnOf fields)
  | .message fields => .messageDef (buildFields fqnOf fields)
  | .union branches => .unionDef (branches.map (buildBranch fqnOf inlineFqn))
  | .service methods _ => .serviceDef (methods.map (buildMethod fqnOf))
  | .const type _ => .constDef (buildType fqnOf type)
  | .decorator => .decoratorDef

mutual

/-- `_desc_build_def`, for a definition in a scope. -/
def buildDef (fqnOf : DefRef → Option Text) (scope : Option Text) : Def → DefinitionDescriptor
  | ⟨name, span, decorators, visibility, nestedDefs, body⟩ =>
    let fqn := joinDotted scope name
    ⟨body.kind, visibility, name, fqn, buildDecorators decorators, buildDefs fqnOf (some fqn) nestedDefs,
      buildBody fqnOf (fun k => nestedDefs[k]?.map fun nested => joinDotted (some fqn) nested.name) decorators body⟩

/-- `_desc_build_nested` -/
def buildDefs (fqnOf : DefRef → Option Text) (scope : Option Text) : List Def → List DefinitionDescriptor
  | [] => []
  | d :: ds => buildDef fqnOf scope d :: buildDefs fqnOf scope ds

end

/-- `_desc_build_schema` -/
def buildSchema (fqnOf : DefRef → Option Text) (schema : Schema) : SchemaDescriptor where
  path := schema.log.path
  package := schema.package
  imports := schema.imports.map Import.path
  definitions := buildDefs fqnOf schema.package schema.definitions

/-- `bebop_descriptor_build` -/
def descriptorBuild (result : ParseResult) : DescriptorSet where
  schemas := result.schemas.map (buildSchema result.fqn)

/-! ## Places in a descriptor -/

def descriptorAt : List DefinitionDescriptor → List Nat → Option DefinitionDescriptor
  | _, [] => none
  | defs, [i] => defs[i]?
  | defs, i :: j :: path => defs[i]?.bind fun d => descriptorAt d.nested (j :: path)

def DescriptorSet.at? (set : DescriptorSet) (ref : DefRef) : Option DefinitionDescriptor :=
  set.schemas[ref.schema]?.bind fun schema => descriptorAt schema.definitions ref.path

section Places

variable {fqnOf : DefRef → Option Text}

theorem getElem?_buildDefs (scope : Option Text) (defs : List Def) (i : Nat) :
    (buildDefs fqnOf scope defs)[i]? = defs[i]?.map (buildDef fqnOf scope) := by
  induction defs generalizing i with
  | nil => rw [buildDefs, List.getElem?_nil, List.getElem?_nil, Option.map_none]
  | cons d ds ih =>
    rw [buildDefs]
    cases i with
    | zero => rfl
    | succ i =>
      rw [List.getElem?_cons_succ, List.getElem?_cons_succ]
      exact ih i

theorem buildDef_eq (scope : Option Text) (d : Def) :
    buildDef fqnOf scope d =
      ⟨d.kind, d.visibility, d.name, joinDotted scope d.name, buildDecorators d.decorators,
        buildDefs fqnOf (some (joinDotted scope d.name)) d.nestedDefs,
        buildBody fqnOf (fun k => d.nestedDefs[k]?.map fun nested => joinDotted (some (joinDotted scope d.name)) nested.name)
          d.decorators d.body⟩ := by
  cases d
  rw [buildDef]
  rfl

theorem descriptorAt_buildDefs (scope : Option Text) (defs : List Def) (path : List Nat) :
    (∀ d, definitionAt defs path = some d →
      ∃ outer, fqnAt scope defs path = some (joinDotted outer d.name) ∧
        descriptorAt (buildDefs fqnOf scope defs) path = some (buildDef fqnOf outer d)) ∧
      (definitionAt defs path = none → descriptorAt (buildDefs fqnOf scope defs) path = none) := by
  induction path generalizing scope defs with
  | nil => exact ⟨fun _ hnone => (by cases hnone), fun _ => rfl⟩
  | cons i path ih =>
    cases path with
    | nil =>
      rw [definitionAt, descriptorAt, getElem?_buildDefs, fqnAt]
      constructor
      · intro d hd
        rw [hd]
        exact ⟨scope, rfl, rfl⟩
      · intro hnone
        rw [hnone, Option.map_none]
    | cons j path =>
      rw [definitionAt, descriptorAt, getElem?_buildDefs, fqnAt]
      cases hparent : defs[i]? with
      | none => exact ⟨fun _ hnone => (by cases hnone), fun _ => rfl⟩
      | some parent =>
        rw [Option.map_some, Option.bind_some, Option.bind_some, Option.bind_some, buildDef_eq]
        exact ih (some (joinDotted scope parent.name)) parent.nestedDefs

theorem fqnAt_append_singleton {scope : Option Text} {defs : List Def} {path : List Nat} {d : Def} {fqn : Text}
    (hd : definitionAt defs path = some d) (h : fqnAt scope defs path = some fqn) (k : Nat) :
    fqnAt scope defs (path ++ [k]) = d.nestedDefs[k]?.map fun nested => joinDotted (some fqn) nested.name := by
  induction path generalizing scope defs with
  | nil => cases hd
  | cons i path ih =>
    cases path with
    | nil =>
      rw [definitionAt] at hd
      rw [fqnAt, hd, Option.map_some, Option.some.injEq] at h
      rw [List.singleton_append, fqnAt, hd, Option.bind_some, fqnAt, h]
    | cons j path =>
      obtain ⟨parent, hparent, hnested⟩ := definitionAt_cons_cons.mp hd
      rw [fqnAt, hparent, Option.bind_some] at h
      rw [List.cons_append, List.cons_append, fqnAt, hparent, Option.bind_some]
      exact ih hnested h

end Places

namespace ParseResult

variable {result : ParseResult}

theorem getElem?_schemas_descriptorBuild (s : Nat) :
    (descriptorBuild result).schemas[s]? = result.schemas[s]?.map (buildSchema result.fqn) :=
  List.getElem?_map

theorem at?_descriptorBuild {ref : DefRef} {d : Def} (hd : result.def? ref = some d) :
    ∃ outer, result.fqn ref = some (joinDotted outer d.name) ∧
      (descriptorBuild result).at? ref = some (buildDef result.fqn outer d) := by
  obtain ⟨schema, hschema, hat⟩ := Option.bind_eq_some_iff.mp hd
  obtain ⟨outer, hfqn, hdescriptor⟩ := (descriptorAt_buildDefs schema.package schema.definitions ref.path).1 d hat
  refine ⟨outer, ?_, ?_⟩
  · rw [ParseResult.fqn, hschema, Option.bind_some, Schema.fqn, hfqn]
  · rw [DescriptorSet.at?, getElem?_schemas_descriptorBuild, hschema, Option.map_some, Option.bind_some]
    exact hdescriptor

theorem def?_of_at? {ref : DefRef} {descriptor : DefinitionDescriptor}
    (h : (descriptorBuild result).at? ref = some descriptor) : ∃ d, result.def? ref = some d := by
  obtain ⟨built, hbuilt, hat⟩ := Option.bind_eq_some_iff.mp h
  rw [getElem?_schemas_descriptorBuild] at hbuilt
  obtain ⟨schema, hschema, rfl⟩ := Option.map_eq_some_iff.mp hbuilt
  cases hdefinition : definitionAt schema.definitions ref.path with
  | some d => exact ⟨d, by rw [ParseResult.def?, hschema, Option.bind_some, hdefinition]⟩
  | none =>
    rw [buildSchema, (descriptorAt_buildDefs _ _ _).2 hdefinition] at hat
    cases hat

end ParseResult

end Bebop.Compiler
