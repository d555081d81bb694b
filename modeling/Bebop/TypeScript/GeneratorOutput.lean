import Bebop.Lib.Guarded
import Bebop.TypeScript.Generator

/-!
# Bebop — what the TypeScript generator writes

`generate` refuses a request or writes one file for each schema that is asked for, with one
declaration for each definition in it. Every function of the generator has a lemma in the
form of `guarded_generate`, which says exactly when, and what.
-/

namespace Bebop.TypeScript

open Bebop.Compiler

/-! ## Names that are found -/

def allDefinitions (schemas : List SchemaDescriptor) : List DefinitionDescriptor :=
  schemas.flatMap fun schema => preorders schema.definitions

/-- A name of a type for which there is a definition, or that the runtime has. -/
def Known (schemas : List SchemaDescriptor) (fqn : Text) : Prop :=
  (∃ d ∈ allDefinitions schemas, d.fqn = fqn) ∨ fqn = "bebop.Any".toList ∨ fqn = "bebop.Empty".toList

theorem allDefinitions_cons (schema : SchemaDescriptor) (schemas : List SchemaDescriptor) :
    allDefinitions (schema :: schemas) = preorders schema.definitions ++ allDefinitions schemas :=
  List.flatMap_cons

def GeneratorState.Knows (state : GeneratorState) (fqn : Text) : Prop :=
  fqn ∈ state.definitions ∨ fqn = "bebop.Any".toList ∨ fqn = "bebop.Empty".toList

section State

variable {state : GeneratorState}

theorem guarded_definedTypeName (fqn : Text) : ∃ type, Guarded (definedTypeName fqn state) (state.Knows fqn) type := by
  unfold definedTypeName GeneratorState.Knows
  cases hlookup : state.definitions.lookup fqn with
  | some info =>
    have hmem : fqn ∈ state.definitions := OrderedMap.mem_iff.mpr ⟨info, hlookup⟩
    exact ⟨_, (Guarded.pure _).congr (by simp [hmem])⟩
  | none =>
    have hmem : fqn ∉ state.definitions := by
      rw [OrderedMap.mem_iff, hlookup]
      exact nofun
    by_cases hany : fqn = "bebop.Any".toList
    · simp only [if_pos hany]
      exact ⟨_, (Guarded.pure _).congr (by simp [hany])⟩
    · simp only [if_neg hany]
      by_cases hempty : fqn = "bebop.Empty".toList
      · simp only [if_pos hempty]
        exact ⟨_, (Guarded.pure _).congr (by simp [hempty])⟩
      · simp only [if_neg hempty]
        exact ⟨[], (Guarded.throw _ _).congr (iff_of_false id (by rintro (h | h | h); exacts [hmem h, hany h, hempty h]))⟩

theorem names_of_typedArray {element : TypeDescriptor} {name : Text} (h : typedArray element = some name) :
    element.names = [] := by
  cases element with
  | scalar kind => rfl
  | _ => cases h

theorem guarded_arrayType {element : TypeDescriptor} {elementType : Except CodegenError Text} {type : Text}
    (h : Guarded elementType (∀ fqn ∈ element.names, state.Knows fqn) type) :
    ∃ type, Guarded (arrayType element elementType) (∀ fqn ∈ element.names, state.Knows fqn) type := by
  unfold arrayType
  cases harray : typedArray element with
  | some name => exact ⟨_, (Guarded.pure _).congr (by simp [names_of_typedArray harray])⟩
  | none => exact ⟨_, h.bind_pure⟩

theorem guarded_typeName (type : TypeDescriptor) :
    ∃ text, Guarded (typeName state type) (∀ fqn ∈ type.names, state.Knows fqn) text := by
  induction type with
  | scalar kind => exact ⟨_, (Guarded.pure _).congr (by simp [TypeDescriptor.names])⟩
  | array element ih => exact guarded_arrayType ih.choose_spec
  | fixedArray element size ih => exact guarded_arrayType ih.choose_spec
  | map key value ihKey ihValue =>
    refine ⟨_, (ihKey.choose_spec.bind fun _ => ihValue.choose_spec.bind_pure).congr ?_⟩
    simp only [TypeDescriptor.names, List.forall_mem_append]
  | defined fqn =>
    exact ⟨_, (guarded_definedTypeName fqn).choose_spec.congr (by simp [TypeDescriptor.names])⟩

end State

/-! ## Names that differ -/

theorem guarded_requireUniqueNames (names : List Text) (context : String) :
    Guarded (requireUniqueNames names context) names.Nodup () := by
  unfold requireUniqueNames
  have hstep (seen : List Text) (name : Text) :
      Guarded (addUniqueName context seen name) (name ∉ seen ∧ True) (name :: seen) :=
    Guarded.reject fun _ => Guarded.pure _
  have hloop := Guarded.distinct (fun seen name => name :: seen) id (fun seen name => name ∈ seen) (fun _ => True)
    (fun seen name (_ : name ∈ names) => hstep seen name) (fun seen name other => by simp [or_comm]) []
  exact hloop.bind_pure.congr (by simp)

/-! ## Definitions -/

def caseName (branch : UnionBranchDescriptor) : Text :=
  fieldName (branch.name.getD (((branch.typeRefFqn.or branch.inlineFqn).getD []).rtakeWhile (· ≠ '.')))

/-- The body of a definition is there, its types have names that are found, the names in it
are different in TypeScript as well, and a message's indexes are different and fit a byte. -/
def Renders (known : Text → Prop) (d : DefinitionDescriptor) : Prop :=
  match d.kind, d.body with
  | .enum, .enumDef _ _ _ => True
  | .struct, .structDef _ fields =>
    (∀ field ∈ fields, ∀ fqn ∈ field.type.names, known fqn) ∧ (fields.map fun field => fieldName field.name).Nodup
  | .message, .messageDef fields =>
    (∀ field ∈ fields, ∀ fqn ∈ field.type.names, known fqn) ∧
      ((∀ field ∈ fields, 1 ≤ field.index ∧ field.index ≤ 255) ∧ (fields.map FieldDescriptor.index).Nodup) ∧
        (fields.map fun field => fieldName field.name).Nodup
  | .union, .unionDef branches =>
    (∀ branch ∈ branches, ∃ fqn, branch.typeRefFqn.or branch.inlineFqn = some fqn ∧ known fqn) ∧
      (branches.map caseName).Nodup
  | .const, .constDef type => ∀ fqn ∈ type.names, known fqn
  | .service, .serviceDef methods =>
    (∀ method ∈ methods, (∃ fqn, method.requestType = .defined fqn ∧ known fqn) ∧
      ∃ fqn, method.responseType = .defined fqn ∧ known fqn) ∧
      (methods.map fun method => serviceMethodName method.name).Nodup
  | .decorator, _ => True
  | _, _ => False

/-- The names that a definition is given with a suffix. -/
def suffixes (d : DefinitionDescriptor) : List Text :=
  match d.kind, d.body with
  | .enum, _ => [reflectionSuffix]
  | .struct, _ => [viewSuffix]
  | .message, _ => [viewSuffix]
  | .union, _ => [viewSuffix]
  | .service, .serviceDef methods =>
    handlerSuffix :: (if methods.any fun method => isBatchMethod method.methodType then [batchSuffix] else []) ++
      (if methods.any fun method => isFutureMethod method.methodType then [futuresSuffix] else []) ++ [clientSuffix]
  | _, _ => []

def exportedName (schema : SchemaDescriptor) (d : DefinitionDescriptor) : Text :=
  if d.kind = .const then identifier d.name else exportedTypeName d schema

def declarations (schema : SchemaDescriptor) (d : DefinitionDescriptor) : List Declaration :=
  let name := exportedName schema d
  match d.kind, d.body with
  | .decorator, _ => []
  | .service, .serviceDef methods =>
    [⟨d.fqn, [name ++ handlerSuffix, name] ++
      (if methods.any fun method => isBatchMethod method.methodType then [name ++ batchSuffix] else []) ++
        (if methods.any fun method => isFutureMethod method.methodType then [name ++ futuresSuffix] else []) ++
          [name ++ clientSuffix]⟩]
  | _, _ => [⟨d.fqn, name :: (suffixes d).map fun suffix => name ++ suffix⟩]

section Definitions

variable {state : GeneratorState} {d : DefinitionDescriptor} {schema : SchemaDescriptor}

def fieldOf (state : GeneratorState) (kind : DefKind) (field : FieldDescriptor) : FieldInfo :=
  ⟨field.name, fieldName field.name, Guarded.valueOf (typeName state field.type),
    if kind = .message then field.index else 0⟩

theorem guarded_fieldInfo (kind : DefKind) (field : FieldDescriptor) :
    Guarded (fieldInfo state kind field) (∀ fqn ∈ field.type.names, state.Knows fqn) (fieldOf state kind field) :=
  (guarded_typeName field.type).choose_spec.value.bind_pure

theorem guarded_checkIndexes (name : Text) (previous : Option FieldInfo) {fields : List FieldInfo}
    (hsorted : (previous.toList ++ fields).Pairwise fun left right => left.index ≤ right.index) :
    Guarded (checkIndexes name previous fields)
      ((∀ field ∈ fields, 1 ≤ field.index ∧ field.index ≤ 255) ∧
        ((previous.toList ++ fields).map FieldInfo.index).Nodup) () := by
  induction fields generalizing previous with
  | nil =>
    refine (Guarded.pure ()).congr ?_
    cases previous with
    | none => simp
    | some before => simp
  | cons field fields ih =>
    rw [checkIndexes]
    have hrest : ((some field).toList ++ fields).Pairwise fun left right => left.index ≤ right.index :=
      hsorted.sublist (List.sublist_append_right _ _)
    refine (Guarded.reject fun _ => Guarded.reject fun _ => ih (some field) hrest).congr ?_
    cases previous with
    | none =>
      simp only [Option.map_none, reduceCtorEq, not_false_eq_true, Option.toList_none, List.nil_append,
        Option.toList_some, List.singleton_append, List.forall_mem_cons, not_or, Nat.not_lt, true_and]
      constructor
      · rintro ⟨⟨hlow, hhigh⟩, hall, hnodup⟩
        exact ⟨⟨⟨by omega, by omega⟩, hall⟩, hnodup⟩
      · rintro ⟨⟨⟨hlow, hhigh⟩, hall⟩, hnodup⟩
        exact ⟨⟨by omega, by omega⟩, hall, hnodup⟩
    | some before =>
      simp only [Option.map_some, Option.some.injEq, Option.toList_some, List.singleton_append, List.forall_mem_cons,
        not_or, Nat.not_lt]
      have hbefore := List.pairwise_cons.mp hsorted
      have hfield := List.pairwise_cons.mp hbefore.2
      constructor
      · rintro ⟨⟨hlow, hhigh⟩, hne, hall, hnodup⟩
        refine ⟨⟨⟨by omega, by omega⟩, hall⟩, List.nodup_cons.mpr ⟨fun hmem => ?_, hnodup⟩⟩
        -- what comes after the field is at least its index, which is past the one before
        rcases List.mem_cons.mp hmem with heq | hmem
        · exact hne heq
        · obtain ⟨later, hlater, heq⟩ := List.mem_map.mp hmem
          have hle := hfield.1 later hlater
          have hle' := hbefore.1 field List.mem_cons_self
          omega
      · rintro ⟨⟨⟨hlow, hhigh⟩, hall⟩, hnodup⟩
        obtain ⟨hnew, hnodup⟩ := List.nodup_cons.mp hnodup
        exact ⟨⟨by omega, by omega⟩, fun heq => hnew (heq ▸ List.mem_cons_self), hall, hnodup⟩

theorem guarded_generateRecord (hkind : d.kind = .struct ∨ d.kind = .message) :
    Guarded (generateRecord d schema state) (Renders state.Knows d)
      ⟨d.fqn, [exportedTypeName d schema, exportedTypeName d schema ++ viewSuffix]⟩ := by
  have hmap (kind : DefKind) (fields : List FieldDescriptor) :
      Guarded (fields.mapM (fieldInfo state kind)) (∀ field ∈ fields, ∀ fqn ∈ field.type.names, state.Knows fqn)
        (fields.map (fieldOf state kind)) :=
    Guarded.mapM fun field _ => guarded_fieldInfo kind field
  have hnames (kind : DefKind) (fields : List FieldDescriptor) :
      (fields.map (fieldOf state kind)).map FieldInfo.name = fields.map fun field => fieldName field.name :=
    List.map_map
  obtain ⟨kind, visibility, name, fqn, decorators, nested, body⟩ := d
  rcases hkind with rfl | rfl
  · cases body with
    | structDef isMutable fields =>
      refine ((hmap .struct fields).bind fun _ =>
        (guarded_requireUniqueNames ((fields.map (fieldOf state .struct)).map FieldInfo.name) _).bind_pure).congr ?_
      rw [hnames]
      rfl
    | _ => exact Guarded.throw _ _
  · cases body with
    | messageDef fields =>
      set sorted := (fields.map (fieldOf state .message)).insertionSort fun left right => left.index ≤ right.index
      have hperm : sorted.Perm (fields.map (fieldOf state .message)) := List.perm_insertionSort _ _
      have hpairwise : ((none : Option FieldInfo).toList ++ sorted).Pairwise fun left right => left.index ≤ right.index :=
        List.pairwise_insertionSort _ _
      refine ((hmap .message fields).bind fun _ => (guarded_checkIndexes _ none hpairwise).bind fun _ =>
        (guarded_requireUniqueNames (sorted.map FieldInfo.name) _).bind_pure).congr ?_
      rw [Option.toList_none, List.nil_append, (hperm.map FieldInfo.index).nodup_iff, (hperm.map FieldInfo.name).nodup_iff,
        hnames, List.map_map]
      simp only [hperm.mem_iff, List.forall_mem_map]
      rfl
    | _ => exact Guarded.throw _ _

theorem guarded_generateUnion (hkind : d.kind = .union) :
    Guarded (generateUnion d schema state) (Renders state.Knows d)
      ⟨d.fqn, [exportedTypeName d schema, exportedTypeName d schema ++ viewSuffix]⟩ := by
  have hbranch (unionName : Text) (branch : UnionBranchDescriptor) :
      Guarded (unionBranchInfo state unionName branch)
        (∃ fqn, branch.typeRefFqn.or branch.inlineFqn = some fqn ∧ state.Knows fqn)
        (caseName branch,
          Guarded.valueOf (definedTypeName ((branch.typeRefFqn.or branch.inlineFqn).getD []) state)) := by
    unfold unionBranchInfo caseName
    cases hfqn : branch.typeRefFqn.or branch.inlineFqn with
    | none => exact (Guarded.throw _ _).congr (by simp)
    | some fqn => exact (guarded_definedTypeName fqn).choose_spec.value.bind_pure.congr (by simp)
  obtain ⟨kind, visibility, name, fqn, decorators, nested, body⟩ := d
  obtain rfl : kind = .union := hkind
  cases body with
  | unionDef branches =>
    refine ((Guarded.mapM fun branch _ => hbranch _ branch).bind fun _ =>
      (guarded_requireUniqueNames _ _).bind_pure).congr ?_
    rw [List.map_map]
    rfl
  | _ => exact Guarded.throw _ _

theorem guarded_generateConst (hkind : d.kind = .const) :
    Guarded (generateConst d state) (Renders state.Knows d) ⟨d.fqn, [identifier d.name]⟩ := by
  obtain ⟨kind, visibility, name, fqn, decorators, nested, body⟩ := d
  obtain rfl : kind = .const := hkind
  cases body with
  | constDef type => exact (guarded_typeName type).choose_spec.bind_pure
  | _ => exact Guarded.throw _ _

/-- What is kept of a method whose types are written. -/
def methodOf (state : GeneratorState) (method : MethodDescriptor) : ServiceMethodInfo :=
  ⟨serviceMethodName method.name, method.methodType, Guarded.valueOf (serviceTypeInfo state method.requestType),
    Guarded.valueOf (serviceTypeInfo state method.responseType)⟩

theorem guarded_serviceMethodInfo (method : MethodDescriptor) :
    Guarded (serviceMethodInfo state method)
      ((∃ fqn, method.requestType = .defined fqn ∧ state.Knows fqn) ∧
        ∃ fqn, method.responseType = .defined fqn ∧ state.Knows fqn) (methodOf state method) := by
  have htype (type : TypeDescriptor) :
      Guarded (serviceTypeInfo state type) (∃ fqn, type = .defined fqn ∧ state.Knows fqn)
        (Guarded.valueOf (serviceTypeInfo state type)) := by
    cases type with
    | defined fqn => exact (guarded_definedTypeName fqn).choose_spec.value.congr (by simp)
    | _ => exact (Guarded.throw _ _).congr (by simp)
  exact (htype method.requestType).bind fun _ => (htype method.responseType).bind_pure

theorem length_filter_methodOf (p : MethodType → Bool) (methods : List MethodDescriptor) :
    ((methods.map (methodOf state)).filter fun method => p method.methodType).length > 0 ↔
      (methods.any fun method => p method.methodType) = true := by
  rw [gt_iff_lt, List.length_pos_iff_exists_mem, List.any_eq_true]
  constructor
  · rintro ⟨info, hinfo⟩
    obtain ⟨hmem, hp⟩ := List.mem_filter.mp hinfo
    obtain ⟨method, hmethod, rfl⟩ := List.mem_map.mp hmem
    exact ⟨method, hmethod, hp⟩
  · rintro ⟨method, hmethod, hp⟩
    exact ⟨methodOf state method, List.mem_filter.mpr ⟨List.mem_map_of_mem hmethod, hp⟩⟩

theorem guarded_generateService (hkind : d.kind = .service) :
    Guarded (generateService d schema state >>= fun declaration => pure [declaration]) (Renders state.Knows d)
      (declarations schema d) := by
  obtain ⟨kind, visibility, name, fqn, decorators, nested, body⟩ := d
  obtain rfl : kind = .service := hkind
  cases body with
  | serviceDef methods =>
    refine (((Guarded.mapM fun method _ => guarded_serviceMethodInfo method).bind fun _ =>
      (guarded_requireUniqueNames _ _).bind_pure).bind_pure.congr ?_).eq fun _ => ?_
    · rw [List.map_map]
      rfl
    · simp only [length_filter_methodOf]
      rfl
  | _ => exact Guarded.throw _ _

theorem guarded_generateDefinition (d : DefinitionDescriptor) :
    Guarded (generateDefinition schema state d) (Renders state.Knows d) (declarations schema d) := by
  obtain ⟨kind, visibility, name, fqn, decorators, nested, body⟩ := d
  cases kind with
  | enum =>
    cases body with
    | enumDef baseType isFlags members => exact (Guarded.pure _).bind_pure
    | _ => exact Guarded.throw _ _
  | struct => exact (guarded_generateRecord (.inl rfl)).bind_pure
  | message => exact (guarded_generateRecord (.inr rfl)).bind_pure
  | union => exact (guarded_generateUnion rfl).bind_pure
  | const => exact (guarded_generateConst rfl).bind_pure
  | service => exact guarded_generateService rfl
  | decorator => exact Guarded.pure _

theorem guarded_generateSchema :
    Guarded (generateSchema schema state) (∀ d ∈ postorders schema.definitions, Renders state.Knows d)
      ((postorders schema.definitions).flatMap (declarations schema)) :=
  (Guarded.mapM fun d _ => guarded_generateDefinition d).bind_pure

end Definitions

/-! ## The definitions of the schemas -/

def EnumComplete (d : DefinitionDescriptor) : Prop :=
  d.kind = .enum → ∃ baseType isFlags members, d.body = .enumDef baseType isFlags members

def enumBaseType (d : DefinitionDescriptor) : Option Scalar :=
  match d.kind, d.body with
  | .enum, .enumDef baseType _ _ => some baseType
  | _, _ => none

def collected (schema : SchemaDescriptor) (path : String) (definitions : OrderedMap Text DefinitionInfo)
    (d : DefinitionDescriptor) : OrderedMap Text DefinitionInfo :=
  definitions.set d.fqn ⟨path, exportedTypeName d schema, d.kind, enumBaseType d⟩

def collectedSchema (definitions : OrderedMap Text DefinitionInfo) (schema : SchemaDescriptor) :
    OrderedMap Text DefinitionInfo :=
  (preorders schema.definitions).foldl (collected schema (schema.path.getD "")) definitions

theorem guarded_required {α : Type} (value : Option α) (message : String) (a : α) :
    Guarded (required value message) value.isSome (value.getD a) := by
  cases value with
  | none => exact (Guarded.throw _ _).congr (by simp)
  | some value => exact (Guarded.pure _).congr (by simp)

theorem guarded_collectDefinition (schema : SchemaDescriptor) (path : String)
    (definitions : OrderedMap Text DefinitionInfo) (d : DefinitionDescriptor) :
    Guarded (collectDefinition schema path definitions d) (d.fqn ∉ definitions ∧ EnumComplete d)
      (collected schema path definitions d) := by
  unfold collectDefinition
  refine Guarded.reject fun _ => ?_
  obtain ⟨kind, visibility, name, fqn, decorators, nested, body⟩ := d
  cases kind with
  | enum =>
    cases body with
    | enumDef baseType isFlags members =>
      exact (Guarded.pure _).congr (iff_of_true trivial fun _ => ⟨baseType, isFlags, members, rfl⟩)
    | _ =>
      refine (Guarded.throw _ _).congr (iff_of_false id fun h => ?_)
      obtain ⟨_, _, _, hbody⟩ := h rfl
      cases hbody
  | _ => exact (Guarded.pure _).congr (iff_of_true trivial nofun)

theorem mem_collected {schema : SchemaDescriptor} {path : String} {definitions : OrderedMap Text DefinitionInfo}
    {d : DefinitionDescriptor} {fqn : Text} :
    fqn ∈ collected schema path definitions d ↔ fqn ∈ definitions ∨ fqn = d.fqn := by
  rw [OrderedMap.mem_iff, OrderedMap.mem_iff, collected, OrderedMap.lookup_set]
  by_cases heq : fqn = d.fqn
  · simp [heq]
  · simp [heq]

theorem mem_foldl_collected {schema : SchemaDescriptor} {path : String} {ds : List DefinitionDescriptor}
    {definitions : OrderedMap Text DefinitionInfo} {fqn : Text} :
    fqn ∈ ds.foldl (collected schema path) definitions ↔ fqn ∈ definitions ∨ fqn ∈ ds.map DefinitionDescriptor.fqn := by
  induction ds generalizing definitions with
  | nil => simp
  | cons d ds ih =>
    rw [List.foldl_cons, ih, mem_collected, List.map_cons, List.mem_cons, or_assoc]

theorem mem_foldl_collectedSchema {schemas : List SchemaDescriptor} {definitions : OrderedMap Text DefinitionInfo}
    {fqn : Text} :
    fqn ∈ schemas.foldl collectedSchema definitions ↔
      fqn ∈ definitions ∨ fqn ∈ (allDefinitions schemas).map DefinitionDescriptor.fqn := by
  induction schemas generalizing definitions with
  | nil => simp [allDefinitions]
  | cons schema schemas ih =>
    rw [List.foldl_cons, ih, collectedSchema, mem_foldl_collected, allDefinitions_cons, List.map_append,
      List.mem_append, or_assoc]

theorem guarded_collectSchema (definitions : OrderedMap Text DefinitionInfo) (schema : SchemaDescriptor) :
    Guarded (collectSchema definitions schema)
      (schema.path.isSome ∧ ((preorders schema.definitions).map DefinitionDescriptor.fqn).Nodup ∧
        ∀ d ∈ preorders schema.definitions, d.fqn ∉ definitions ∧ EnumComplete d)
      (collectedSchema definitions schema) :=
  (guarded_required schema.path _ "").bind fun _ =>
    Guarded.distinct _ DefinitionDescriptor.fqn (fun definitions fqn => fqn ∈ definitions) EnumComplete
      (fun definitions d _ => guarded_collectDefinition schema _ definitions d) (fun _ _ _ => mem_collected) definitions

/-- The schemas have paths, and no two definitions of them all have one name. -/
structure Collectable (schemas : List SchemaDescriptor) : Prop where
  paths : ∀ schema ∈ schemas, schema.path.isSome
  fqns : ((allDefinitions schemas).map DefinitionDescriptor.fqn).Nodup
  enums : ∀ d ∈ allDefinitions schemas, EnumComplete d

theorem guarded_collectSchemas (schemas : List SchemaDescriptor) (definitions : OrderedMap Text DefinitionInfo) :
    Guarded (schemas.foldlM collectSchema definitions)
      (Collectable schemas ∧ ∀ d ∈ allDefinitions schemas, d.fqn ∉ definitions)
      (schemas.foldl collectedSchema definitions) := by
  induction schemas generalizing definitions with
  | nil =>
    exact (Guarded.pure _).congr (iff_of_true trivial ⟨⟨nofun, List.nodup_nil, nofun⟩, nofun⟩)
  | cons schema schemas ih =>
    rw [List.foldlM_cons]
    refine ((guarded_collectSchema definitions schema).bind fun _ => ih _).congr ?_
    constructor
    · rintro ⟨⟨hpath, hnodup, hfirst⟩, ⟨hpaths, hfqns, henums⟩, hrest⟩
      -- a later definition has a name that is not there after the first schema
      have hlater (d : DefinitionDescriptor) (hd : d ∈ allDefinitions schemas) :
          d.fqn ∉ definitions ∧ d.fqn ∉ (preorders schema.definitions).map DefinitionDescriptor.fqn := by
        have hnot := hrest d hd
        rw [collectedSchema, mem_foldl_collected, not_or] at hnot
        exact hnot
      refine ⟨⟨List.forall_mem_cons.mpr ⟨hpath, hpaths⟩, ?_, ?_⟩, ?_⟩
      · rw [allDefinitions_cons, List.map_append, List.nodup_append']
        refine ⟨hnodup, hfqns, fun fqn hfqn hfqn' => ?_⟩
        obtain ⟨d, hd, rfl⟩ := List.mem_map.mp hfqn'
        exact (hlater d hd).2 hfqn
      · rw [allDefinitions_cons, List.forall_mem_append]
        exact ⟨fun d hd => (hfirst d hd).2, henums⟩
      · rw [allDefinitions_cons, List.forall_mem_append]
        exact ⟨fun d hd => (hfirst d hd).1, fun d hd => (hlater d hd).1⟩
    · rintro ⟨⟨hpaths, hfqns, henums⟩, hnew⟩
      rw [allDefinitions_cons, List.map_append, List.nodup_append'] at hfqns
      rw [allDefinitions_cons, List.forall_mem_append] at henums hnew
      obtain ⟨hnodup, hrest, hdisjoint⟩ := hfqns
      obtain ⟨hpath, hpaths⟩ := List.forall_mem_cons.mp hpaths
      refine ⟨⟨hpath, hnodup, fun d hd => ⟨hnew.1 d hd, henums.1 d hd⟩⟩, ⟨hpaths, hrest, henums.2⟩, fun d hd => ?_⟩
      rw [collectedSchema, mem_foldl_collected, not_or]
      exact ⟨hnew.2 d hd, fun hmem => hdisjoint hmem (List.mem_map_of_mem hd)⟩

theorem guarded_buildState (schemas : List SchemaDescriptor) :
    Guarded (buildState schemas) (Collectable schemas) ⟨schemas.foldl collectedSchema ∅⟩ := by
  refine (guarded_collectSchemas schemas ∅).bind_pure.congr (and_iff_left fun d _ hmem => ?_)
  exact AList.notMem_empty _ hmem

/-! ## `generate` -/

def IsRequested (paths : List String) (schema : SchemaDescriptor) : Prop := ∃ path ∈ paths, schema.path = some path

instance (paths : List String) : DecidablePred (IsRequested paths) := by
  unfold IsRequested
  infer_instance

/-- What has to hold of a request for the generator to take it. -/
structure Accepts (request : CodeGeneratorRequest) (paths : List String) (schemas : List SchemaDescriptor) : Prop where
  collectable : Collectable schemas
  options : ∀ option, request.hostOptions.lookup "runtime-import" = some option → trim option.toList ≠ []
  nodup : paths.Nodup
  renders : ∀ schema ∈ schemas, IsRequested paths schema →
    ∀ d ∈ postorders schema.definitions, Renders (Known schemas) d
  found : ∀ path ∈ paths, ∃ schema ∈ schemas, schema.path = some path

def fileOf (schema : SchemaDescriptor) : GeneratedFile :=
  ⟨outputFileName (schema.path.getD ""), (postorders schema.definitions).flatMap (declarations schema)⟩

theorem guarded_parseGeneratorOptions (hostOptions : OrderedMap String String) :
    ∃ runtimeImport, Guarded (parseGeneratorOptions hostOptions)
      (∀ option, hostOptions.lookup "runtime-import" = some option → trim option.toList ≠ []) runtimeImport := by
  unfold parseGeneratorOptions
  cases hlookup : hostOptions.lookup "runtime-import" with
  | none => exact ⟨_, (Guarded.pure _).congr (by simp)⟩
  | some option => exact ⟨_, (Guarded.reject fun _ => Guarded.pure _).congr (by simp)⟩

theorem knows_iff {schemas : List SchemaDescriptor} (fqn : Text) :
    (⟨schemas.foldl collectedSchema ∅⟩ : GeneratorState).Knows fqn ↔ Known schemas fqn := by
  unfold GeneratorState.Knows Known
  rw [mem_foldl_collectedSchema, List.mem_map]
  exact or_congr_left (or_iff_right (AList.notMem_empty _))

theorem Renders.congr {known known' : Text → Prop} (h : ∀ fqn, known fqn ↔ known' fqn) (d : DefinitionDescriptor) :
    Renders known d ↔ Renders known' d := by
  obtain rfl : known = known' := funext fun fqn => propext (h fqn)
  exact Iff.rfl

section Requested

variable {state : GeneratorState} {paths : List String}

theorem guarded_generateRequested (schema : SchemaDescriptor) :
    Guarded (generateRequested state paths schema)
      (schema.path.isSome ∧ (IsRequested paths schema → ∀ d ∈ postorders schema.definitions, Renders state.Knows d))
      (if IsRequested paths schema then [(schema.path.getD "", fileOf schema)] else []) := by
  unfold generateRequested
  refine (guarded_required schema.path _ "").bind fun hsome => ?_
  obtain ⟨path, hpath⟩ := Option.isSome_iff_exists.mp hsome
  have hrequested : IsRequested paths schema ↔ path ∈ paths := by
    unfold IsRequested
    rw [hpath]
    simp
  rw [fileOf, hpath, Option.getD_some]
  by_cases hmem : path ∈ paths
  · rw [if_pos hmem, if_pos (hrequested.mpr hmem)]
    refine guarded_generateSchema.bind_pure.congr ?_
    rw [forall_prop_of_true (hrequested.mpr hmem)]
  · rw [if_neg hmem, if_neg (hrequested.not.mpr hmem)]
    exact (Guarded.pure _).congr (iff_of_true trivial fun h => absurd (hrequested.mp h) hmem)

theorem flatten_generateRequested (schemas : List SchemaDescriptor) :
    (schemas.map fun schema =>
      if IsRequested paths schema then [(schema.path.getD "", fileOf schema)] else []).flatten =
        (schemas.filter fun schema => IsRequested paths schema).map fun schema => (schema.path.getD "", fileOf schema) := by
  induction schemas with
  | nil => rfl
  | cons schema schemas ih =>
    rw [List.map_cons, List.flatten_cons, ih]
    by_cases h : IsRequested paths schema
    · rw [if_pos h, List.filter_cons_of_pos (by simpa using h)]
      rfl
    · rw [if_neg h, List.filter_cons_of_neg (by simpa using h)]
      rfl

end Requested

theorem guarded_generate {request : CodeGeneratorRequest} {paths : List String} {schemas : List SchemaDescriptor}
    (hpaths : request.filesToGenerate = some paths) (hschemas : request.schemas = some schemas) :
    Guarded (generate request) (Accepts request paths schemas)
      ((schemas.filter fun schema => IsRequested paths schema).map fileOf) := by
  unfold generate
  rw [hpaths, hschemas]
  obtain ⟨runtimeImport, hoptions⟩ := guarded_parseGeneratorOptions request.hostOptions
  have hfound (generated : List String) :
      Guarded (paths.forM fun path =>
        if path ∉ generated then throw ("requested schema not found: " ++ path) else pure ())
        (∀ path ∈ paths, path ∈ generated) () :=
    (Guarded.forM fun path _ => Guarded.reject fun _ => Guarded.pure _).congr (by simp)
  refine ((guarded_buildState schemas).bind fun _ => hoptions.bind fun _ => Guarded.reject fun _ =>
    (Guarded.mapM fun schema _ => guarded_generateRequested schema).bind fun _ => (hfound _).bind_pure).congr ?_ |>.eq ?_
  · rw [flatten_generateRequested, List.map_map, not_not]
    have hin (path : String) (hpath : path ∈ paths) :
        path ∈ (schemas.filter fun schema => IsRequested paths schema).map (fun schema => schema.path.getD "") ↔
          ∃ schema ∈ schemas, schema.path = some path := by
      rw [List.mem_map]
      constructor
      · rintro ⟨schema, hschema, heq⟩
        obtain ⟨hmem, hrequested⟩ := List.mem_filter.mp hschema
        obtain ⟨path', -, hpath'⟩ := of_decide_eq_true hrequested
        rw [hpath', Option.getD_some] at heq
        exact ⟨schema, hmem, heq ▸ hpath'⟩
      · rintro ⟨schema, hschema, heq⟩
        refine ⟨schema, List.mem_filter.mpr ⟨hschema, decide_eq_true ⟨path, hpath, heq⟩⟩, ?_⟩
        rw [heq, Option.getD_some]
    constructor
    · rintro ⟨hcollectable, hoptions, hnodup, hschemas, hfound⟩
      refine ⟨hcollectable, hoptions, hnodup, fun schema hschema hrequested d hd => ?_, fun path hpath => ?_⟩
      · exact (Renders.congr knows_iff d).mp ((hschemas schema hschema).2 hrequested d hd)
      · exact (hin path hpath).mp (hfound path hpath)
    · rintro ⟨hcollectable, hoptions, hnodup, hrenders, hfound⟩
      refine ⟨hcollectable, hoptions, hnodup, fun schema hschema => ⟨hcollectable.paths schema hschema, ?_⟩,
        fun path hpath => (hin path hpath).mpr (hfound path hpath)⟩
      intro hrequested d hd
      exact (Renders.congr knows_iff d).mpr (hrenders schema hschema hrequested d hd)
  · intro _
    rw [flatten_generateRequested, List.map_map]
    rfl

end Bebop.TypeScript
