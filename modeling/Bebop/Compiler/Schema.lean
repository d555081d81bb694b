import Bebop.Compiler.Diagnostics
import Bebop.Lib.OrderedMap

/-!
# Bebop — schemas and their definitions

The data of a parse result, after `bebop.c`, and the lookups of `bebop_schema.c` and
`bebop_result.c`. A definition owns the ones nested in it, among them the inline branches
of a union. A pointer to a definition is its place in that forest (`DefRef`). A `Schema` is
one that the parser has filled: every definition is registered once (`Def.Parsed`).
-/

namespace Bebop.Compiler

abbrev Text := List Char

instance : LawfulBEq Text := inferInstance

/-- `bebop_visibility_t` -/
inductive Visibility
  | visDefault
  | visExport
  | visLocal
  deriving DecidableEq, Repr

/-- `bebop_def_kind_t`, of a definition that was parsed. -/
inductive DefKind
  | enum
  | struct
  | message
  | union
  | service
  | const
  | decorator
  deriving DecidableEq, Repr

/-- `BEBOP_SCALAR_TYPES` -/
inductive Scalar
  | bool
  | byte
  | int8
  | int16
  | uint16
  | int32
  | uint32
  | int64
  | uint64
  | int128
  | uint128
  | float16
  | float32
  | float64
  | bfloat16
  | string
  | uuid
  | timestamp
  | duration
  deriving DecidableEq, Repr

/-- The index of a schema, and the places to take among nested definitions. -/
structure DefRef where
  schema : Nat
  path : List Nat
  deriving DecidableEq, Repr

/-- `bebop_type_t` -/
inductive Ty
  | scalar (span : Span) (kind : Scalar)
  | array (span : Span) (element : Ty)
  | fixedArray (span : Span) (element : Ty) (size : Nat)
  | map (span : Span) (key value : Ty)
  | defined (span : Span) (name : Text) (resolved : Option DefRef)
  deriving DecidableEq, Repr

def Ty.span : Ty → Span
  | .scalar span _ => span
  | .array span _ => span
  | .fixedArray span _ _ => span
  | .map span _ _ => span
  | .defined span _ _ => span

/-- The value of a `bebop_literal_t`, by its kind. -/
inductive LiteralValue
  | bool (value : Bool)
  | int (value : Int)
  | float (bits : UInt64)
  | string (value : List UInt8) (hasEnvVar : Bool)
  | uuid (value : List UInt8)
  | timestamp (value : Int × Int × Int)
  | duration (value : Int × Int)
  | bytes (data : List UInt8)
  deriving DecidableEq, Repr

/-- `bebop_literal_t` -/
structure Literal where
  span : Span
  value : LiteralValue
  deriving DecidableEq, Repr

/-- `bebop_decorator_t` -/
structure Decorator where
  name : Text
  span : Span
  resolved : Option DefRef
  deriving DecidableEq, Repr

/-- `bebop_field_t`; the index is zero in a struct. -/
structure Field where
  name : Text
  span : Span
  decorators : List Decorator
  type : Ty
  index : Nat
  deriving DecidableEq, Repr

/-- `bebop_enum_member_t` -/
structure EnumMember where
  name : Text
  span : Span
  decorators : List Decorator
  value : Int
  deriving DecidableEq, Repr

/-- `bebop_union_branch_t`; an inline definition is a place among the nested ones. -/
structure Branch where
  discriminator : Nat
  span : Span
  decorators : List Decorator
  inlineDef : Option Nat
  typeRef : Option Ty
  name : Text
  deriving DecidableEq, Repr

/-- `bebop_method_type_t` -/
inductive MethodType
  | unary
  | serverStream
  | clientStream
  | duplexStream
  deriving DecidableEq, Repr

/-- `bebop_method_t` -/
structure Method where
  name : Text
  span : Span
  nameSpan : Span
  decorators : List Decorator
  requestType : Ty
  responseType : Ty
  methodType : MethodType
  id : Nat
  deriving DecidableEq, Repr

/-- The part of a definition that depends on its kind. -/
inductive Body
  | enum (baseType : Scalar) (members : List EnumMember)
  | struct (isMutable : Bool) (fields : List Field)
  | message (fields : List Field)
  | union (branches : List Branch)
  | service (methods : List Method) (mixins : List Ty)
  | const (type : Ty) (value : Literal)
  | decorator
  deriving DecidableEq, Repr

def Body.kind : Body → DefKind
  | .enum _ _ => .enum
  | .struct _ _ => .struct
  | .message _ => .message
  | .union _ => .union
  | .service _ _ => .service
  | .const _ _ => .const
  | .decorator => .decorator

/-- `bebop_def_t` -/
structure Def where
  name : Text
  span : Span
  decorators : List Decorator
  visibility : Visibility
  nestedDefs : List Def
  body : Body

namespace Def

def kind (d : Def) : DefKind := d.body.kind

/-- `bebop__def_find_nested`: the first nested definition of a name. -/
def findNested (d : Def) (name : Text) : Option Nat := d.nestedDefs.findIdx? fun nested => nested.name = name

end Def

/-! ## What a definition refers to -/

inductive Role
  | field
  | branch
  | method
  | mixin
  deriving DecidableEq, Repr

def Body.referredTypes : Body → List (Role × Ty)
  | .struct _ fields => fields.map fun field => (.field, field.type)
  | .message fields => fields.map fun field => (.field, field.type)
  | .union branches => branches.flatMap fun branch => branch.typeRef.toList.map (Prod.mk .branch)
  | .service methods mixins =>
    (methods.flatMap fun method => [(.method, method.requestType), (.method, method.responseType)]) ++
      mixins.map (Prod.mk .mixin)
  | .enum _ _ => []
  | .const _ _ => []
  | .decorator => []

def Ty.references : Ty → List (Text × Option DefRef)
  | .scalar _ _ => []
  | .array _ element => element.references
  | .fixedArray _ element _ => element.references
  | .map _ key value => key.references ++ value.references
  | .defined _ name resolved => [(name, resolved)]

/-- A name in a definition: what it is for, and its pointer. -/
structure Reference where
  role : Role
  name : Text
  resolved : Option DefRef
  deriving DecidableEq, Repr

def Def.references (d : Def) : List Reference :=
  d.body.referredTypes.flatMap fun (role, type) => type.references.map fun (name, resolved) => ⟨role, name, resolved⟩

theorem Def.mem_references {d : Def} {r : Reference} :
    r ∈ d.references ↔ ∃ type, (r.role, type) ∈ d.body.referredTypes ∧ (r.name, r.resolved) ∈ type.references := by
  unfold Def.references
  rw [List.mem_flatMap]
  constructor
  · rintro ⟨⟨role, type⟩, htype, hr⟩
    obtain ⟨⟨name, resolved⟩, hname, rfl⟩ := List.mem_map.mp hr
    exact ⟨type, htype, hname⟩
  · rintro ⟨type, htype, hname⟩
    exact ⟨(r.role, type), htype, List.mem_map.mpr ⟨(r.name, r.resolved), hname, rfl⟩⟩

def Body.decoratorChains : Body → List (List Decorator)
  | .struct _ fields => fields.map Field.decorators
  | .message fields => fields.map Field.decorators
  | .union branches => branches.map Branch.decorators
  | .enum _ members => members.map EnumMember.decorators
  | .service methods _ => methods.map Method.decorators
  | .const _ _ => []
  | .decorator => []

/-- The chains of decorators of a definition, its own first. -/
def Def.decoratorChains (d : Def) : List (List Decorator) := d.decorators :: d.body.decoratorChains

/-! ## Places of a forest -/

def definitionAt : List Def → List Nat → Option Def
  | _, [] => none
  | defs, [i] => defs[i]?
  | defs, i :: j :: path => defs[i]?.bind fun d => definitionAt d.nestedDefs (j :: path)

def joinDotted (scope : Option Text) (name : Text) : Text :=
  match scope with
  | none => name
  | some scope => scope ++ '.' :: name

/-- `bebop__def_compute_fqn`: the names on the way, after the scope of the forest. -/
def fqnAt : Option Text → List Def → List Nat → Option Text
  | _, _, [] => none
  | scope, defs, [i] => defs[i]?.map fun d => joinDotted scope d.name
  | scope, defs, i :: j :: path =>
    defs[i]?.bind fun d => fqnAt (some (joinDotted scope d.name)) d.nestedDefs (j :: path)

/-- Whether a definition is exported, by its own visibility. -/
def isExported (visibility : Visibility) (isNested : Bool) : Bool :=
  match visibility with
  | .visExport => true
  | .visLocal => false
  | .visDefault => !isNested

/-- `bebop__def_is_accessible`: a definition and all it is nested in are exported. -/
def accessibleAt : Bool → List Def → List Nat → Bool
  | _, _, [] => false
  | isNested, defs, [i] => (defs[i]?.map fun d => isExported d.visibility isNested).getD false
  | isNested, defs, i :: j :: path =>
    (defs[i]?.map fun d => isExported d.visibility isNested && accessibleAt true d.nestedDefs (j :: path)).getD false

/-! ## Schemas -/

/-- `bebop_import_t`, after `bebop__validate_resolve_imports` has bound it. -/
structure Import where
  path : Text
  span : Span
  schema : Option Nat
  deriving DecidableEq, Repr

/-- What the parser makes sure of for each definition: its name is an identifier,
an inline branch of a union is a nested struct or message, and a decorator
definition is not decorated. -/
structure Def.Parsed (d : Def) : Prop where
  name_ne_nil : d.name ≠ []
  dot_notMem_name : '.' ∉ d.name
  inlineDef : ∀ branches, d.body = .union branches → ∀ branch ∈ branches, ∀ k, branch.inlineDef = some k →
    ∃ nested, d.nestedDefs[k]? = some nested ∧ (nested.kind = .struct ∨ nested.kind = .message)
  decorators : d.kind = .decorator → d.decorators = []

/-- `bebop_schema_t` -/
structure Schema where
  package : Option Text
  imports : List Import
  definitions : List Def
  sortedDefs : List (List Nat)
  log : SchemaLog
  log_holds : ∃ reports, log.Holds reports
  registered_nodup : sortedDefs.Nodup
  registered : ∀ path, path ∈ sortedDefs ↔ (definitionAt definitions path).isSome
  parsed : ∀ path d, definitionAt definitions path = some d → d.Parsed

namespace Schema

/-- The table of the top-level definitions: `bebop_defmap_insert` leaves a name
that is there. -/
def defTable (schema : Schema) : OrderedMap Text Nat :=
  .ofFirst (schema.definitions.mapIdx fun i d => (d.name, i))

/-- `bebop__schema_find_def` -/
def findDef (schema : Schema) (name : Text) : Option Nat := schema.defTable.lookup name

def fqn (schema : Schema) (path : List Nat) : Option Text := fqnAt schema.package schema.definitions path

/-- `bebop__schema_has_visibility`, from one schema of a result to another. -/
def hasVisibility (source : Nat) (schema : Schema) (target : Nat) : Bool :=
  source = target || schema.imports.any fun imp => imp.schema = some target

end Schema

/-- `bebop_parse_result_t` -/
structure ParseResult where
  schemas : List Schema

namespace ParseResult

/-- Every definition, in the order the schemas registered them. -/
def registered (result : ParseResult) : List DefRef :=
  (result.schemas.mapIdx fun s schema => schema.sortedDefs.map (DefRef.mk s)).flatten

def def? (result : ParseResult) (ref : DefRef) : Option Def :=
  result.schemas[ref.schema]?.bind fun schema => definitionAt schema.definitions ref.path

def fqn (result : ParseResult) (ref : DefRef) : Option Text :=
  result.schemas[ref.schema]?.bind fun schema => schema.fqn ref.path

/-- `bebop__def_is_accessible` -/
def isAccessible (result : ParseResult) (ref : DefRef) : Bool :=
  (result.schemas[ref.schema]?.map fun schema => accessibleAt false schema.definitions ref.path).getD false

/-- The table that `bebop__result_add_schema` fills: the first definition of a
fully qualified name stays. -/
def defTable (result : ParseResult) : OrderedMap Text DefRef :=
  .ofFirst (result.registered.filterMap fun ref => (result.fqn ref).map fun fqn => (fqn, ref))

/-- `bebop__result_find_def` -/
def findDef (result : ParseResult) (name : Text) : Option DefRef := result.defTable.lookup name

/-- `bebop__schema_has_visibility` -/
def hasVisibility (result : ParseResult) (source target : Nat) : Bool :=
  match result.schemas[source]? with
  | none => false
  | some schema => schema.hasVisibility source target

end ParseResult

/-! ## Facts about places -/

theorem definitionAt_cons_cons {defs : List Def} {i j : Nat} {path : List Nat} {d : Def} :
    definitionAt defs (i :: j :: path) = some d ↔
      ∃ parent, defs[i]? = some parent ∧ definitionAt parent.nestedDefs (j :: path) = some d := by
  rw [definitionAt, Option.bind_eq_some_iff]

theorem definitionAt_append_singleton {defs : List Def} {path : List Nat} {d : Def}
    (h : definitionAt defs path = some d) (k : Nat) : definitionAt defs (path ++ [k]) = d.nestedDefs[k]? := by
  induction path generalizing defs with
  | nil => cases h
  | cons i path ih =>
    cases path with
    | nil =>
      rw [definitionAt] at h
      rw [List.singleton_append, definitionAt, h, Option.bind_some, definitionAt]
    | cons j path =>
      obtain ⟨parent, hparent, hnested⟩ := definitionAt_cons_cons.mp h
      rw [List.cons_append, List.cons_append, definitionAt, hparent, Option.bind_some]
      exact ih hnested

theorem fqnAt_isSome {defs : List Def} {path : List Nat} (scope : Option Text) :
    (fqnAt scope defs path).isSome = (definitionAt defs path).isSome := by
  induction path generalizing scope defs with
  | nil => rfl
  | cons i path ih =>
    cases path with
    | nil =>
      rw [fqnAt, definitionAt, Option.isSome_map]
    | cons j path =>
      rw [fqnAt, definitionAt]
      cases defs[i]? with
      | none => rfl
      | some d => exact ih _

namespace ParseResult

variable {result : ParseResult}

theorem def?_eq {s : Nat} {schema : Schema} (hschema : result.schemas[s]? = some schema) (path : List Nat) :
    result.def? ⟨s, path⟩ = definitionAt schema.definitions path := by
  rw [def?]
  dsimp only
  rw [hschema, Option.bind_some]

theorem fqn_eq {s : Nat} {schema : Schema} (hschema : result.schemas[s]? = some schema) (path : List Nat) :
    result.fqn ⟨s, path⟩ = fqnAt schema.package schema.definitions path := by
  rw [fqn]
  dsimp only
  rw [hschema, Option.bind_some, Schema.fqn]

end ParseResult

theorem ParseResult.mem_registered {result : ParseResult} {ref : DefRef} :
    ref ∈ result.registered ↔ ∃ d, result.def? ref = some d := by
  unfold ParseResult.registered ParseResult.def?
  rw [List.mem_flatten]
  constructor
  · rintro ⟨refs, hrefs, hmem⟩
    obtain ⟨s, hs, rfl⟩ := List.mem_mapIdx.mp hrefs
    obtain ⟨path, hpath, rfl⟩ := List.mem_map.mp hmem
    have hdef := (result.schemas[s].registered path).mp hpath
    rw [List.getElem?_eq_getElem hs]
    exact Option.isSome_iff_exists.mp hdef
  · rintro ⟨d, hd⟩
    obtain ⟨schema, hschema, hdef⟩ := Option.bind_eq_some_iff.mp hd
    obtain ⟨hs, rfl⟩ := List.getElem?_eq_some_iff.mp hschema
    refine ⟨_, List.mem_mapIdx.mpr ⟨ref.schema, hs, rfl⟩, List.mem_map.mpr ⟨ref.path, ?_, rfl⟩⟩
    exact (result.schemas[ref.schema].registered ref.path).mpr (Option.isSome_iff_exists.mpr ⟨d, hdef⟩)

theorem ParseResult.nodup_registered (result : ParseResult) : result.registered.Nodup := by
  unfold ParseResult.registered
  rw [List.nodup_flatten]
  constructor
  · intro refs hrefs
    obtain ⟨s, hs, rfl⟩ := List.mem_mapIdx.mp hrefs
    exact result.schemas[s].registered_nodup.map fun _ _ h => (DefRef.mk.inj h).2
  · rw [List.pairwise_iff_getElem]
    intro s t hs ht hlt ref href href'
    rw [List.getElem_mapIdx] at href href'
    obtain ⟨path, -, rfl⟩ := List.mem_map.mp href
    obtain ⟨path', -, heq⟩ := List.mem_map.mp href'
    have hschema : t = s := (DefRef.mk.inj heq).1
    omega

theorem ParseResult.findDef_eq (result : ParseResult) (name : Text) :
    result.findDef name = result.registered.find? fun ref => result.fqn ref = some name := by
  unfold ParseResult.findDef ParseResult.defTable
  rw [OrderedMap.lookup_ofFirst]
  induction result.registered with
  | nil => rfl
  | cons ref refs ih =>
    rw [List.filterMap_cons, List.find?_cons]
    cases hfqn : result.fqn ref with
    | none => exact ih
    | some fqn =>
      rw [Option.map_some]
      dsimp only
      rw [List.find?_cons]
      by_cases hname : fqn = name
      · rw [decide_eq_true hname, decide_eq_true (congrArg some hname)]
        rfl
      · rw [decide_eq_false hname, decide_eq_false (fun h => hname (Option.some.inj h))]
        exact ih

end Bebop.Compiler
