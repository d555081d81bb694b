import Bebop.Compiler.Schema

/-!
# Bebop — what a type name means

`bebop__result_resolve_type` of `bebop_result.c`: a name is looked up in the definitions
around the place where it stands, in the same schema, in the imports in their order, and as
a fully qualified name; a dotted name is followed from what its first part means. Then
`bebop__validate_resolve_type` of `bebop_validate.c`.
-/

namespace Bebop.Compiler

/-! ## `bebop__result_resolve_type` -/

/-- The nested definition of a name in the innermost definition around a place. -/
def scopeSearch (name : Text) : List Def → List Nat → Option (List Nat)
  | _, [] => none
  | defs, i :: path =>
    defs[i]?.bind fun d =>
      match scopeSearch name d.nestedDefs path with
      | some found => some (i :: found)
      | none => (d.findNested name).map fun k => [i, k]

namespace ParseResult

variable (result : ParseResult)

/-- The definitions that the imports have for a name, in the order of the imports. -/
def importsDefining (schema : Schema) (name : Text) : List DefRef :=
  schema.imports.filterMap fun imp =>
    imp.schema.bind fun s =>
      result.schemas[s]?.bind fun target => (target.findDef name).map fun i => ⟨s, [i]⟩

/-- A fully qualified name, of a definition that the schema may see. -/
def findVisible (s : Nat) (name : Text) : Option DefRef :=
  (result.findDef name).filter fun found => result.hasVisibility s found.schema

/-- The last resort: a name in the schema's own package, then a name as it is. -/
def findQualified (s : Nat) (schema : Schema) (name : Text) : Option DefRef :=
  match schema.package with
  | none => result.findVisible s name
  | some package => (result.findVisible s (joinDotted (some package) name)).or (result.findVisible s name)

/-- A name without dots, and the definition it could mean as well. -/
def resolveSimple (s : Nat) (context : Option (List Nat)) (name : Text) : Option DefRef × Option DefRef :=
  match result.schemas[s]? with
  | none => (none, none)
  | some schema =>
    if name = [] then (none, none)
    else
      match context.bind (scopeSearch name schema.definitions) with
      | some path => (some ⟨s, path⟩, none)
      | none =>
        match schema.findDef name with
        | some i => (some ⟨s, [i]⟩, none)
        | none =>
          match result.importsDefining schema name with
          | found :: others => (some found, others.head?)
          | [] => (result.findQualified s schema name, none)

/-- `bebop__find_nested_by_name` -/
def findNestedByName (parent : DefRef) (name : Text) : Option DefRef :=
  if name = [] then none
  else
    (result.def? parent).bind fun d =>
      (d.findNested name).map fun k => ⟨parent.schema, parent.path ++ [k]⟩

/-- The loop over the parts after the first dot. -/
def followParts : DefRef → List Text → Option DefRef
  | ref, [] => some ref
  | ref, [part] => if part = [] then some ref else result.findNestedByName ref part
  | ref, part :: part' :: parts => (result.findNestedByName ref part).bind fun ref => followParts ref (part' :: parts)

/-- `bebop__result_resolve_type` -/
def resolveType (s : Nat) (context : Option (List Nat)) (name : Text) : Option DefRef × Option DefRef :=
  match name.span (· ≠ '.') with
  | (_, []) => result.resolveSimple s context name
  | (first, _ :: remaining) =>
    match (result.resolveSimple s context first).1 with
    | none => (result.findVisible s name, none)
    | some ref => (result.followParts ref (remaining.splitOn '.'), none)

end ParseResult

/-! ## `bebop__validate_resolve_type` -/

/-- `bebop__resolve_kind_t` -/
inductive ResolveKind
  | fieldType
  | mixinType
  deriving DecidableEq, Repr

def Role.resolveKind : Role → ResolveKind
  | .mixin => .mixinType
  | _ => .fieldType

/-- `BEBOP_MAX_TYPE_DEPTH` -/
def maxTypeDepth : Nat := 64

def quote (name : Text) : String := "'" ++ String.ofList name ++ "'"

def errorAt (code : Nat) (span : Span) (message : String) (hint : Option String) : Report :=
  ⟨⟨.error, code, span⟩, message, hint⟩

structure Visit where
  type : Ty
  reports : List Report
  ok : Bool
  deriving DecidableEq, Repr

namespace ParseResult

variable (result : ParseResult)

/-- A field type is no service or decorator, and a mixin no decorator. -/
def badKind (kind : ResolveKind) (target : DefKind) : Bool :=
  target = .decorator || (kind = .fieldType && target = .service)

/-- An inline branch of a union is for its siblings, unless it is exported. -/
def unionInternal (context : DefRef) (target : DefRef) (visibility : Visibility) : Bool :=
  match result.def? ⟨target.schema, target.path.dropLast⟩ with
  | none => false
  | some parent =>
    parent.kind = .union &&
      !((context.schema = target.schema && context.path.dropLast = target.path.dropLast)) &&
        visibility ≠ .visExport

def unknownTypeMessage (context : DefRef) (name : Text) : String :=
  "Unknown type " ++ quote name ++ " referenced in " ++ quote ((result.def? context).map Def.name |>.getD [])

def unknownTypeHint (name : Text) : Option String :=
  if name = "date".toList then some "'date' was removed; use 'timestamp' or 'duration' instead" else none

def disambiguateHint (sigil : String) (name : Text) (ref other : DefRef) : String :=
  let written (ref : DefRef) := "'" ++ sigil ++ String.ofList ((result.fqn ref).getD name) ++ "'"
  "Use " ++ written ref ++ " or " ++ written other ++ " to disambiguate"

def visitDefined (context : DefRef) (kind : ResolveKind) (span : Span) (name : Text) (old : Option DefRef) :
    Visit :=
  match result.resolveType context.schema (some context.path) name with
  | (none, _) =>
    ⟨.defined span name old,
      [errorAt 105 span (result.unknownTypeMessage context name) (unknownTypeHint name)], false⟩
  | (some ref, some other) =>
    ⟨.defined span name old,
      [errorAt 147 span (quote name ++ " is defined in multiple imported schemas")
        (some (result.disambiguateHint "" name ref other))], false⟩
  | (some target, none) =>
    match result.def? target with
    | none => ⟨.defined span name (some target), [], true⟩
    | some d =>
      if badKind kind d.kind then
        ⟨.defined span name (some target),
          [errorAt 103 span "Cannot use service or decorator as a field type" none], false⟩
      else if result.unionInternal context target d.visibility then
        ⟨.defined span name (some target),
          [errorAt 103 span ("Cannot reference union-internal type " ++ quote name ++ " from outside the union")
            none], false⟩
      else ⟨.defined span name (some target), [], true⟩

/-- `bebop__validate_resolve_type`. The stack of the walk never fills up: a level is at most 64
deep. The key of a map comes before its value, and the first failure ends the walk. -/
def visitType (context : DefRef) (kind : ResolveKind) : Nat → Ty → Visit
  | depth, type =>
    if depth ≥ maxTypeDepth then
      ⟨type, [errorAt 103 type.span "Type nesting depth exceeds maximum limit" none], false⟩
    else
      match type with
      | .scalar span scalar => ⟨.scalar span scalar, [], true⟩
      | .array span element =>
        let visit := visitType context kind (depth + 1) element
        ⟨.array span visit.type, visit.reports, visit.ok⟩
      | .fixedArray span element size =>
        let visit := visitType context kind (depth + 1) element
        ⟨.fixedArray span visit.type size, visit.reports, visit.ok⟩
      | .map span key value =>
        let visitKey := visitType context kind (depth + 1) key
        if visitKey.ok then
          let visitValue := visitType context kind (depth + 1) value
          ⟨.map span visitKey.type visitValue.type, visitKey.reports ++ visitValue.reports, visitValue.ok⟩
        else ⟨.map span visitKey.type value, visitKey.reports, false⟩
      | .defined span name old => result.visitDefined context kind span name old

end ParseResult

end Bebop.Compiler
