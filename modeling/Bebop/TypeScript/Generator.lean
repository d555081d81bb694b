import Bebop.Compiler.DescriptorNames
import Mathlib.Data.List.DropRight

/-!
# Bebop — the TypeScript generator
-/

/-!
## The names in generated TypeScript

The functions of `generator.ts` that make the names of a generated module from those of a
schema. A name is a text of the schema, whose names have ASCII letters only.
-/

namespace Bebop.TypeScript

open Bebop.Compiler

/-- `reservedIdentifiers` -/
def reservedIdentifiers : List Text :=
  ["break", "case", "catch", "class", "const", "continue", "debugger", "default", "delete", "do", "else", "enum",
    "export", "extends", "false", "finally", "for", "function", "if", "import", "in", "instanceof", "new", "null",
    "package", "return", "super", "switch", "this", "throw", "true", "try", "typeof", "undefined", "var", "void",
    "while", "with", "yield", "abstract", "any", "as", "asserts", "async", "await", "bigint", "boolean",
    "constructor", "declare", "from", "get", "infer", "is", "keyof", "let", "module", "namespace", "never", "number",
    "object", "of", "readonly", "require", "set", "static", "string", "symbol", "type", "unknown", "implements",
    "interface", "private", "protected", "public"].map String.toList

/-- `reservedClientMembers` -/
def reservedClientMembers : List Text := ["batch", "channel", "futures"].map String.toList

/-- `[$A-Z_a-z]` -/
def isIdentifierStart (c : Char) : Bool := c.isAlpha || c = '_' || c = '$'

/-- `[A-Za-z0-9_$]` -/
def isIdentifierPart (c : Char) : Bool := c.isAlphanum || c = '_' || c = '$'

/-- `identifier` -/
def identifier (value : Text) : Text :=
  let normalized := value.map fun c => if isIdentifierPart c then c else '_'
  let withStart := if normalized.head?.any isIdentifierStart then normalized else '_' :: normalized
  if withStart ∈ reservedIdentifiers then withStart ++ ['_'] else withStart

/-- `exportedTypeName`. The names on the way from the package to the definition are joined;
without a package, or for a definition outside it, only the last one is left. -/
def exportedTypeName (d : DefinitionDescriptor) (schema : SchemaDescriptor) : Text :=
  match schema.package with
  | none => identifier d.name
  | some package =>
    if (package ++ ['.']).isPrefixOf d.fqn then
      ['_'].intercalate (((d.fqn.drop (package.length + 1)).splitOn '.').map identifier)
    else identifier d.name

/-- The replacement of `_x` by `X` in `fieldName`. -/
def camel : Text → Text
  | [] => []
  | '_' :: c :: rest => if c.isAlphanum then c.toUpper :: camel rest else '_' :: camel (c :: rest)
  | c :: rest => c :: camel rest

/-- `fieldName` -/
def fieldName (value : Text) : Text :=
  let isUpper (c : Char) : Bool := c.isUpper || c.isDigit || c = '_'
  let normalized := if value ≠ [] ∧ value.all isUpper then value.map Char.toLower else value
  match camel normalized with
  | [] => []
  | c :: rest => c.toLower :: rest

/-- `serviceMethodName` -/
def serviceMethodName (value : Text) : Text :=
  let name := identifier (fieldName value)
  if name ∈ reservedClientMembers then name ++ ['_'] else name

/-- `baseNameWithoutExtension`: what is behind the last slash, up to its last dot. -/
def baseNameWithoutExtension (path : Text) : Text :=
  let last := path.rtakeWhile fun c => c ≠ '/' && c ≠ '\\'
  match last.rdropWhile (· ≠ '.') with
  | [] => last
  | upToDot => upToDot.dropLast

/-- `outputFileName`, of a schema with a path. -/
def outputFileName (path : String) : Text := baseNameWithoutExtension path.toList ++ ".bb.ts".toList

example : identifier "class".toList = "class_".toList ∧ identifier "a-b".toList = "a_b".toList := by decide

example : outputFileName "a/b.x/user.v1.bop" = "user.v1.bb.ts".toList := by decide

example : fieldName "FOO_BAR".toList = "fooBar".toList ∧ fieldName "foo_bar".toList = "fooBar".toList := by decide

end Bebop.TypeScript

/-!
## The TypeScript generator

`generate` of `generator.ts`. Of a file there is its name, and of each declaration what it
exports; the rest of the text is left out: writing it looks the same types up once more, so
it fails on nothing that has not failed before. Fields that the compiler always sets are
not optional here.
-/

namespace Bebop.TypeScript

open Bebop.Compiler

/-- The message of a `CodegenError` -/
abbrev CodegenError := String

/-- `CodeGeneratorRequest` -/
structure CodeGeneratorRequest where
  filesToGenerate : Option (List String)
  schemas : Option (List SchemaDescriptor)
  hostOptions : OrderedMap String String

/-- `DefinitionInfo`, with the path of its schema. -/
structure DefinitionInfo where
  path : String
  typeName : Text
  kind : DefKind
  enumBaseType : Option Scalar
  deriving DecidableEq, Repr

/-- `GeneratorState` -/
structure GeneratorState where
  definitions : OrderedMap Text DefinitionInfo

/-- The names that are exported, a type and a value of one name together. -/
structure Declaration where
  fqn : Text
  exports : List Text
  deriving DecidableEq, Repr

/-- `GeneratedFile` -/
structure GeneratedFile where
  name : Text
  declarations : List Declaration
  deriving DecidableEq, Repr

/-- `required` -/
def required {α : Type} (value : Option α) (message : String) : Except CodegenError α :=
  match value with
  | none => throw message
  | some value => pure value

/-- A name that the loop of `requireUniqueNames` comes to. -/
def addUniqueName (context : String) (seen : List Text) (name : Text) : Except CodegenError (List Text) :=
  if name ∈ seen then throw (context ++ " name collision after TypeScript normalization: " ++ String.ofList name)
  else pure (name :: seen)

/-- `requireUniqueNames` -/
def requireUniqueNames (names : List Text) (context : String) : Except CodegenError Unit := do
  let _ ← names.foldlM (addUniqueName context) []

/-! ## Options -/

/-- What `String.prototype.trim` removes. -/
def isWhiteSpace (c : Char) : Bool :=
  c.toNat ∈ [0x9, 0xa, 0xb, 0xc, 0xd, 0x20, 0xa0, 0x1680, 0x2028, 0x2029, 0x202f, 0x205f, 0x3000, 0xfeff] ||
    (0x2000 ≤ c.toNat && c.toNat ≤ 0x200a)

def trim (value : Text) : Text := (value.dropWhile isWhiteSpace).rdropWhile isWhiteSpace

inductive RuntimeImport
  | module (module : Text)
  | source
  deriving DecidableEq, Repr

/-- `parseGeneratorOptions` -/
def parseGeneratorOptions (hostOptions : OrderedMap String String) : Except CodegenError RuntimeImport :=
  match hostOptions.lookup "runtime-import" with
  | none => pure (.module "@bebop/runtime".toList)
  | some option =>
    let value := trim option.toList
    if value.length = 0 then throw "runtime-import must not be empty"
    else pure (if value = "source".toList then .source else .module value)

/-! ## `buildState` -/

mutual

/-- The order of the stack of `collectDefinition`. -/
def preorder : DefinitionDescriptor → List DefinitionDescriptor
  | ⟨kind, visibility, name, fqn, decorators, nested, body⟩ =>
    ⟨kind, visibility, name, fqn, decorators, nested, body⟩ :: preorders nested

def preorders : List DefinitionDescriptor → List DefinitionDescriptor
  | [] => []
  | d :: ds => preorder d ++ preorders ds

end

/-- A definition that `collectDefinition` takes from its stack. -/
def collectDefinition (schema : SchemaDescriptor) (path : String) (definitions : OrderedMap Text DefinitionInfo)
    (current : DefinitionDescriptor) : Except CodegenError (OrderedMap Text DefinitionInfo) :=
  if current.fqn ∈ definitions then
    throw ("definition " ++ String.ofList current.fqn ++ " appears more than once")
  else
    let typeName := exportedTypeName current schema
    match current.kind, current.body with
    | .enum, .enumDef baseType _ _ => pure (definitions.set current.fqn ⟨path, typeName, .enum, some baseType⟩)
    | .enum, _ => throw ("enum " ++ String.ofList typeName ++ " missing body")
    | kind, _ => pure (definitions.set current.fqn ⟨path, typeName, kind, none⟩)

def collectSchema (definitions : OrderedMap Text DefinitionInfo) (schema : SchemaDescriptor) :
    Except CodegenError (OrderedMap Text DefinitionInfo) := do
  let path ← required schema.path "schema missing path"
  (preorders schema.definitions).foldlM (collectDefinition schema path) definitions

/-- `buildState` -/
def buildState (schemas : List SchemaDescriptor) : Except CodegenError GeneratorState := do
  let definitions ← schemas.foldlM collectSchema ∅
  return ⟨definitions⟩

/-! ## Types -/

/-- `definedTypeName` -/
def definedTypeName (fqn : Text) (state : GeneratorState) : Except CodegenError Text :=
  match state.definitions.lookup fqn with
  | some info => pure info.typeName
  | none =>
    if fqn = "bebop.Any".toList then pure "BebopAny".toList
    else if fqn = "bebop.Empty".toList then pure "BebopEmpty".toList
    else throw ("unknown type " ++ String.ofList fqn)

/-- The scalars in `typeName` -/
def scalarTypeName : Scalar → Text
  | .bool => "boolean".toList
  | .byte | .int8 | .int16 | .uint16 | .int32 | .uint32 | .float16 | .float32 | .float64 => "number".toList
  | .int64 | .uint64 | .int128 | .uint128 => "bigint".toList
  | .bfloat16 => "BFloat16".toList
  | .string => "string".toList
  | .uuid => "BebopUUID".toList
  | .timestamp => "BebopTimestamp".toList
  | .duration => "BebopDuration".toList

/-- The elements in `arrayType` that have an array type of their own. -/
def typedArray : TypeDescriptor → Option Text
  | .scalar .byte => some "Uint8Array".toList
  | .scalar .int8 => some "Int8Array".toList
  | .scalar .int16 => some "Int16Array".toList
  | .scalar .uint16 => some "Uint16Array".toList
  | .scalar .int32 => some "Int32Array".toList
  | .scalar .uint32 => some "Uint32Array".toList
  | .scalar .int64 => some "BigInt64Array".toList
  | .scalar .uint64 => some "BigUint64Array".toList
  | .scalar .float16 => some "Float16Array".toList
  | .scalar .float32 => some "Float32Array".toList
  | .scalar .float64 => some "Float64Array".toList
  | .scalar .bfloat16 => some "BFloat16Array".toList
  | _ => none

/-- `arrayType`, with the type of the element for when it is needed. -/
def arrayType (element : TypeDescriptor) (elementType : Except CodegenError Text) : Except CodegenError Text :=
  match typedArray element with
  | some name => pure name
  | none => do
    let elementType ← elementType
    return if "readonly ".toList.isPrefixOf elementType then "readonly (".toList ++ elementType ++ ")[]".toList
      else "readonly ".toList ++ elementType ++ "[]".toList

/-- `typeName` -/
def typeName (state : GeneratorState) : TypeDescriptor → Except CodegenError Text
  | .scalar kind => pure (scalarTypeName kind)
  | .array element => arrayType element (typeName state element)
  | .fixedArray element _ => arrayType element (typeName state element)
  | .map key value => do
    let key ← typeName state key
    let value ← typeName state value
    return "ReadonlyMap<".toList ++ key ++ ", ".toList ++ value ++ ">".toList
  | .defined fqn => definedTypeName fqn state

/-! ## Definitions -/

/-- `FieldInfo` -/
structure FieldInfo where
  originalName : Text
  name : Text
  typeName : Text
  index : Nat
  deriving DecidableEq, Repr

variable (state : GeneratorState)

/-- `fieldInfo` -/
def fieldInfo (kind : DefKind) (field : FieldDescriptor) : Except CodegenError FieldInfo := do
  let type ← typeName state field.type
  return ⟨field.name, fieldName field.name, type, if kind = .message then field.index else 0⟩

/-- The loop over the sorted fields of a message, with the field before. -/
def checkIndexes (name : Text) : Option FieldInfo → List FieldInfo → Except CodegenError Unit
  | _, [] => pure ()
  | previous, field :: fields =>
    if field.index < 1 ∨ field.index > 255 then
      throw ("message " ++ String.ofList name ++ " field " ++ String.ofList field.originalName ++ " has invalid index " ++
        toString field.index)
    else if previous.map FieldInfo.index = some field.index then
      throw ("message " ++ String.ofList name ++ " has duplicate field index " ++ toString field.index)
    else checkIndexes name (some field) fields

variable (d : DefinitionDescriptor)

/-- `recordFields` -/
def recordFields : Except CodegenError (List FieldDescriptor) :=
  match d.kind, d.body with
  | .struct, .structDef _ fields => pure fields
  | .message, .messageDef fields => pure fields
  | .message, _ => throw ("message " ++ String.ofList d.name ++ " missing body")
  | _, _ => throw ("struct " ++ String.ofList d.name ++ " missing body")

def viewSuffix : Text := "View".toList
def reflectionSuffix : Text := "Reflection".toList
def handlerSuffix : Text := "Handler".toList
def batchSuffix : Text := "Batch".toList
def futuresSuffix : Text := "Futures".toList
def clientSuffix : Text := "Client".toList

/-- `generateEnum` -/
def generateEnum (schema : SchemaDescriptor) : Except CodegenError Declaration :=
  let name := exportedTypeName d schema
  match d.body with
  | .enumDef _ _ _ => pure ⟨d.fqn, [name, name ++ reflectionSuffix]⟩
  | _ => throw ("enum " ++ String.ofList name ++ " missing body")

/-- `generateRecord`; `kind` is that of the definition. -/
def generateRecord (schema : SchemaDescriptor) (state : GeneratorState) :
    Except CodegenError Declaration := do
  let name := exportedTypeName d schema
  let kind := if d.kind = .message then "message" else "struct"
  let descriptors ← recordFields d
  let unsorted ← descriptors.mapM (fieldInfo state d.kind)
  let fields := if d.kind = .message then unsorted.insertionSort fun left right => left.index ≤ right.index else unsorted
  if d.kind = .message then checkIndexes name none fields
  requireUniqueNames (fields.map FieldInfo.name) (kind ++ " " ++ String.ofList name ++ " field")
  return ⟨d.fqn, [name, name ++ viewSuffix]⟩

/-- `unionBranchInfo`: the name of the case, and the type. -/
def unionBranchInfo (unionName : Text) (branch : UnionBranchDescriptor) :
    Except CodegenError (Text × Text) := do
  let fqn ← required (branch.typeRefFqn.or branch.inlineFqn) ("union " ++ String.ofList unionName ++ " branch missing type")
  -- the last part of the name, or all of it
  let originalName := branch.name.getD (fqn.rtakeWhile (· ≠ '.'))
  let type ← definedTypeName fqn state
  return (fieldName originalName, type)

/-- `generateUnion` -/
def generateUnion (schema : SchemaDescriptor) (state : GeneratorState) :
    Except CodegenError Declaration := do
  let name := exportedTypeName d schema
  match d.body with
  | .unionDef branches =>
    let infos ← branches.mapM (unionBranchInfo state name)
    requireUniqueNames (infos.map Prod.fst) ("union " ++ String.ofList name ++ " branch")
    return ⟨d.fqn, [name, name ++ viewSuffix]⟩
  | _ => throw ("union " ++ String.ofList name ++ " missing body")

/-- `generateConst`. A constant is not named by its way from the package. -/
def generateConst (state : GeneratorState) : Except CodegenError Declaration := do
  let name := identifier d.name
  match d.body with
  | .constDef type =>
    let _ ← typeName state type
    return ⟨d.fqn, [name]⟩
  | _ => throw ("const " ++ String.ofList name ++ " missing body")

/-- `serviceTypeInfo` -/
def serviceTypeInfo : TypeDescriptor → Except CodegenError Text
  | .defined fqn => definedTypeName fqn state
  | _ => throw "service request and response types must be defined Bebop records"

/-- `ServiceMethodInfo`: the name, the types and the kind of a method. -/
structure ServiceMethodInfo where
  name : Text
  methodType : MethodType
  requestType : Text
  responseType : Text
  deriving DecidableEq, Repr

/-- `serviceMethodInfo` -/
def serviceMethodInfo (method : MethodDescriptor) : Except CodegenError ServiceMethodInfo := do
  let request ← serviceTypeInfo state method.requestType
  let response ← serviceTypeInfo state method.responseType
  return ⟨serviceMethodName method.name, method.methodType, request, response⟩

def isBatchMethod (methodType : MethodType) : Bool := methodType = .unary || methodType = .serverStream

def isFutureMethod (methodType : MethodType) : Bool := methodType = .unary

/-- `generateService` -/
def generateService (schema : SchemaDescriptor) (state : GeneratorState) :
    Except CodegenError Declaration := do
  let name := exportedTypeName d schema
  match d.body with
  | .serviceDef descriptors =>
    let methods ← descriptors.mapM (serviceMethodInfo state)
    requireUniqueNames (methods.map ServiceMethodInfo.name) ("service " ++ String.ofList name ++ " method")
    let batchMethods := methods.filter fun method => isBatchMethod method.methodType
    let futureMethods := methods.filter fun method => isFutureMethod method.methodType
    return ⟨d.fqn, [name ++ handlerSuffix, name] ++ (if batchMethods.length > 0 then [name ++ batchSuffix] else []) ++
      (if futureMethods.length > 0 then [name ++ futuresSuffix] else []) ++ [name ++ clientSuffix]⟩
  | _ => throw ("service " ++ String.ofList name ++ " missing body")

mutual

/-- The order in which `generateDefinition` comes to definitions again. -/
def postorder : DefinitionDescriptor → List DefinitionDescriptor
  | ⟨kind, visibility, name, fqn, decorators, nested, body⟩ =>
    postorders nested ++ [⟨kind, visibility, name, fqn, decorators, nested, body⟩]

def postorders : List DefinitionDescriptor → List DefinitionDescriptor
  | [] => []
  | d :: ds => postorder d ++ postorders ds

end

/-- What `generateDefinition` adds, which is nothing for a decorator. -/
def generateDefinition (schema : SchemaDescriptor) (state : GeneratorState) (d : DefinitionDescriptor) :
    Except CodegenError (List Declaration) :=
  match d.kind with
  | .enum => return [← generateEnum d schema]
  | .struct | .message => return [← generateRecord d schema state]
  | .union => return [← generateUnion d schema state]
  | .const => return [← generateConst d state]
  | .service => return [← generateService d schema state]
  | .decorator => return []

/-- `generateSchema` -/
def generateSchema (schema : SchemaDescriptor) (state : GeneratorState) : Except CodegenError (List Declaration) := do
  let declarations ← (postorders schema.definitions).mapM (generateDefinition schema state)
  return declarations.flatten

/-! ## `generate` -/

/-- The file of a schema, with its path, if it is asked for. -/
def generateRequested (filesToGenerate : List String) (schema : SchemaDescriptor) :
    Except CodegenError (List (String × GeneratedFile)) := do
  let path ← required schema.path "schema missing path"
  if path ∈ filesToGenerate then
    let declarations ← generateSchema schema state
    return [(path, ⟨outputFileName path, declarations⟩)]
  else return []

/-- `generate` -/
def generate (request : CodeGeneratorRequest) : Except CodegenError (List GeneratedFile) := do
  let filesToGenerate ← required request.filesToGenerate "request missing filesToGenerate"
  let schemas ← required request.schemas "request missing schemas"
  let state ← buildState schemas
  let _ ← parseGeneratorOptions request.hostOptions
  if ¬filesToGenerate.Nodup then throw "filesToGenerate contains duplicate paths"
  let files ← schemas.mapM (generateRequested state filesToGenerate)
  let generated := files.flatten.map Prod.fst
  filesToGenerate.forM fun path =>
    if path ∉ generated then throw ("requested schema not found: " ++ path) else pure ()
  return files.flatten.map Prod.snd

end Bebop.TypeScript
