import Bebop.Lib.Occurrences
import Bebop.Swift.NamingPolicy

/-!
# Bebop — insertion points in generated Swift

`SwiftGenerator.swift`, with what the declarations put around their insertion points. A
text is a list of lines. The lines of a declaration that have no insertion point are given
(`DeclarationCode`): a type that cannot be written is an error among them. Fields that the
compiler always sets are not optional here.
-/

namespace Bebop.Swift

open Bebop.Compiler Occurrences

/-- The message of a `CodegenError` -/
abbrev CodegenError := String

/-- `ServiceGenMode` -/
inductive ServiceGenMode where
  | none
  | client
  | server
  | both
  deriving DecidableEq, Repr

/-- `GeneratorOptions`; the visibility is part of the lines that are given. -/
structure GeneratorOptions where
  services : ServiceGenMode

/-! ## Insertion points -/

inductive PointKind where
  | decodeStart
  | decodeSwitch
  | decodeEnd
  | encodeStart
  | encodeSwitch
  | encodeEnd
  | structScope
  | messageScope
  | unionScope
  | enumScope
  | serviceScope
  deriving DecidableEq, Repr

def PointKind.text : PointKind → Text
  | .decodeStart => "decode_start".toList
  | .decodeSwitch => "decode_switch".toList
  | .decodeEnd => "decode_end".toList
  | .encodeStart => "encode_start".toList
  | .encodeSwitch => "encode_switch".toList
  | .encodeEnd => "encode_end".toList
  | .structScope => "struct_scope".toList
  | .messageScope => "message_scope".toList
  | .unionScope => "union_scope".toList
  | .enumScope => "enum_scope".toList
  | .serviceScope => "service_scope".toList

inductive InsertionPoint where
  | imports
  | eof
  /-- a point in the declaration of a definition, by the definition's own name -/
  | scope (kind : PointKind) (defName : Text)
  deriving DecidableEq, Repr

def InsertionPoint.text : InsertionPoint → Text
  | .imports => "imports".toList
  | .eof => "eof".toList
  | .scope kind defName => kind.text ++ ':' :: defName

def opening : Text := "// @@bebop_insertion_point(".toList

def marker (point : InsertionPoint) : Text := opening ++ point.text ++ [')']

/-! ## Lines -/

inductive Line where
  /-- the comment of an insertion point behind some blanks -/
  | point (pad : Nat) (point : InsertionPoint)
  | code (text : Text)

def Line.text : Line → Text
  | .point pad p => List.replicate pad ' ' ++ marker p
  | .code text => text

abbrev Lines := List Line

def text (lines : Lines) : Text := ['\n'].intercalate (lines.map Line.text)

def points (lines : Lines) : List InsertionPoint :=
  lines.filterMap fun line => match line with
    | .point _ p => some p
    | .code _ => none

/-- A turn of `indent` -/
def indentLine : Line → Line
  | .point pad p => .point (4 + pad) p
  | .code text => .code (if text = [] then [] else "    ".toList ++ text)

def indent (lines : Lines) : Lines := lines.map indentLine

def code (texts : List Text) : Lines := texts.map .code

def point (kind : PointKind) (defName : Text) : Lines := [.point 0 (.scope kind defName)]

/-- `"\(head) {\n\(indented body)\n}"`; `head` ends with the brace. -/
def block (head : List Text) (body : Lines) : Lines := code head ++ indent body ++ code [['}']]

/-- `joined(separator: "\n\n")` -/
def paragraphs (parts : List Lines) : Lines := (code [[]]).intercalate parts

/-! ## Declarations -/

/-- A struct or a message: `head` up to the brace, what is before `decode`, and so on. -/
structure RecordCode where
  head : List Text
  members : List (List Text)
  decodeHead : List Text
  reads : List Text
  returned : List Text
  encodeHead : List Text
  writes : List Text
  others : List (List Text)

structure UnionCode where
  head : List Text
  members : List (List Text)
  decodeHead : List Text
  decodeCases : List Text
  decodeDefault : List Text
  encodeHead : List Text
  encodeCases : List Text
  encodeDefault : List Text
  others : List (List Text)

structure EnumCode where
  head : List Text
  members : List (List Text)

/-- The lines of the enum of a service, and the declarations behind it. -/
structure ServiceCode where
  head : List Text
  members : List Text
  others : List (List Text)

/-- The lines that are given, for each kind of definition. -/
structure DeclarationCode where
  notice : SchemaDescriptor → Except CodegenError (List Text)
  record : DefinitionDescriptor → Except CodegenError RecordCode
  union : DefinitionDescriptor → Except CodegenError UnionCode
  enum : DefinitionDescriptor → Except CodegenError EnumCode
  service : DefinitionDescriptor → Except CodegenError ServiceCode
  const : DefinitionDescriptor → Except CodegenError (List Text)

/-- The body of a type: its parts, the nested declarations, and the point of its scope. -/
def typeDeclaration (head : List Text) (members : List Lines) (nested : List Lines) (scope : PointKind)
    (defName : Text) : Lines :=
  code head ++ paragraphs ((members ++ nested ++ [point scope defName]).map indent) ++ code [['}']]

def encodeMethod (c : RecordCode) (defName : Text) : Lines :=
  block c.encodeHead (point .encodeStart defName ++ code c.writes ++ point .encodeEnd defName)

/-- `GenerateStruct.generate` -/
def generateStruct (c : RecordCode) (defName : Text) (nested : List Lines) : Lines :=
  typeDeclaration c.head
    (c.members.map code ++
      [block c.decodeHead (point .decodeStart defName ++ code c.reads ++ point .decodeEnd defName ++ code c.returned),
        encodeMethod c defName] ++ c.others.map code)
    nested .structScope defName

def readMessageHead : Text := "return try reader.readMessage \x7b withField in".toList

/-- `GenerateMessage.generate` -/
def generateMessage (c : RecordCode) (defName : Text) (nested : List Lines) : Lines :=
  typeDeclaration c.head
    (c.members.map code ++
      [block c.decodeHead (block [readMessageHead]
          (point .decodeStart defName ++ code c.reads ++ point .decodeEnd defName ++ code c.returned)),
        encodeMethod c defName] ++ c.others.map code)
    nested .messageScope defName

def returnResult : Text := "return result".toList

/-- `GenerateUnion.generate` -/
def generateUnion (c : UnionCode) (defName : Text) (nested : List Lines) : Lines :=
  typeDeclaration c.head
    (c.members.map code ++
      [block c.decodeHead (point .decodeStart defName ++ code c.decodeCases ++ point .decodeSwitch defName ++
          code c.decodeDefault ++ point .decodeEnd defName ++ code [returnResult]),
        block c.encodeHead (point .encodeStart defName ++ code c.encodeCases ++ point .encodeSwitch defName ++
          code c.encodeDefault ++ point .encodeEnd defName)] ++ c.others.map code)
    nested .unionScope defName

/-- `GenerateEnum.generate` -/
def generateEnum (c : EnumCode) (defName : Text) : Lines :=
  typeDeclaration c.head (c.members.map code) [] .enumScope defName

/-- `GenerateService.generate`, of a service that is generated. -/
def generateService (c : ServiceCode) (defName : Text) : List Lines :=
  block c.head (code c.members ++ point .serviceScope defName) :: c.others.map code

/-- Whether a service is generated: the options are for it, and it has methods. -/
def isGenerated (options : GeneratorOptions) (body : BodyDescriptor) : Bool :=
  match body with
  | .serviceDef methods => options.services ≠ .none && methods ≠ []
  | _ => false

/-- `wellKnownFQNs` -/
def wellKnownFQNs : List Text := ["bebop.Any".toList, "bebop.Empty".toList, "bebop.TYPE_URL_PREFIX".toList]

mutual

/-- `generateDefinition` -/
def generateDefinition (options : GeneratorOptions) (lines : DeclarationCode) :
    DefinitionDescriptor → Except CodegenError (List Lines)
  | ⟨kind, visibility, name, fqn, decorators, nested, body⟩ =>
    if fqn ∈ wellKnownFQNs then return []
    else do
      let declarations ← generateDefinitions options lines nested
      let d : DefinitionDescriptor := ⟨kind, visibility, name, fqn, decorators, nested, body⟩
      match kind with
      | .enum => return [generateEnum (← lines.enum d) name]
      | .struct => return [generateStruct (← lines.record d) name declarations]
      | .message => return [generateMessage (← lines.record d) name declarations]
      | .union => return [generateUnion (← lines.union d) name declarations]
      | .const => return [code (← lines.const d)]
      | .service => if isGenerated options body then return generateService (← lines.service d) name else return []
      | .decorator => return []

def generateDefinitions (options : GeneratorOptions) (lines : DeclarationCode) :
    List DefinitionDescriptor → Except CodegenError (List Lines)
  | [] => return []
  | d :: ds => do
    let declarations ← generateDefinition options lines d
    let others ← generateDefinitions options lines ds
    return declarations ++ others

end

mutual

/-- A turn of `validateDefinitionNames`, with the names so far. -/
def validateDefinition (options : GeneratorOptions) (scope : Text) (names : List Text) :
    DefinitionDescriptor → Except CodegenError (List Text)
  | ⟨kind, _, name, fqn, _, nested, _⟩ =>
    if fqn ∈ wellKnownFQNs then return names
    else if kind ≠ .decorator ∧ ¬(kind = .service ∧ options.services = .none) then
      let generatedName := if kind = .const then NamingPolicy.fieldName name else NamingPolicy.typeName name
      if generatedName ∈ names then
        throw (String.ofList scope ++ " contains multiple declarations named '" ++ String.ofList generatedName ++
          "' after Swift name conversion")
      else do
        validateDefinitionNames options (scope ++ '.' :: name) [] nested
        return generatedName :: names
    else do
      validateDefinitionNames options (scope ++ '.' :: name) [] nested
      return names

/-- `validateDefinitionNames` -/
def validateDefinitionNames (options : GeneratorOptions) (scope : Text) (names : List Text) :
    List DefinitionDescriptor → Except CodegenError Unit
  | [] => return ()
  | d :: ds => do
    let names ← validateDefinition options scope names d
    validateDefinitionNames options scope names ds

end

/-- `generate` -/
def generate (options : GeneratorOptions) (lines : DeclarationCode) (schema : SchemaDescriptor) :
    Except CodegenError Lines := do
  validateDefinitionNames options ((schema.path.getD "schema").toList) [] schema.definitions
  let declarations ← generateDefinitions options lines schema.definitions
  let notice ← lines.notice schema
  return code notice ++ paragraphs ((code ["import SwiftBebop".toList] ++ [.point 0 .imports]) :: declarations) ++
    code [[]] ++ [.point 0 .eof] ++ code [[]]

end Bebop.Swift
