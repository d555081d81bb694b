import Bebop.Compiler.ParserMembers

/-!
# Bebop — the parser of a file

`bebop__parse_file` of `bebop_parser.c`: a machine with a stack of frames, one for each
definition it is in, and the file's own at the bottom. The list of frames has its top
first; `nested` stands for a pointer to the definition of the frame below.
-/

namespace Bebop.Compiler

open Fallible

/-- `bebop_parse_state_t` -/
inductive ParseState
  | file
  | import
  | edition
  | package
  | definition
  | enumStart
  | enumBody (d : OpenDef) (baseType : Scalar) (members : List EnumMember)
  | structStart
  | structBody (d : OpenDef) (isMutable : Bool) (fields : List Field)
  | messageStart
  | messageBody (d : OpenDef) (fields : List Field)
  | unionStart
  | unionBody (d : OpenDef) (branches : List Branch)
  | unionBranch (d : OpenDef) (branches : List Branch)
  | serviceStart
  | serviceBody (d : OpenDef) (methods : List Method) (mixins : List Ty)
  | constStart

/-- `bebop_parse_frame_t` -/
structure Frame where
  state : ParseState
  decorators : List Decorator
  isMutable : Bool
  visibility : Visibility
  nested : Bool

/-- `bebop__def_add_nested`, to the definition in whose body another one began. -/
def ParseState.addNested (nested : Def) : ParseState → Option ParseState
  | .structBody d isMutable fields =>
    some (.structBody { d with nestedDefs := d.nestedDefs ++ [nested] } isMutable fields)
  | .messageBody d fields => some (.messageBody { d with nestedDefs := d.nestedDefs ++ [nested] } fields)
  | .unionBody d branches => some (.unionBody { d with nestedDefs := d.nestedDefs ++ [nested] } branches)
  | _ => none

namespace Parser

/-- `BEBOP_PARSE_STACK_SIZE` -/
def parseStackSize : Nat := 64

variable (frame : Frame)

/-- The frame, once more in the state of a file; an error is skipped first. -/
def backToFile (below : List Frame) : Parse (List Frame) := do
  recover synchronize
  return { frame with state := .file } :: below

/-! ## The beginning of a file -/

def reachPreamble (preamble : Preamble) : Parse Unit := modify fun p =>
  if p.preamble.rank < preamble.rank then { p with preamble := preamble } else p

/-- An error, if the preamble has come as far as this. -/
def notAfter (preamble : Preamble) (code : Nat) (message : String) : Parse Unit := do
  if preamble.rank ≤ (← get).preamble.rank then errorCurrent code message else pure ()

/-- `PARSE_STATE_FILE` -/
def fileState (below : List Frame) : Parse (List Frame) := do
  if ← atEnd then return below
  else if ← check .import then
    reachPreamble .imports
    return { frame with state := .import } :: below
  else if ← check .edition then
    notAfter .imports 136 "Edition declaration must come before imports and definitions"
    notAfter .package 136 "Edition declaration must come before package"
    return { frame with state := .edition } :: below
  else if ← check .package then
    notAfter .imports 138 "Package declaration must come before imports"
    notAfter .done 139 "Package declaration must come before definitions"
    return { frame with state := .package } :: below
  else if ← check .hash then
    reachPreamble .done
    parseMacroDecorator
    return frame :: below
  else
    reachPreamble .done
    return { frame with state := .definition } :: below

/-- `bebop__schema_add_import` -/
def addImport (path : Text) (span : Span) : Parse Unit := modify fun p =>
  { p with imports := p.imports ++ [(path, span)] }

def importPath : Parse Unit := do
  if ← consume .string "Expected import path string" then
    let path ← previousToken
    addImport path.text path.span
  else pure ()

/-- `PARSE_STATE_IMPORT` -/
def importState (below : List Frame) : Parse (List Frame) := do
  advance
  importPath
  let _ ← matchToken .semicolon
  backToFile frame below

def editionYear : Parse Unit := do
  if ← consume .string "Expected edition year string" then
    let year ← previousToken
    if year.text = ['2', '0', '2', '6'] then modify fun p => { p with edition := 2026 }
    else parseErrorAt year.span 136 "Unsupported edition (supported: \"2026\")"
  else pure ()

/-- `PARSE_STATE_EDITION` -/
def editionState (below : List Frame) : Parse (List Frame) := do
  advance
  let _ ← consumeAfter .equals "Expected '=' after 'edition'"
  editionYear
  modify fun p => { p with preamble := .edition }
  let _ ← matchToken .semicolon
  backToFile frame below

/-- A part of a package's name behind its first, where one error is skipped at once. -/
def packageRound : Text × Span → Parse ((Text × Span) ⊕ (Text × Span))
  | (name, last) => do
    if ← matchToken .dot then
      let part ← currentToken
      if isIdentOrKeyword part.kind then
        advance
        if name.length + 1 + part.text.length ≥ 512 then
          errorPrevious 142 "Package name too long"
          return .inr (name, last)
        else return .inl (name ++ '.' :: part.text, part.span)
      else
        errorCurrent 104 "Expected identifier after '.'"
        recover synchronize
        return .inr (name, last)
    else return .inr (name, last)

/-- The package that `PARSE_STATE_PACKAGE` reads behind its keyword. -/
def packageName (keyword : Span) (first : Token) : Parse Unit := do
  if first.text.length ≥ 512 then errorPrevious 142 "Package name too long"
  else
    let (name, last) ← overStream packageRound (first.text, first.span)
    if (← get).panicMode then recover synchronize
    else
      let _ ← matchToken .semicolon
      modify fun p =>
        { p with package := some name, packageSpan := some (spanFromTokens keyword last), preamble := .package }

/-- A package, from its keyword on; a first part that is too long is left with the error. -/
def parsePackage : Parse Unit := do
  advance
  let keyword ← previousToken
  if (← get).package.isSome then
    parseErrorAt keyword.span 137 "Duplicate package declaration"
    recover synchronize
  else if ← consume .identifier "Expected package name" then
    packageName keyword.span (← previousToken)
  else recover synchronize

/-- `PARSE_STATE_PACKAGE` -/
def packageState (below : List Frame) : Parse (List Frame) := do
  parsePackage
  return { frame with state := .file } :: below

/-! ## The beginning of a definition -/

def definitionVisibility (nested : Bool) : Parse Visibility := do
  if ← check .export then
    advance
    let modifier ← previousToken
    (if nested then pure ()
    else
      warning modifier.span 202
        "'export' on top-level definition is redundant (top-level is exported by default)" : Parse Unit)
    return .visExport
  else if ← check .local then
    advance
    let modifier ← previousToken
    (if nested then
      warning modifier.span 203 "'local' on nested definition is redundant (nested definitions are local by default)"
    else pure () : Parse Unit)
    return .visLocal
  else return .visDefault

/-- The modifier `readonly`, which is passed with a warning. -/
def skipReadonly : Parse Unit := do
  if ← check .readonly then
    warning (← currentToken).span 200
      "The 'readonly' modifier is deprecated. Structs are immutable by default; use 'mut' for mutable structs."
    advance
  else pure ()

def startState : TokenKind → Option ParseState
  | .enum => some .enumStart
  | .struct => some .structStart
  | .message => some .messageStart
  | .union => some .unionStart
  | .service => some .serviceStart
  | .const => some .constStart
  | _ => none

/-- What is said of a token that begins no definition. -/
def notADefinition (tok : Token) : Parse Unit :=
  if tok.kind = .identifier then
    parseErrorAt tok.span 104 ("Unrecognized keyword '" ++ String.ofList tok.text ++ "'")
  else errorCurrent 104 "Expected definition (enum, struct, message, union, service, or const)"

/-- `PARSE_STATE_DEFINITION` -/
def definitionState (below : List Frame) : Parse (List Frame) := do
  let decorators ← parseDecorators
  let visibility ← definitionVisibility frame.nested
  let isMutable ← matchToken .mut
  skipReadonly
  let tok ← currentToken
  (if isMutable && tok.kind ≠ .struct then
    parseErrorAt tok.span 103 ("'mut' cannot be applied to " ++ tok.kind.name)
  else pure () : Parse Unit)
  let frame := { frame with decorators := decorators, isMutable := isMutable, visibility := visibility }
  match startState tok.kind with
  | some state => return { frame with state := state } :: below
  | none =>
    notADefinition tok
    backToFile frame below

/-- What starts a definition: its name, the clause behind that, and the brace. -/
def defStart {γ : Type} (message : String) (kind : DefKind) (clause : Parse γ) (body : OpenDef → γ → ParseState)
    (frame : Frame) (below : List Frame) : Parse (List Frame) := do
  advance
  let keyword ← previousToken
  if ← consume .identifier message then
    let name ← previousToken
    checkReservedName name.text name.span
    let c ← clause
    if ← consumeAfter .lbrace "Expected '\x7b'" then
      enterDef name.text kind
      let d : OpenDef := ⟨name.text, name.span, keyword.span, frame.decorators, frame.visibility, []⟩
      return { frame with state := body d c } :: below
    else backToFile frame below
  else backToFile frame below

/-- `bebop__parse_is_integer_type` -/
def isIntegerType : Scalar → Bool
  | .byte => true
  | .int8 => true
  | .int16 => true
  | .uint16 => true
  | .int32 => true
  | .uint32 => true
  | .int64 => true
  | .uint64 => true
  | .int128 => true
  | .uint128 => true
  | _ => false

def enumBase : Parse Scalar := do
  if ← matchToken .colon then
    if ← consumeAfter .identifier "Expected integer type after ':'" then
      match (lookupScalar (← previousToken).text).filter isIntegerType with
      | some kind =>
        if kind = .int128 ∨ kind = .uint128 then
          errorPrevious 105 "int128/uint128 cannot be used as enum base type"
          return .uint32
        else return kind
      | none =>
        errorPrevious 105 "Expected integer type for enum base"
        return .uint32
    else return .uint32
  else return .uint32

/-- `PARSE_STATE_ENUM_START` -/
def enumStart : Frame → List Frame → Parse (List Frame) :=
  defStart "Expected enum name" .enum enumBase fun d baseType => .enumBody d baseType []

/-- `PARSE_STATE_STRUCT_START` -/
def structStart : List Frame → Parse (List Frame) :=
  defStart "Expected struct name" .struct (pure ()) (fun d _ => .structBody d frame.isMutable []) frame

/-- `PARSE_STATE_MESSAGE_START` -/
def messageStart : Frame → List Frame → Parse (List Frame) :=
  defStart "Expected message name" .message (pure ()) fun d _ => .messageBody d []

/-- `PARSE_STATE_UNION_START` -/
def unionStart : Frame → List Frame → Parse (List Frame) :=
  defStart "Expected union name" .union (pure ()) fun d _ => .unionBody d []

def isNamed : Ty → Bool
  | .defined _ _ _ => true
  | _ => false

def mixinRound (mixins : List Ty) : Parse (List Ty ⊕ List Ty) := do
  match ← parseType.run with
  | none => return .inr mixins
  | some type =>
    (if isNamed type then pure () else errorPrevious 132 "Service mixin must be a named service type" : Parse Unit)
    let mixins := if isNamed type then mixins ++ [type] else mixins
    if ← matchToken .comma then return .inl mixins else return .inr mixins

def serviceMixins : Parse (List Ty) := do
  if ← matchToken .with then overStream mixinRound [] else return []

/-- `PARSE_STATE_SERVICE_START` -/
def serviceStart : Frame → List Frame → Parse (List Frame) :=
  defStart "Expected service name" .service serviceMixins fun d mixins => .serviceBody d [] mixins

/-! ## Bodies -/

/-- `bebop__is_def_keyword` -/
def isDefKeyword (kind : TokenKind) : Bool :=
  kind = .struct || kind = .message || kind = .enum || kind = .union

/-- A round of the look-ahead over decorators: whether a definition is behind them. The
depth is an `int`, which a closing parenthesis may make negative. -/
def lookAheadRound : Int × Bool → Parse ((Int × Bool) ⊕ Bool)
  | (depth, afterAt) => do
    if ← atEnd then return .inr false
    else
      let kind := (← currentToken).kind
      if kind = .at ∧ depth = 0 then
        advance
        return .inl (depth, true)
      else if afterAt ∧ kind = .identifier ∧ depth = 0 then
        advance
        return .inl (depth, afterAt)
      else if kind = .dot ∧ depth = 0 then
        advance
        return .inl (depth, true)
      else if kind = .lparen then
        advance
        return .inl (depth + 1, false)
      else if kind = .rparen then
        advance
        return .inl (depth - 1, if depth - 1 = 0 then false else afterAt)
      else if depth > 0 then
        advance
        return .inl (depth, afterAt)
      else return .inr (isDefKeyword kind || kind = .export || kind = .local || kind = .mut)

/-- `bebop__parse_is_nested_def_start` -/
def isNestedDefStart : Parse Bool := do
  let kind := (← currentToken).kind
  if isDefKeyword kind then return true
  else if kind = .export ∨ kind = .local then
    let p ← get
    if p.current + 1 < p.stream.length then
      let next := (← tokenAt (p.current + 1)).kind
      return isDefKeyword next || next = .mut
    else return false
  else if kind = .mut then return true
  else if kind = .at then
    let savePos := (← get).current
    let found ← overStream lookAheadRound (0, false)
    modify fun p => { p with current := savePos }
    return found
  else return false

def pushDefinition (stack : List Frame) : Parse (List Frame) := do
  if stack.length ≥ parseStackSize then
    parseFatal "Parser stack overflow (too many nested definitions)"
    return stack
  else push parseStackSize ⟨.definition, [], false, .visDefault, true⟩ stack

/-- `bebop__parse_check_duplicate_def` -/
def checkDuplicateDef (d : Def) (nameSpan : Span) : Parse Unit := do
  match ← findDefinition d.name with
  | some _ => parseErrorAt nameSpan 101 ("A definition named " ++ quote d.name ++ " already exists")
  | none => pure ()

/-- What the ends of bodies have in common: `check` is made of the definition before its
name is looked for, and one that is nested goes to the definition below. -/
def bodyEnd (d : OpenDef) (body : Body) (nested : Bool) (check : Def → Parse Unit) (frame : Frame)
    (below : List Frame) : Parse (List Frame) := do
  let _ ← consumeAfter .rbrace "Expected '\x7d'"
  let rbrace ← previousToken
  exitDef
  let definition := d.close rbrace.span body
  check definition
  checkDuplicateDef definition d.nameSpan
  if nested then
    match below with
    | [] => throw .stack
    | outer :: below =>
      match outer.state.addNested definition with
      | some state => return { outer with state := state } :: below
      | none => throw .stack
  else
    addDefinition definition
    return { frame with state := .file, decorators := [] } :: below

def atBodyEnd : Parse Bool := do return (← check .rbrace) || (← atEnd)

/-- A member, or what comes instead of it; an error is skipped in the block. -/
def bodyMember {α : Type} (member : Attempt α) : Parse (List α) := do
  let result ← member.run
  recover synchronizeInBlock
  return result.toList

/-- `PARSE_STATE_ENUM_BODY` -/
def enumBody (d : OpenDef) (baseType : Scalar) (members : List EnumMember) (frame : Frame) (below : List Frame) :
    Parse (List Frame) := do
  if ← atBodyEnd then
    bodyEnd d (.enum baseType members) frame.nested (fun definition => checkEnumComplete definition members) frame below
  else
    let read ← bodyMember (parseEnumMember d.decorators baseType members)
    return { frame with state := .enumBody d baseType (members ++ read) } :: below

/-- `PARSE_STATE_STRUCT_BODY` -/
def structBody (d : OpenDef) (isMutable : Bool) (fields : List Field) (frame : Frame) (below : List Frame) :
    Parse (List Frame) := do
  if ← atBodyEnd then bodyEnd d (.struct isMutable fields) frame.nested (fun _ => pure ()) frame below
  else if ← isNestedDefStart then pushDefinition (frame :: below)
  else
    let read ← bodyMember (parseField d.name .struct false)
    return { frame with state := .structBody d isMutable (fields ++ read) } :: below

/-- `PARSE_STATE_MESSAGE_BODY` -/
def messageBody (d : OpenDef) (fields : List Field) (frame : Frame) (below : List Frame) : Parse (List Frame) := do
  if ← atBodyEnd then bodyEnd d (.message fields) frame.nested (fun _ => pure ()) frame below
  else if ← isNestedDefStart then pushDefinition (frame :: below)
  else
    let read ← bodyMember (parseField d.name .message true)
    return { frame with state := .messageBody d (fields ++ read) } :: below

def checkBranches (branches : List Branch) : Parse Unit :=
  if branches.isEmpty then errorPrevious 115 "Union must have at least one branch" else pure ()

/-- `PARSE_STATE_UNION_BODY` -/
def unionBody (d : OpenDef) (branches : List Branch) (frame : Frame) (below : List Frame) : Parse (List Frame) := do
  if ← atBodyEnd then
    bodyEnd d (.union branches) frame.nested (fun _ => checkBranches branches) frame below
  else if ← isNestedDefStart then pushDefinition (frame :: below)
  else return { frame with state := .unionBranch d branches } :: below

/-- `PARSE_STATE_SERVICE_BODY`; a service is never nested in the frame below. -/
def serviceBody (d : OpenDef) (methods : List Method) (mixins : List Ty) (frame : Frame) (below : List Frame) :
    Parse (List Frame) := do
  if ← atBodyEnd then bodyEnd d (.service methods mixins) false (fun _ => pure ()) frame below
  else
    let read ← bodyMember (parseMethodInline d.name methods)
    return { frame with state := .serviceBody d (methods ++ read) mixins } :: below

/-! ## Branches of a union -/

def branchVisibility : Parse Visibility := do
  if ← check .export then
    advance
    return .visExport
  else if ← check .local then
    advance
    warning (← previousToken).span 203
      "'local' on union branch is redundant (nested definitions are local by default)"
    return .visLocal
  else return .visDefault

/-- A branch up to its colon: the token of its name, and its discriminator. -/
def branchHead (branches : List Branch) : Attempt (Token × Nat) := do
  expect (consumeName "Expected branch name")
  let name ← previousToken
  expect (consumeAfter .lparen "Expected '(' after branch name")
  expect (consume .number "Expected discriminator")
  let tok ← previousToken
  match (parseInt tok.lexeme).filter fun value => 1 ≤ value ∧ value ≤ 255 with
  | none =>
    errorPrevious 113 "Union discriminator must be 1-255"
    failure
  | some value =>
    if branches.any fun branch => branch.discriminator == value.toNat then
      parseErrorAt tok.span 114 ("Duplicate union discriminator " ++ toString value)
      failure
    else
      expect (consumeAfter .rparen "Expected ')' after discriminator")
      expect (consumeAfter .colon "Expected ':' after ')'")
      return (name, value.toNat)

def inlineFieldsRound (name : Text) (kind : DefKind) (fields : List Field) : Parse (List Field ⊕ List Field) := do
  if ← atBodyEnd then return .inr fields
  else
    let read ← bodyMember (parseField name kind (kind = .message))
    return .inl (fields ++ read)

/-- The fields of a branch's own definition, up to its closing brace. -/
def inlineFields (name : Text) (kind : DefKind) : Parse (List Field) := overStream (inlineFieldsRound name kind) []

/-- The definition that a branch has in itself, behind its opening brace. -/
def inlineDefinition (kind : DefKind) (opening : Span) (name : Text) (visibility : Visibility)
    (body : List Field → Body) : Parse Def := do
  enterDef name kind
  let fields ← inlineFields name kind
  let _ ← consumeAfter .rbrace "Expected '\x7d'"
  let rbrace ← previousToken
  exitDef
  return {
    name := name
    span := spanFromTokens opening rbrace.span
    decorators := []
    visibility := visibility
    nestedDefs := []
    body := body fields }

/-- An attempt after whose failure an error is skipped in the block. -/
def orRecover {α : Type} (attempt : Attempt α) : Attempt α := OptionT.mk do
  match ← attempt.run with
  | some result => return some result
  | none =>
    recover synchronizeInBlock
    return none

/-- A definition in the branch itself, at its brace or its keyword. -/
def branchDefinition (name : Token) (isMutable : Bool) (visibility : Visibility) : Attempt Def := do
  if ← check .lbrace then
    checkReservedName name.text name.span
    advance
    let lbrace ← previousToken
    inlineDefinition .struct lbrace.span name.text visibility (.struct isMutable)
  else
    checkReservedName name.text name.span
    (if isMutable then errorCurrent 113 "'mut' cannot be applied to message" else pure () : Parse Unit)
    advance
    let keyword ← previousToken
    orRecover (expect (consumeAfter .lbrace "Expected '\x7b' after 'message'"))
    inlineDefinition .message keyword.span name.text visibility .message

/-- A type that a branch refers to. One that is not named is left with its error. -/
def branchReference (isMutable : Bool) (visibility : Visibility) : Attempt Ty := do
  (if visibility = .visDefault then pure ()
  else errorCurrent 113 "Visibility modifiers cannot be applied to type reference branches" : Parse Unit)
  (if isMutable then errorCurrent 113 "'mut' cannot be applied to type reference branches" else pure () : Parse Unit)
  let type ← orRecover parseType
  if isNamed type then return type
  else
    errorPrevious 141 "Union branch type reference must be a named type (struct or message)"
    failure

/-- What is behind the colon of a branch. An error is left where it is. -/
def branchType (name : Token) (visibility : Visibility) : Attempt (Def ⊕ Ty) := do
  let isMutable ← matchToken .mut
  if (← check .lbrace) || (← check .message) then return .inl (← branchDefinition name isMutable visibility)
  else if ← check .identifier then return .inr (← branchReference isMutable visibility)
  else
    errorCurrent 113 "Expected '\x7b', 'mut', 'message', or type reference after ':'"
    failure

/-- A branch behind its decorators; the errors of its end are left for the body. -/
def parseBranch (d : OpenDef) (branches : List Branch) (decorators : List Decorator) (first : Span) :
    Attempt (OpenDef × Branch) := do
  let visibility ← (branchVisibility : Parse _)
  let (name, discriminator) ← orRecover (branchHead branches)
  let type ← branchType name visibility
  expect (consumeAfter .semicolon "Expected ';' after union branch")
  let span := spanFromTokens first (← previousToken).span
  match type with
  | .inl definition =>
    return ({ d with nestedDefs := d.nestedDefs ++ [definition] },
      ⟨discriminator, span, decorators, some d.nestedDefs.length, none, name.text⟩)
  | .inr type => return (d, ⟨discriminator, span, decorators, none, some type, name.text⟩)

/-- `PARSE_STATE_UNION_BRANCH` -/
def unionBranch (d : OpenDef) (branches : List Branch) (frame : Frame) (below : List Frame) :
    Parse (List Frame) := do
  let decorators ← parseDecorators
  let first := memberStart decorators (← currentToken).span
  match ← (parseBranch d branches decorators first).run with
  | some (d, branch) => return { frame with state := .unionBody d (branches ++ [branch]) } :: below
  | none => return { frame with state := .unionBody d branches } :: below

/-! ## Constants -/

def literalMatches (type : Ty) (value : LiteralValue) : Bool :=
  match type with
  | .array _ (.scalar _ .byte) => match value with | .bytes _ => true | _ => false
  | .scalar _ kind =>
    match kind, value with
    | .bool, .bool _ => true
    | .string, .string _ _ => true
    | .uuid, .uuid _ => true
    | .timestamp, .timestamp _ => true
    | .duration, .duration _ => true
    | .float16, .float _ => true
    | .float32, .float _ => true
    | .float64, .float _ => true
    | .bfloat16, .float _ => true
    | .float16, .int _ => true
    | .float32, .int _ => true
    | .float64, .int _ => true
    | .bfloat16, .int _ => true
    | kind, .int _ => isIntegerType kind
    | _, _ => false
  | _ => true

def checkConstType : Ty → Parse Unit
  | .scalar _ _ => pure ()
  | .array _ (.scalar _ .byte) => pure ()
  | .array _ _ => errorPrevious 122 "Only byte[] arrays are allowed as const types"
  | _ => errorPrevious 122 "Const type must be a scalar type"

/-- The literal that a constant's type makes the parser expect. -/
def literalHint : Ty → Option Scalar
  | .scalar _ kind => some kind
  | .array _ (.scalar _ .byte) => some .byte
  | _ => none

/-- A constant behind its keyword, with the place of its name. -/
def parseConst (keyword : Span) (frame : Frame) : Attempt (Def × Span) := do
  let type ← parseType
  checkConstType type
  expect (consumeName "Expected const name")
  let name ← previousToken
  expect (consumeAfter .equals "Expected '=' after const name")
  let value ← parseLiteral (literalHint type)
  (if literalMatches type value.value then pure ()
  else errorPrevious 123 "Literal value does not match declared const type" : Parse Unit)
  expect (consumeAfter .semicolon "Expected ';' after const value")
  return ({
    name := name.text
    span := spanFromTokens keyword (← previousToken).span
    decorators := frame.decorators
    visibility := frame.visibility
    nestedDefs := []
    body := .const type value }, name.span)

/-- `PARSE_STATE_CONST_START` -/
def constStart (below : List Frame) : Parse (List Frame) := do
  advance
  let keyword ← previousToken
  match ← (parseConst keyword.span frame).run with
  | none => backToFile frame below
  | some (definition, nameSpan) =>
    checkDuplicateDef definition nameSpan
    addDefinition definition
    return { frame with state := .file, decorators := [] } :: below

/-! ## The machine -/

/-- One round of `bebop__parse_file`. -/
def parseStep (below : List Frame) : Parse (List Frame) :=
  match frame.state with
  | .file => fileState frame below
  | .import => importState frame below
  | .edition => editionState frame below
  | .package => packageState frame below
  | .definition => definitionState frame below
  | .enumStart => enumStart frame below
  | .enumBody d baseType members => enumBody d baseType members frame below
  | .structStart => structStart frame below
  | .structBody d isMutable fields => structBody d isMutable fields frame below
  | .messageStart => messageStart frame below
  | .messageBody d fields => messageBody d fields frame below
  | .unionStart => unionStart frame below
  | .unionBody d branches => unionBody d branches frame below
  | .unionBranch d branches => unionBranch d branches frame below
  | .serviceStart => serviceStart frame below
  | .serviceBody d methods mixins => serviceBody d methods mixins frame below
  | .constStart => constStart frame below

def fileRound : List Frame → Parse (List Frame ⊕ Unit)
  | [] => return .inr ()
  | frame :: below => do
    if (← get).fatal then return .inr ()
    else return .inl (← parseStep frame below)

/-- `bebop__parse_file`: a token makes no more than ten rounds. -/
def parseFile : Parse Unit := do
  loop Fault.fuel fileRound (10 * (← rounds)) [⟨.file, [], false, .visDefault, false⟩]

end Parser

/-- `bebop__parse_tokens_into` -/
def parseTokensInto (host : Host) (stream : List Token) : Except Fault Parser :=
  if stream = [] then
    .ok { Parser.start host stream with contextErrors := ["Empty token stream"] }
  else (Parser.parseFile (.start host stream)).map (·.2)

end Bebop.Compiler
