import Bebop.Compiler.ParserTypes

/-!
# Bebop — members and decorator definitions

The parts of `bebop_parser.c` that read a member of a definition, and a whole `#decorator`.
A documentation comment, the text of an enum value, and what a decorator definition says
besides its name are read and not kept.
-/

namespace Bebop.Compiler

/-- A definition that the parser is in, without what its kind decides. -/
structure OpenDef where
  name : Text
  nameSpan : Span
  keyword : Span
  decorators : List Decorator
  visibility : Visibility
  nestedDefs : List Def

def OpenDef.close (d : OpenDef) (closing : Span) (body : Body) : Def where
  name := d.name
  span := spanFromTokens d.keyword closing
  decorators := d.decorators
  visibility := d.visibility
  nestedDefs := d.nestedDefs
  body := body

namespace Parser

/-- Where a member begins: at its decorators, if it has some. -/
def memberStart (decorators : List Decorator) (name : Span) : Span := (decorators.head?.map Decorator.span).getD name

/-! ## Enum members -/

/-- `bebop__sema_int_range`: the least value, the greatest, and whether it is unsigned. -/
def intRange : Scalar → Int × Int × Bool
  | .byte => (0, 255, true)
  | .int8 => (-128, 127, false)
  | .int16 => (-32768, 32767, false)
  | .uint16 => (0, 65535, true)
  | .int32 => (-2147483648, 2147483647, false)
  | .uint32 => (0, 4294967295, true)
  | .int64 => (-9223372036854775808, 9223372036854775807, false)
  | .uint64 => (0, 18446744073709551615, true)
  | _ => (0, 0, false)

def signedValue (isUnsigned : Bool) (value : BitVec 64) : Int := if isUnsigned then value.toNat else value.toInt

/-- `bebop_sema_check_enum_member`, of a member behind others. -/
def checkEnumMember (baseType : Scalar) (decorators : List Decorator) (members : List EnumMember)
    (member : EnumMember) : Parse Unit := do
  let (least, greatest, isUnsigned) := intRange baseType
  let value := signedValue isUnsigned (BitVec.ofInt 64 member.value)
  if value < least ∨ value > greatest then
    addReport (errorAt 121 member.span ("Enum member " ++ quote member.name ++ " has value " ++ toString value ++
      " which is outside the range of the base type") none)
  else if (decorators.take 1000).any fun dec => dec.name == ['f', 'l', 'a', 'g', 's'] then pure ()
  else if decorators.length > 1000 then
    modify fun p => { p with contextErrors := p.contextErrors ++
      ["Decorator list exceeds maximum length (corrupted data)"] }
  else if members.any fun existing => existing.value == member.value then
    addReport (errorAt 120 member.span ("Enum member " ++ quote member.name ++ " has duplicate value " ++
      toString (BitVec.ofInt 64 member.value).toInt ++ " (use @flags for bit flags)") none)
  else pure ()

/-- `bebop_sema_check_enum_complete` -/
def checkEnumComplete (d : Def) (members : List EnumMember) : Parse Unit :=
  if (members.any fun member => member.value == 0) || members.isEmpty then pure ()
  else
    addReport (errorAt 135 d.span ("Enum " ++ quote d.name ++ " must have a member with value 0 (e.g., " ++
      String.ofList d.name ++ "_UNSPECIFIED = 0)") none)

/-- `bebop__parse_enum_member_inline`, in an enum with its decorators and some members. -/
def parseEnumMember (enumDecorators : List Decorator) (baseType : Scalar) (members : List EnumMember) :
    Attempt EnumMember := do
  let decorators ← (parseDecorators : Parse _)
  expect (consumeName "Expected enum member name")
  let name ← previousToken
  checkReservedName name.text name.span
  checkDuplicateName name.text name.span
  expect (consumeAfter .equals "Expected '=' after enum member name")
  let value ← (parseExpression members : Parse _)
  expect (consumeAfter .semicolon "Expected ';' after enum member value")
  let member : EnumMember :=
    { name := name.text
      span := spanFromTokens (memberStart decorators name.span) (← previousToken).span
      decorators := decorators
      value := value.toNat }
  checkEnumMember baseType enumDecorators members member
  return member

/-! ## Fields -/

/-- The index of a message's field, in its parentheses. -/
def fieldIndex : Attempt Nat := do
  expect (consumeAfter .lparen "Expected '(' after field name")
  expect (consume .number "Expected field index")
  let tok ← previousToken
  match parseInt tok.lexeme with
  | none =>
    errorPrevious 118 "Invalid field index"
    failure
  | some index =>
    if index < 1 ∨ index > 255 then
      errorPrevious 118 "Field index must be 1-255"
      failure
    else
      checkFieldIndex index.toNat tok.span
      expect (consumeAfter .rparen "Expected ')' after field index")
      return index.toNat

/-- `bebop__parse_field_inline`, in a definition of a name and a kind. -/
def parseField (parentName : Text) (parentKind : DefKind) (isMessage : Bool) : Attempt Field := do
  let decorators ← (parseDecorators : Parse _)
  expect (consumeName "Expected field name")
  let name ← previousToken
  let index ← (if isMessage then fieldIndex else pure 0 : Attempt Nat)
  expect (consumeAfter .colon "Expected ':' after field name")
  let type ← parseType
  (if !isMessage && parentKind = .struct then checkSelfReference type else pure () : Parse Unit)
  (if name.text = parentName then
    parseErrorAt name.span 102 "Field name cannot be the same as the containing definition name"
  else pure () : Parse Unit)
  checkReservedName name.text name.span
  checkDuplicateName name.text name.span
  expect (consumeAfter .semicolon "Expected ';' after field")
  return {
    name := name.text
    span := spanFromTokens (memberStart decorators name.span) (← previousToken).span
    decorators := decorators
    type := type
    index := index }

/-! ## Methods -/

def methodType (requestStream responseStream : Bool) : MethodType :=
  match requestStream, responseStream with
  | false, false => .unary
  | false, true => .serverStream
  | true, false => .clientStream
  | true, true => .duplexStream

/-- `bebop__parse_method_inline`, in a service with some methods. -/
def parseMethodInline (service : Text) (methods : List Method) : Attempt Method := do
  let decorators ← (parseDecorators : Parse _)
  expect (consumeName "Expected method name")
  let name ← previousToken
  checkReservedName name.text name.span
  checkDuplicateName name.text name.span
  expect (consumeAfter .lparen "Expected '(' after method name")
  let requestStream ← matchToken .stream
  let requestType ← parseType
  addReports (checkServiceType requestType)
  expect (consumeAfter .rparen "Expected ')' after request type")
  expect (consumeAfter .colon "Expected ':' after ')'")
  let responseStream ← matchToken .stream
  let responseType ← parseType
  addReports (checkServiceType responseType)
  expect (consumeAfter .semicolon "Expected ';' after method")
  let path := methodPath service name.text
  let id := if path.length < methodPathSize then (hashMethodId path).toNat else 0
  (if path.length ≥ methodPathSize then
    parseErrorAt name.span 103
      ("Method path too long (truncated): '" ++ String.ofList service ++ "." ++ String.ofList name.text ++ "'")
  else pure () : Parse Unit)
  match methods.find? fun other => other.id = id with
  | some other =>
    parseErrorAt name.span 131
      ("Method " ++ quote name.text ++ " has same computed ID (0x" ++ hex8 id ++ ") as " ++ quote other.name)
    failure
  | none =>
    return {
      name := name.text
      span := spanFromTokens (memberStart decorators name.span) (← previousToken).span
      nameSpan := name.span
      decorators := decorators
      requestType := requestType
      responseType := responseType
      methodType := methodType requestStream responseStream
      id := id }

/-! ## Decorator definitions -/

/-- `bebop__target_constants` -/
def targetConstants : List (Text × Nat) :=
  [(['E', 'N', 'U', 'M'], 1), (['S', 'T', 'R', 'U', 'C', 'T'], 2), (['M', 'E', 'S', 'S', 'A', 'G', 'E'], 4),
    (['U', 'N', 'I', 'O', 'N'], 8), (['F', 'I', 'E', 'L', 'D'], 16), (['S', 'E', 'R', 'V', 'I', 'C', 'E'], 32),
    (['M', 'E', 'T', 'H', 'O', 'D'], 64), (['B', 'R', 'A', 'N', 'C', 'H'], 128), (['A', 'L', 'L'], 255)]

/-- `bebop__parse_target_constant`, with the error for a name that is none. -/
def targetConstant : Attempt Nat := do
  let tok ← previousToken
  match targetConstants.find? fun entry => entry.1 == tok.text with
  | some entry => return entry.2
  | none =>
    parseErrorAt tok.span 143 ("Unknown target constant " ++ quote tok.text)
    failure

def targetRound (result : Nat) : Parse (Nat ⊕ Nat) := do
  if ← matchToken .pipe then
    if ← consumeAfter .identifier "Expected target constant after '|'" then
      match ← targetConstant.run with
      | none => return .inr result
      | some target => return .inl (result ||| target)
    else return .inr result
  else return .inr result

/-- `bebop__parse_target_expr`: the targets, up to an error. -/
def parseTargetExpr : Parse Nat := do
  if ← consume .identifier
      "Expected target constant (STRUCT, MESSAGE, ENUM, UNION, FIELD, SERVICE, METHOD, BRANCH, or ALL)" then
    match ← targetConstant.run with
    | none => return 0
    | some target => overStream targetRound target
  else return 0

/-- `bebop__parse_lua_block` -/
def parseLuaBlock (blockName : String) : Attempt Unit := do
  if ← check .rawBlock then advance
  else
    errorCurrent 143 ("Expected '[[' to start " ++ blockName ++ " block")
    failure

def allowedValuesRound (type : Option Scalar) : Parse (Unit ⊕ Option Unit) := do
  if (← check .rbracket) || (← atEnd) then return .inr (some ())
  else
    match ← (parseLiteral type).run with
    | none =>
      errorCurrent 143 "Invalid value in 'in [...]' constraint list"
      return .inr none
    | some _ =>
      if ← check .rbracket then return .inl ()
      else if ← consume .comma "Expected ',' or ']' in value list" then return .inl ()
      else return .inr none

/-- The values a parameter may have, behind the opening bracket. -/
def allowedValues (type : Option Scalar) : Attempt Unit := OptionT.mk (overStream (fun _ => allowedValuesRound type) ())

def paramModifier : Attempt Unit := do
  if ← check .bang then advance
  else if ← check .question then advance
  else
    errorCurrent 143 "Expected '!' (required) or '?' (optional) after parameter name"
    failure

/-- The type of a parameter: a scalar, or none for `type`. -/
def paramType : Attempt (Option Scalar) := do
  expect (consume .identifier "Expected parameter type")
  let tok ← previousToken
  if tok.text = ['t', 'y', 'p', 'e'] then return none
  else
    match lookupScalar tok.text with
    | some kind => return some kind
    | none =>
      parseErrorAt tok.span 143 ("Unknown parameter type " ++ quote tok.text)
      failure

def paramDefault (type : Option Scalar) : Attempt Unit := do
  if ← check .equals then
    advance
    match ← (OptionT.lift (parseLiteral type).run : Attempt (Option Literal)) with
    | some _ => pure ()
    | none =>
      errorCurrent 143 "Invalid default value for parameter"
      failure
  else pure ()

/-- `bebop__parse_macro_param` -/
def parseMacroParam : Attempt Unit := do
  let name ← currentToken
  if isNameKind name.kind then
    advance
    paramModifier
    expect (consumeAfter .colon "Expected ':' after parameter modifier")
    let type ← paramType
    paramDefault type
    let tok ← currentToken
    if tok.kind = .identifier ∧ tok.text = ['i', 'n'] then
      advance
      expect (consumeAfter .lbracket "Expected '[' after 'in'")
      allowedValues type
      expect (consume .rbracket "Expected ']' to close value list")
    else pure ()
  else
    errorCurrent 143 "Expected parameter name after 'param'"
    failure

structure MacroBody where
  hasTargets : Bool
  paramCount : Nat
  deriving DecidableEq, Repr

/-- `multiple`, behind its name. -/
def macroMultiple : Attempt Unit := do
  expect (consumeAfter .equals "Expected '=' after 'multiple'")
  if ← check .true then advance
  else if ← check .false then advance
  else
    errorCurrent 143 "Expected 'true' or 'false' after 'multiple ='"
    failure

def macroItem (item : Token) (body : MacroBody) : Attempt MacroBody := do
  if !isNameKind item.kind then
    parseErrorAt item.span 143 ("Unexpected token '" ++ item.kind.name ++ "' in decorator body")
    failure
  else if item.text = ['t', 'a', 'r', 'g', 'e', 't', 's'] then
    advance
    expect (consumeAfter .equals "Expected '=' after 'targets'")
    let _ ← (parseTargetExpr : Parse _)
    return { body with hasTargets := true }
  else if item.text = ['m', 'u', 'l', 't', 'i', 'p', 'l', 'e'] then
    advance
    macroMultiple
    return body
  else if item.text = ['p', 'a', 'r', 'a', 'm'] then
    advance
    if body.paramCount ≥ 32 then
      errorCurrent 143 "Too many parameters (maximum 32)"
      failure
    else
      parseMacroParam
      return { body with paramCount := body.paramCount + 1 }
  else if item.text = ['v', 'a', 'l', 'i', 'd', 'a', 't', 'e'] then
    advance
    parseLuaBlock "validate"
    return body
  else if item.text = ['e', 'x', 'p', 'o', 'r', 't'] then
    advance
    parseLuaBlock "export"
    return body
  else
    parseErrorAt item.span 143 ("Unknown decorator body item " ++ quote item.text)
    failure

/-- An item of a decorator's body, or what is skipped instead of it. -/
def macroRound (body : MacroBody) : Parse (MacroBody ⊕ MacroBody) := do
  if (← check .rbrace) || (← atEnd) then return .inr body
  else
    match ← (macroItem (← currentToken) body).run with
    | some body => return .inl body
    | none =>
      synchronizeInDecorator
      return .inl body

def macroBody : Parse MacroBody := overStream macroRound ⟨false, 0⟩

/-- `bebop__schema_find_def` -/
def findDefinition (name : Text) : Parse (Option Def) := do
  return (← get).definitions.find? fun d => d.name = name

/-- `bebop__schema_add_def` -/
def addDefinition (d : Def) : Parse Unit := modify fun p => { p with definitions := p.definitions ++ [d] }

/-- The head of a decorator definition, from behind the hash to its brace. -/
def macroHead : Attempt Token := do
  let keyword ← currentToken
  if keyword.kind ≠ .identifier then
    errorCurrent 143 "Expected 'decorator' after '#'"
    failure
  else if keyword.text ≠ ['d', 'e', 'c', 'o', 'r', 'a', 't', 'o', 'r'] then
    parseErrorAt keyword.span 143 ("Expected 'decorator' after '#', got " ++ quote keyword.text)
    failure
  else
    advance
    expect (consumeAfter .lparen "Expected '(' after '#decorator'")
    expect (consume .identifier "Expected decorator name inside '#decorator(...)'")
    let name ← previousToken
    match ← (OptionT.lift (findDefinition name.text) : Attempt (Option Def)) with
    | some _ =>
      parseErrorAt name.span 146 ("Decorator " ++ quote name.text ++ " is already defined")
      failure
    | none =>
      expect (consumeAfter .rparen "Expected ')' after decorator name")
      expect (consumeAfter .lbrace "Expected '\x7b' to begin decorator body")
      return name

/-- `bebop__parse_macro_decorator` -/
def parseMacroDecorator : Parse Unit := do
  advance
  let hash ← previousToken
  match ← macroHead.run with
  | none => synchronize
  | some name =>
    let body ← macroBody
    if ← consume .rbrace "Expected '\x7d' to close decorator body" then
      let closeBrace ← previousToken
      if body.hasTargets then
        addDefinition
          { name := name.text
            span := spanFromTokens hash.span closeBrace.span
            decorators := []
            visibility := .visDefault
            nestedDefs := []
            body := .decorator }
      else parseErrorAt name.span 143 "Decorator definition missing required 'targets' field"
    else pure ()

end Parser

end Bebop.Compiler
