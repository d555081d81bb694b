import Bebop.Compiler.Methods
import Bebop.Compiler.Scanner
import Bebop.Lib.Fallible

/-!
# Bebop — the parser and its primitives

The state of `bebop_parser.c` and the operations on it by which the rest of the parser is
written, with the checks of `bebop_sema.c`, which report and let the parser go on. A read
of a token outside the stream, a pop of an empty stack and a push on a full one are a
`Fault`, and so is a loop that has had as many rounds as it is given. Labels of
diagnostics, and the 512 bytes of a message's buffer, are left out.
-/

namespace Bebop.Compiler

open Fallible

inductive Fault
  | outsideStream
  | stack
  | fuel
  deriving DecidableEq, Repr

/-- `bebop_preamble_state_t` -/
inductive Preamble
  | start
  | edition
  | package
  | imports
  | done
  deriving DecidableEq, Repr

def Preamble.rank : Preamble → Nat
  | .start => 0
  | .edition => 1
  | .package => 2
  | .imports => 3
  | .done => 4

/-- `bebop_sema_t`: the definition, the names in its scope, and its field indices. -/
structure Sema where
  currentDef : Option (Text × DefKind)
  nameScope : List (Text × Span)
  seenIndices : List (Nat × Span)
  deriving DecidableEq, Repr

/-- The environment, and the readers of the literals that are only handed on. -/
structure Host where
  env : List (List UInt8 × List UInt8)
  parseFloat : List UInt8 → Option UInt64
  parseUuid : List UInt8 → Option (List UInt8)
  parseTimestamp : List UInt8 → Option (Int × Int × Int)
  parseDuration : List UInt8 → Option (Int × Int)

/-- `bebop_parser_t`, with what it has put into its schema and its context. -/
structure Parser where
  host : Host
  stream : List Token
  current : Nat
  hadError : Bool
  panicMode : Bool
  fatal : Bool
  sema : Sema
  preamble : Preamble
  edition : Nat
  package : Option Text
  packageSpan : Option Span
  imports : List (Text × Span)
  definitions : List Def
  reports : List Report
  contextErrors : List String

abbrev Parse := StateT Parser (Except Fault)

/-- A part of the parser that may end without a result. -/
abbrev Attempt := OptionT Parse

def Token.text (tok : Token) : Text := tok.lexeme.map fun byte => Char.ofNat byte.toNat

/-- `bebop_token_kind_name` -/
def TokenKind.name : TokenKind → String
  | .enum => "enum"
  | .struct => "struct"
  | .message => "message"
  | .mut => "mut"
  | .readonly => "readonly"
  | .map => "map"
  | .array => "array"
  | .union => "union"
  | .service => "service"
  | .stream => "stream"
  | .import => "import"
  | .edition => "edition"
  | .package => "package"
  | .export => "export"
  | .local => "local"
  | .true => "true"
  | .false => "false"
  | .const => "const"
  | .with => "with"
  | .identifier => "identifier"
  | .string => "string"
  | .bytes => "bytes"
  | .number => "number"
  | .blockComment => "block_comment"
  | .lparen => "("
  | .rparen => ")"
  | .lbrace => "\x7b"
  | .rbrace => "\x7d"
  | .lbracket => "["
  | .rbracket => "]"
  | .langle => "<"
  | .rangle => ">"
  | .colon => ":"
  | .semicolon => ";"
  | .comma => ","
  | .dot => "."
  | .question => "?"
  | .slash => "/"
  | .equals => "="
  | .at => "@"
  | .dollar => "$"
  | .backslash => "\x5c"
  | .backtick => "\x60"
  | .tilde => "~"
  | .ampersand => "&"
  | .pipe => "|"
  | .minus => "-"
  | .arrow => "->"
  | .hash => "#"
  | .bang => "!"
  | .rawBlock => "raw_block"
  | .eof => "EOF"
  | .error => "error"

namespace Parser

def start (host : Host) (stream : List Token) : Parser where
  host := host
  stream := stream
  current := 0
  hadError := false
  panicMode := false
  fatal := false
  sema := ⟨none, [], []⟩
  preamble := .start
  edition := 2026
  package := none
  packageSpan := none
  imports := []
  definitions := []
  reports := []
  contextErrors := []

/-! ## Tokens -/

def tokenAt (i : Nat) : Parse Token := fun p =>
  match p.stream[i]? with
  | some tok => .ok (tok, p)
  | none => .error .outsideStream

/-- `BEBOP_PARSE_CURRENT` -/
def currentToken : Parse Token := do tokenAt (← get).current

/-- `BEBOP_PARSE_PREVIOUS`, read -/
def previousToken : Parse Token := do
  let p ← get
  if p.current = 0 then fun _ => .error .outsideStream else tokenAt (p.current - 1)

variable (kind : TokenKind)

/-- `BEBOP_PARSE_CHECK` -/
def check : Parse Bool := do return (← currentToken).kind = kind

/-- `BEBOP_PARSE_AT_END` -/
def atEnd : Parse Bool := check .eof

/-- `BEBOP_PARSE_ADVANCE`; a caller that uses its value goes on to read `previousToken`. -/
def advance : Parse Unit := do
  if ← atEnd then pure () else modify fun p => { p with current := p.current + 1 }

/-- `bebop__parse_peek` -/
def peek (n : Nat) : Parse Token := do
  let p ← get
  if p.current + n ≥ p.stream.length then tokenAt (p.stream.length - 1) else tokenAt (p.current + n)

/-! ## Errors -/

/-- `bebop__schema_add_diagnostic` -/
def addReport (report : Report) : Parse Unit := modify fun p => { p with reports := p.reports ++ [report] }

/-- `bebop__parse_error_at` and `bebop__PARSE_ERROR_FMT`: nothing in panic mode. -/
def parseErrorAt (span : Span) (code : Nat) (message : String) : Parse Unit := modify fun p =>
  if p.panicMode || p.fatal then p
  else { p with hadError := true, panicMode := true, reports := p.reports ++ [errorAt code span message none] }

/-- `BEBOP_PARSE_ERROR_CURRENT` -/
def errorCurrent (code : Nat) (message : String) : Parse Unit := do
  parseErrorAt (← currentToken).span code message

/-- `BEBOP_PARSE_ERROR` -/
def errorPrevious (code : Nat) (message : String) : Parse Unit := do
  parseErrorAt (← previousToken).span code message

/-- `BEBOP_PARSE_WARNING` -/
def warning (span : Span) (code : Nat) (message : String) : Parse Unit :=
  addReport ⟨⟨.warning, code, span⟩, message, none⟩

/-- `bebop__parse_fatal` -/
def parseFatal (message : String) : Parse Unit := modify fun p =>
  { p with fatal := true, contextErrors := p.contextErrors ++ [message] }

/-- `BEBOP_PARSE_CONSUME` -/
def consume (message : String) : Parse Bool := do
  if ← check kind then
    advance
    return true
  else
    errorCurrent 104 message
    return false

/-- `BEBOP_PARSE_CONSUME_AFTER` -/
def consumeAfter (message : String) : Parse Bool := do
  if ← check kind then
    advance
    return true
  else
    errorPrevious 104 message
    return false

/-- `BEBOP_PARSE_MATCH` -/
def matchToken : Parse Bool := do
  if ← check kind then
    advance
    return true
  else return false

/-- From `BEBOP_TOKEN_ENUM` to `BEBOP_TOKEN_CONST`: all keywords but `with`. -/
def isKeywordToConst : Bool :=
  [.enum, .struct, .message, .mut, .readonly, .map, .array, .union, .service, .stream, .import, .edition, .package,
    .export, .local, .true, .false, .const].contains kind

/-- `bebop__token_is_ident_or_keyword` -/
def isIdentOrKeyword : Bool := kind = .identifier || isKeywordToConst kind

/-- `bebop__is_name_token`, of a token's kind -/
def isNameKind : Bool := kind = .identifier || isKeywordToConst kind || kind = .with

/-- `BEBOP_PARSE_CONSUME_NAME` -/
def consumeName (message : String) : Parse Bool := do
  if isIdentOrKeyword (← currentToken).kind then
    advance
    return true
  else
    errorCurrent 104 message
    return false

def expect (test : Parse Bool) : Attempt Unit := do
  if ← test then pure () else failure

/-! ## Where parsing goes on after an error -/

def clearPanic : Parse Unit := modify fun p => { p with panicMode := false }

def rounds : Parse Nat := do return (← get).stream.length + 1

def overStream {β γ : Type} (body : β → Parse (β ⊕ γ)) (init : β) : Parse γ := do
  loop Fault.fuel body (← rounds) init

/-- A round of `skipUntil`. -/
def skipRound (stops : TokenKind → Bool) : Parse (Unit ⊕ Unit) := do
  if ← atEnd then return .inr ()
  else if (← previousToken).kind = .semicolon then return .inr ()
  else if stops (← currentToken).kind then return .inr ()
  else
    advance
    return .inl ()

/-- From behind a token, on to the end, behind a semicolon, or to a stop token. -/
def skipUntil (stops : TokenKind → Bool) : Parse Unit := do
  clearPanic
  advance
  overStream (fun _ => skipRound stops) ()

/-- The tokens at which `bebop__parse_synchronize` stops. -/
def startsDefinition : Bool :=
  [.enum, .struct, .message, .union, .service, .const, .mut, .readonly, .import, .package, .export, .local,
    .at].contains kind

/-- `bebop__parse_synchronize` -/
def synchronize : Parse Unit := skipUntil startsDefinition

/-- `bebop__parse_synchronize_in_block` -/
def synchronizeInBlock : Parse Unit := skipUntil fun kind => kind = .rbrace || kind = .at

/-- `bebop__decorator_body_items` -/
def decoratorBodyItems : List Text :=
  [['t', 'a', 'r', 'g', 'e', 't', 's'], ['m', 'u', 'l', 't', 'i', 'p', 'l', 'e'], ['p', 'a', 'r', 'a', 'm'],
    ['v', 'a', 'l', 'i', 'd', 'a', 't', 'e'], ['e', 'x', 'p', 'o', 'r', 't']]

/-- `bebop__is_decorator_body_item` -/
def isDecoratorBodyItem : Parse Bool := do
  let tok ← currentToken
  return tok.kind = .identifier && decoratorBodyItems.contains tok.text

/-- A round of the next function, inside so many braces. -/
def decoratorSkipRound (depth : Nat) : Parse (Nat ⊕ Unit) := do
  if ← atEnd then return .inr ()
  else
    let depth := if ← check .lbrace then depth + 1 else depth
    if (← check .rbrace) && depth = 0 then return .inr ()
    else
      let depth := if ← check .rbrace then depth - 1 else depth
      if ← check .rbracket then
        advance
        if ← check .rbracket then
          advance
          return .inr ()
        else return .inl depth
      else if (← isDecoratorBodyItem) && depth = 0 then return .inr ()
      else
        advance
        return .inl depth

/-- `bebop__parse_synchronize_in_decorator` -/
def synchronizeInDecorator : Parse Unit := do
  clearPanic
  overStream decoratorSkipRound 0

def recover (skip : Parse Unit) : Parse Unit := do
  if (← get).panicMode then skip else pure ()

/-! ## Semantic checks -/

/-- `bebop_sema_enter_def` -/
def enterDef (name : Text) (kind : DefKind) : Parse Unit :=
  modify fun p => { p with sema := ⟨some (name, kind), [], []⟩ }

/-- `bebop_sema_exit_def` -/
def exitDef : Parse Unit := modify fun p => { p with sema := ⟨none, [], []⟩ }

/-- `bebop_sema_check_duplicate_name` -/
def checkDuplicateName (name : Text) (span : Span) : Parse Unit := do
  let p ← get
  if p.sema.nameScope.any (·.1 == name) then
    addReport (errorAt 112 span ("Duplicate name " ++ quote name) none)
  else modify fun p => { p with sema := { p.sema with nameScope := p.sema.nameScope ++ [(name, span)] } }

/-- `bebop_sema_check_field_index` -/
def checkFieldIndex (index : Nat) (span : Span) : Parse Unit := do
  let p ← get
  if index = 0 then addReport (errorAt 118 span "Field index must be at least 1" none)
  else if index > 255 then
    addReport (errorAt 118 span ("Field index " ++ toString index ++ " exceeds maximum of 255") none)
  else if p.sema.seenIndices.any (·.1 == index) then
    addReport (errorAt 117 span ("Duplicate field index " ++ toString index) none)
  else modify fun p => { p with sema := { p.sema with seenIndices := p.sema.seenIndices ++ [(index, span)] } }

/-- `bebop__sema_valid_map_keys` -/
def validMapKeys : List Scalar :=
  [.bool, .byte, .int8, .int16, .uint16, .int32, .uint32, .int64, .uint64, .int128, .uint128, .string, .uuid]

/-- `bebop_sema_check_map_key_type` -/
def checkMapKeyType (keyType : Ty) : Parse Unit :=
  let invalid := addReport (errorAt 111 keyType.span ("Invalid map key type '" ++ keyType.kindName ++ "'")
    (some "valid key types: bool, byte, int8..uint64, int128, uint128, string, uuid"))
  match keyType with
  | .scalar _ kind => if validMapKeys.contains kind then pure () else invalid
  | _ => invalid

/-- `bebop_sema_check_self_reference` -/
def checkSelfReference (type : Ty) : Parse Unit := do
  let p ← get
  match p.sema.currentDef, type with
  | some (name, .struct), .defined span refName _ =>
    if refName = name then
      addReport (errorAt 116 span ("Struct " ++ quote name ++ " cannot contain itself directly") none)
    else pure ()
  | _, _ => pure ()

def addReports (reports : List Report) : Parse Unit := modify fun p => { p with reports := p.reports ++ reports }

/-- `bebop__reserved_identifiers` -/
def reservedIdentifiers : List Text := [['A', 'r', 'r', 'a', 'y']]

/-- `bebop__check_reserved_name` -/
def checkReservedName (name : Text) (span : Span) : Parse Unit :=
  if reservedIdentifiers.contains name then
    parseErrorAt span 102 (quote name ++ " is a reserved identifier")
  else pure ()

end Parser

end Bebop.Compiler
