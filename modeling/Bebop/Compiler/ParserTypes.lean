import Bebop.Compiler.ParserState

/-!
# Bebop — types, literals, decorators and expressions

The parts of `bebop_parser.c` that read a type, a literal, the decorators before
something, and the value of an enum member. `bebop__parse_type` and
`bebop__parse_expression` keep a stack of their own; a frame is pushed and popped here
as there, on a list whose head is the top.
-/

namespace Bebop.Compiler

open Fallible

/-! ## Numbers -/

/-- `bebop__digit_val`, where the table has 255 for what is no digit. -/
def digitVal (c : UInt8) : Nat := (hexValue c).getD 255

/-- `bebop__util_parse_decimal` and `bebop__util_parse_hex`: the digits at the front, in
a `uint64_t`; whether a step has made it smaller; and what follows. -/
def parseDigits (base : Nat) : List UInt8 → Nat → Bool → Nat × Bool × List UInt8
  | [], acc, overflow => (acc, overflow, [])
  | c :: s, acc, overflow =>
    if digitVal c < base then
      let next := (acc * base + digitVal c) % 2 ^ 64
      parseDigits base s next (overflow || next < acc)
    else (acc, overflow, c :: s)

/-- The number of `bebop_util_parse_int`, behind its sign. -/
def parseMagnitude (s : List UInt8) : Option Nat :=
  let finish := fun (base : Nat) (digits : List UInt8) =>
    match digits with
    | [] => none
    | c :: _ =>
      if base ≤ digitVal c then none
      else
        match parseDigits base digits 0 false with
        | (value, false, []) => some value
        | _ => none
  match s with
  | c :: d :: rest =>
    if c = '0'.toUInt8 ∧ (d = 'x'.toUInt8 ∨ d = 'X'.toUInt8) then finish 16 rest else finish 10 s
  | _ => finish 10 s

/-- `bebop_util_parse_int` -/
def parseInt (s : List UInt8) : Option Int :=
  match s with
  | [] => none
  | c :: rest =>
    if c = '-'.toUInt8 then
      (parseMagnitude rest).bind fun value => if value > 2 ^ 63 then none else some (-(value : Int))
    else
      (parseMagnitude (if c = '+'.toUInt8 then rest else s)).bind fun value =>
        if value ≥ 2 ^ 63 then none else some (value : Int)

/-! ## Types -/

/-- `bebop__scalar_types` -/
def scalarTypes : List (Text × Scalar) :=
  [(['b', 'o', 'o', 'l'], .bool), (['b', 'y', 't', 'e'], .byte), (['i', 'n', 't', '8'], .int8),
    (['i', 'n', 't', '1', '6'], .int16), (['u', 'i', 'n', 't', '1', '6'], .uint16),
    (['i', 'n', 't', '3', '2'], .int32), (['u', 'i', 'n', 't', '3', '2'], .uint32),
    (['i', 'n', 't', '6', '4'], .int64), (['u', 'i', 'n', 't', '6', '4'], .uint64),
    (['i', 'n', 't', '1', '2', '8'], .int128), (['u', 'i', 'n', 't', '1', '2', '8'], .uint128),
    (['f', 'l', 'o', 'a', 't', '1', '6'], .float16), (['f', 'l', 'o', 'a', 't', '3', '2'], .float32),
    (['f', 'l', 'o', 'a', 't', '6', '4'], .float64), (['b', 'f', 'l', 'o', 'a', 't', '1', '6'], .bfloat16),
    (['s', 't', 'r', 'i', 'n', 'g'], .string), (['u', 'u', 'i', 'd'], .uuid),
    (['t', 'i', 'm', 'e', 's', 't', 'a', 'm', 'p'], .timestamp), (['d', 'u', 'r', 'a', 't', 'i', 'o', 'n'], .duration),
    (['u', 'i', 'n', 't', '8'], .byte), (['s', 'b', 'y', 't', 'e'], .int8), (['h', 'a', 'l', 'f'], .float16),
    (['b', 'f', '1', '6'], .bfloat16), (['g', 'u', 'i', 'd'], .uuid)]

/-- `bebop__parse_lookup_scalar` -/
def lookupScalar (name : Text) : Option Scalar := (scalarTypes.find? fun entry => entry.1 == name).map (·.2)

/-- `bebop__parse_span_from_tokens`, of the spans of two tokens; the ends are `uint32_t`. -/
def spanFromTokens (first last : Span) : Span :=
  let lastEnd := (last.off + last.len) % 2 ^ 32
  if lastEnd < last.off then first
  else
    { off := first.off
      len := if lastEnd ≥ first.off then lastEnd - first.off else first.len
      startLine := first.startLine
      startCol := first.startCol
      endLine := last.endLine
      endCol := last.endCol }

/-- `bebop_type_state_t` -/
inductive TypeState
  | base
  | mapKey
  | mapValue
  | arraySuffix
  | done
  deriving DecidableEq, Repr

/-- `bebop_type_frame_t`; a map's key is with its state. -/
structure TypeFrame where
  state : TypeState
  result : Option Ty
  mapKey : Option Ty
  startTok : Span
  depth : Nat
  deriving DecidableEq, Repr

namespace Parser

/-- A push on a stack that has room for so many frames. -/
def push {α : Type} (capacity : Nat) (frame : α) (stack : List α) : Parse (List α) :=
  if stack.length < capacity then pure (frame :: stack) else fun _ => .error .stack

/-- A part of a dotted name behind its first, if there is one. -/
def dottedNameRound (tooLong : String) : Text × Span → Parse ((Text × Span) ⊕ Option (Text × Span))
  | (name, last) => do
    if ← matchToken .dot then
      if ← consumeAfter .identifier "Expected identifier after '.'" then
        let part ← previousToken
        if name.length + 1 + part.text.length ≥ 512 then
          errorPrevious 142 tooLong
          return .inr none
        else return .inl (name ++ '.' :: part.text, part.span)
      else return .inr none
    else return .inr (some (name, last))

def dottedName (tooLong : String) (name : Text) (last : Span) : Parse (Option (Text × Span)) :=
  overStream (dottedNameRound tooLong) (name, last)

/-- `TYPE_STATE_BASE` for an identifier: a scalar, or a name, which may be dotted. -/
def typeName : Attempt Ty := do
  let tok ← currentToken
  match lookupScalar tok.text with
  | some kind =>
    advance
    return .scalar tok.span kind
  | none =>
    advance
    if ← check .dot then
      if tok.text.length ≥ 512 then
        errorPrevious 142 "Type name too long"
        failure
      else
        let (name, last) ← OptionT.mk (dottedName "Qualified type name too long" tok.text tok.span)
        return .defined (spanFromTokens tok.span last) name none
    else return .defined tok.span tok.text none

/-- `BEBOP_MAX_TYPE_DEPTH` -/
def maxTypeDepth : Nat := 64

/-- `BEBOP_TYPE_STACK_SIZE` -/
def typeStackSize : Nat := 128

def innerFrame (depth : Nat) : Parse TypeFrame := do
  return { state := .base, result := none, mapKey := none, startTok := (← currentToken).span, depth := depth + 1 }

/-- `TYPE_STATE_BASE` -/
def typeBase (frame : TypeFrame) (below : List TypeFrame) : Attempt (List TypeFrame) := do
  match (← currentToken).kind with
  | .map =>
    advance
    expect (consumeAfter .lbracket "Expected '[' after 'map'")
    if below.length + 1 ≥ typeStackSize then
      errorPrevious 103 "Type nesting too deep"
      failure
    else push typeStackSize (← innerFrame frame.depth) ({ frame with state := .mapKey } :: below)
  | .array =>
    errorCurrent 104 "Use postfix array syntax 'T[]' instead of 'array[T]'"
    failure
  | .identifier =>
    let type ← typeName
    return { frame with state := .arraySuffix, result := some type } :: below
  | _ =>
    errorCurrent 105 "Expected type"
    failure

/-- `TYPE_STATE_ARRAY_SUFFIX` -/
def typeSuffix (frame : TypeFrame) (element : Ty) (below : List TypeFrame) : Attempt (List TypeFrame) := do
  if ← matchToken .lbracket then
    if frame.depth + 1 > maxTypeDepth then
      errorPrevious 103 "Type nesting too deep (maximum 64 levels)"
      failure
    else if ← check .number then
      advance
      let sizeTok ← previousToken
      match parseInt sizeTok.lexeme with
      | none =>
        parseErrorAt sizeTok.span 103 "Fixed array size must be 1 to 65535"
        failure
      | some size =>
        if size < 1 ∨ size > 65535 then
          parseErrorAt sizeTok.span 103 "Fixed array size must be 1 to 65535"
          failure
        else
          expect (consume .rbracket "Expected ']'")
          let span := spanFromTokens frame.startTok (← previousToken).span
          return { frame with depth := frame.depth + 1, result := some (.fixedArray span element size.toNat) } :: below
    else
      expect (consume .rbracket "Expected ']' for array type")
      let span := spanFromTokens frame.startTok (← previousToken).span
      return { frame with depth := frame.depth + 1, result := some (.array span element) } :: below
  else return { frame with state := .done } :: below

/-- One round of `bebop__parse_type`: the stack behind it, or the type. A frame that is
done hands its result to the one below, which waits for it. -/
def typeStep (frame : TypeFrame) (below : List TypeFrame) : Attempt (List TypeFrame ⊕ Ty) := do
  if frame.depth > maxTypeDepth then
    errorPrevious 103 "Type nesting too deep (maximum 64 levels)"
    failure
  else
    match frame.state, frame.result with
    | .base, _ => return .inl (← typeBase frame below)
    | .mapKey, some key =>
      checkMapKeyType key
      expect (consume .comma "Expected ',' between map key and value types")
      if below.length + 1 ≥ typeStackSize then
        errorPrevious 103 "Type nesting too deep"
        failure
      else
        return .inl (← push typeStackSize (← innerFrame frame.depth)
          ({ frame with state := .mapValue, result := none, mapKey := some key } :: below))
    | .mapValue, some value =>
      match frame.mapKey with
      | none => (throw .stack : Parse _)
      | some key =>
        expect (consumeAfter .rbracket "Expected ']' after map value type")
        let span := spanFromTokens frame.startTok (← previousToken).span
        return .inl ({ frame with state := .arraySuffix, result := some (.map span key value) } :: below)
    | .arraySuffix, some element => return .inl (← typeSuffix frame element below)
    | .done, some result =>
      match below with
      | [] => return .inr result
      | waiting :: below => return .inl ({ waiting with result := some result } :: below)
    | _, none => (throw .stack : Parse _)

def typeRound : List TypeFrame → Parse (List TypeFrame ⊕ Option Ty)
  | [] => throw .stack
  | frame :: below => do
    match ← (typeStep frame below).run with
    | none => return .inr none
    | some (.inl stack) => return .inl stack
    | some (.inr type) => return .inr (some type)

/-- `bebop__parse_type`: a type makes no more than five rounds for each token. -/
def parseType : Attempt Ty := OptionT.mk do
  let startTok := (← currentToken).span
  loop Fault.fuel typeRound (8 * (← rounds)) [⟨.base, none, none, startTok, 0⟩]

end Parser

/-! ## Literals -/

/-- `BEBOP_TOLOWER` -/
def toLower (c : UInt8) : UInt8 := if 'A'.toUInt8 ≤ c ∧ c ≤ 'Z'.toUInt8 then c + 32 else c

/-- `bebop_streqni` -/
def equalsIgnoringCase (word : List Char) (s : List UInt8) : Bool := s.map toLower == word.map Char.toUInt8

namespace Parser

/-- The loop of `bebop__parse_substitute_env_vars`; no text where it fails. -/
def substituteLoop (env : List (List UInt8 × List UInt8)) :
    Nat → List UInt8 → List UInt8 → Bool → Parse (Option (List UInt8) × Bool)
  | 0, _, result, had => return (some result, had)
  | _ + 1, [], result, had => return (some result, had)
  | fuel + 1, c :: s, result, had =>
    if c = '$'.toUInt8 ∧ s.head? = some '('.toUInt8 then
      let name := s.tail.takeWhile (· != ')'.toUInt8)
      let rest := s.tail.dropWhile (· != ')'.toUInt8)
      if rest = [] then do
        errorPrevious 123 "Unclosed environment variable reference"
        return (none, had)
      else if name.length ≥ 256 then do
        errorPrevious 123 "Environment variable name too long (max 255 characters)"
        return (none, had)
      else
        -- a C string ends at a zero
        let name := name.takeWhile (· != 0)
        match env.find? (·.1 == name) with
        | some entry => substituteLoop env fuel rest.tail (result ++ entry.2) true
        | none => do
          errorPrevious 129
            ("Environment variable " ++ quote (name.map fun byte => Char.ofNat byte.toNat) ++ " not found")
          substituteLoop env fuel rest.tail (result ++ (c :: s).take ((c :: s).length - rest.length + 1)) had
    else substituteLoop env fuel s (result ++ [c]) had

/-- `bebop__parse_substitute_env_vars` -/
def substituteEnvVars (src : List UInt8) : Parse (List UInt8 × Bool) := do
  let (result, had) ← substituteLoop (← get).host.env src.length src [] false
  match result with
  | some result => return (if had then internN result else src, had)
  | none => return (src, had)

/-- `bebop__parse_number` -/
def parseNumber (str : List UInt8) (expected : Option Scalar) : Attempt LiteralValue := do
  let float := (← (get : Parse Parser)).host.parseFloat str
  let preferFloat := expected = some .float32 ∨ expected = some .float64
  match (if preferFloat then float else none), parseInt str, float with
  | some bits, _, _ => return .float bits
  | none, some value, _ => return .int value
  | none, none, some bits => return .float bits
  | none, none, none =>
    errorPrevious 127 "Invalid number literal"
    failure

/-- The case of a string in `bebop__parse_literal`. -/
def stringLiteral (tok : Token) (expected : Option Scalar) : Attempt LiteralValue := do
  let (value, hadSubst) ← (substituteEnvVars tok.lexeme : Parse _)
  let host := (← (get : Parse Parser)).host
  match expected with
  | some .uuid =>
    match host.parseUuid value with
    | some uuid => return .uuid uuid
    | none =>
      errorPrevious 128 "Invalid UUID format"
      failure
  | some .timestamp =>
    match host.parseTimestamp value with
    | some timestamp => return .timestamp timestamp
    | none =>
      errorPrevious 123 "Invalid timestamp format"
      failure
  | some .duration =>
    match host.parseDuration value with
    | some duration => return .duration duration
    | none =>
      errorPrevious 123 "Invalid duration format"
      failure
  | some .byte => return .bytes value
  | _ => return .string value hadSubst

/-- `bebop__parse_literal` -/
def parseLiteral (expected : Option Scalar) : Attempt Literal := do
  let tok ← currentToken
  let none' : Attempt Literal := do
    errorCurrent 123 "Expected literal value"
    failure
  match tok.kind with
  | .true =>
    advance
    return ⟨tok.span, .bool true⟩
  | .false =>
    advance
    return ⟨tok.span, .bool false⟩
  | .string =>
    advance
    return ⟨tok.span, ← stringLiteral tok expected⟩
  | .bytes =>
    advance
    return ⟨tok.span, .bytes tok.lexeme⟩
  | .number =>
    advance
    return ⟨tok.span, ← parseNumber tok.lexeme expected⟩
  | .identifier =>
    if equalsIgnoringCase ['i', 'n', 'f'] tok.lexeme || equalsIgnoringCase ['n', 'a', 'n'] tok.lexeme then
      advance
      match (← (get : Parse Parser)).host.parseFloat tok.lexeme with
      | some bits => return ⟨tok.span, .float bits⟩
      | none => none'
    else none'
  | .minus =>
    advance
    let numTok ← currentToken
    if numTok.kind = .identifier ∧ equalsIgnoringCase ['i', 'n', 'f'] numTok.lexeme then
      advance
      -- minus infinity
      return ⟨spanFromTokens tok.span (← previousToken).span, .float 0xfff0000000000000⟩
    else if numTok.kind = .number then
      advance
      if numTok.lexeme.length > 126 then
        errorPrevious 127 "Number too long"
        failure
      else
        let span := spanFromTokens tok.span (← previousToken).span
        return ⟨span, ← parseNumber ('-'.toUInt8 :: numTok.lexeme) expected⟩
    else
      errorCurrent 123 "Expected number after '-'"
      failure
  | _ => none'

/-! ## Decorators -/

/-- `bebop_decorator_arg_t` -/
structure DecoratorArg where
  name : Option Text
  span : Span
  value : Literal
  deriving DecidableEq, Repr

/-- The name before an argument of a decorator, if there is one. -/
def argName : Parse (Option Token) := do
  let next ← peek 1
  if (← check .identifier) && next.kind = .colon then
    advance
    let name ← previousToken
    advance
    return some name
  else return none

/-- The comma before an argument that is not the first. -/
def argSeparator (args : List DecoratorArg) : Parse Bool :=
  if args.isEmpty then pure true else consume .comma "Expected ',' between decorator arguments"

/-- An argument of a decorator, with the comma before it. -/
def decoratorArgsRound (args : List DecoratorArg) : Parse (List DecoratorArg ⊕ List DecoratorArg) := do
  if (← check .rparen) || (← atEnd) then return .inr args
  else if ← argSeparator args then
    let name ← argName
    match ← (parseLiteral (some .string)).run with
    | none => return .inr args
    | some value =>
      let span := (name.map fun name => spanFromTokens name.span value.span).getD value.span
      return .inl (args ++ [⟨name.map Token.text, span, value⟩])
  else return .inr args

/-- `bebop__parse_decorator_args` -/
def parseDecoratorArgs : Parse (List DecoratorArg) := overStream decoratorArgsRound []

/-- The tokens at which the search for the next decorator stops. -/
def stopsDecorators (kind : TokenKind) : Bool :=
  [.eof, .at, .struct, .message, .enum, .union, .service, .const].contains kind

def skipDecoratorRound : Parse (Unit ⊕ Unit) := do
  if stopsDecorators (← currentToken).kind then return .inr ()
  else
    advance
    return .inl ()

def skipDecorator : Parse Unit := overStream (fun _ => skipDecoratorRound) ()

/-- The name of a decorator, whose first part has been read. -/
def decoratorName (first : Token) : Attempt Text := do
  if ← check .dot then
    if first.text.length ≥ 512 then
      errorPrevious 142 "Decorator name too long"
      failure
    else
      let (name, _) ← OptionT.mk (dottedName "Decorator name too long" first.text first.span)
      return name
  else return first.text

def decoratorRest (atSpan : Span) (first : Token) : Attempt Decorator := do
  let name ← decoratorName first
  if ← matchToken .lparen then
    let _ ← (parseDecoratorArgs : Parse _)
    expect (consumeAfter .rparen "Expected ')' after decorator arguments")
    return ⟨name, spanFromTokens atSpan (← previousToken).span, none⟩
  else return ⟨name, spanFromTokens atSpan (← previousToken).span, none⟩

def decoratorsRound (decorators : List Decorator) : Parse (List Decorator ⊕ List Decorator) := do
  if ← check .at then
    advance
    let atTok ← previousToken
    if ← consume .identifier "Expected decorator name" then
      match ← (decoratorRest atTok.span (← previousToken)).run with
      | some decorator => return .inl (decorators ++ [decorator])
      | none => return .inr decorators
    else
      skipDecorator
      return .inl decorators
  else return .inr decorators

/-- `bebop__parse_decorators`; the values of the arguments are not kept. -/
def parseDecorators : Parse (List Decorator) := overStream decoratorsRound []

/-! ## The value of an enum member -/

/-- `bebop__op_t` -/
inductive ExprOp
  | or
  | and
  | shift
  deriving DecidableEq, Repr

/-- The operators as the numbers that the source compares. -/
def ExprOp.rank : ExprOp → Nat
  | .or => 1
  | .and => 2
  | .shift => 3

/-- `bebop__expr_frame_t`, each stack with its top first -/
structure ExprFrame where
  values : List (BitVec 64)
  ops : List ExprOp
  negateNext : Bool
  deriving DecidableEq, Repr

/-- `bebop__expr_state_t` -/
inductive ExprState
  | operand
  | operator
  deriving DecidableEq, Repr

/-- `bebop__EXPR_STACK_SIZE` -/
def exprStackSize : Nat := 32

/-- `bebop__parse_apply_op`, on `int64_t` -/
def applyOp (a b : BitVec 64) : ExprOp → BitVec 64
  | .or => a ||| b
  | .and => a &&& b
  | .shift => if b.toNat < 64 then a <<< b.toNat else 0

/-- The loops that apply operators, down to one that must wait. -/
def reduceOps (waits : ExprOp → Bool) : List ExprOp → List (BitVec 64) → Option (List ExprOp × List (BitVec 64))
  | [], values => some ([], values)
  | op :: ops, values =>
    if waits op then some (op :: ops, values)
    else
      match values with
      | b :: a :: values => reduceOps waits ops (applyOp a b op :: values)
      | _ => none

variable (members : List EnumMember)

/-- `bebop__parse_lookup_enum_member` -/
def lookupEnumMember (name : Text) : Option (BitVec 64) :=
  (members.find? fun member => member.name = name).map fun member => BitVec.ofInt 64 member.value

/-- `bebop__parse_find_enum_with_member` -/
def findEnumWithMember (definitions : List Def) (name : Text) : Option Def :=
  definitions.find? fun d =>
    match d.body with
    | .enum _ members => members.any fun member => member.name = name
    | _ => false

def exprOperand : Attempt (BitVec 64) := do
  if ← check .number then
    advance
    let tok ← previousToken
    match parseInt tok.lexeme with
    | some value => return BitVec.ofInt 64 value
    | none =>
      errorPrevious 127 "Invalid integer literal"
      failure
  else if ← check .identifier then
    advance
    let tok ← previousToken
    match lookupEnumMember members tok.text with
    | some value => return value
    | none =>
      match findEnumWithMember (← (get : Parse Parser)).definitions tok.text with
      | some other =>
        parseErrorAt tok.span 123 (quote tok.text ++ " is a member of enum " ++ quote other.name ++
          "; an enum value cannot reference another enum's members")
        failure
      | none =>
        parseErrorAt tok.span 123 ("Unknown enum member " ++ quote tok.text)
        failure
  else
    errorCurrent 123 "Expected number, identifier, or '(' in expression"
    failure

def pushValue (frame : ExprFrame) (value : BitVec 64) : Attempt ExprFrame := do
  if frame.values.length ≥ exprStackSize then
    errorPrevious 123 "Expression too complex"
    failure
  else return { frame with values := ← (push exprStackSize value frame.values : Parse _) }

/-- `EXPR_STATE_OPERAND` -/
def exprOperandStep (frame : ExprFrame) (below : List ExprFrame) :
    Attempt (ExprState × List ExprFrame) := do
  let negate := if ← matchToken .minus then !frame.negateNext else frame.negateNext
  if ← matchToken .lparen then
    if below.length + 1 ≥ exprStackSize then
      errorPrevious 123 "Expression too deeply nested"
      failure
    else
      return (.operand, ← (push exprStackSize ⟨[], [], false⟩ ({ frame with negateNext := negate } :: below) : Parse _))
  else
    let value ← exprOperand members
    let frame ← pushValue { frame with negateNext := false } (if negate then -value else value)
    return (.operator, frame :: below)

def exprOperator : Parse (Option ExprOp) := do
  if ← check .pipe then return some .or
  else if ← check .ampersand then return some .and
  else
    let next ← peek 1
    if (← check .langle) && next.kind = .langle then return some .shift else return none

/-- The end of a frame: the whole value, or one for the frame below. -/
def exprClose (frame : ExprFrame) (below : List ExprFrame) :
    Attempt ((ExprState × List ExprFrame) ⊕ BitVec 64) := do
  match reduceOps (fun _ => false) frame.ops frame.values with
  | none =>
    errorPrevious 123 "Invalid expression: missing operand"
    failure
  | some (_, values) =>
    let result := values.getLast?.getD 0
    match below with
    | [] => return .inr result
    | outer :: below =>
      let _ ← (consume .rparen "Expected ')'" : Parse _)
      let frame ← pushValue { outer with negateNext := false } (if outer.negateNext then -result else result)
      return .inl (.operator, frame :: below)

/-- `EXPR_STATE_OPERATOR` -/
def exprOperatorStep (frame : ExprFrame) (below : List ExprFrame) :
    Attempt ((ExprState × List ExprFrame) ⊕ BitVec 64) := do
  match ← (OptionT.lift exprOperator : Attempt (Option ExprOp)) with
  | none => exprClose frame below
  | some op =>
    match reduceOps (fun waiting => waiting.rank < op.rank) frame.ops frame.values with
    | none =>
      errorPrevious 123 "Invalid expression: missing operand"
      failure
    | some (ops, values) =>
      if ops.length ≥ exprStackSize then
        errorPrevious 123 "Expression too complex"
        failure
      else
        let ops ← (push exprStackSize op ops : Parse _)
        if op = .shift then
          advance
          advance
        else advance
        return .inl (.operand, { frame with values := values, ops := ops } :: below)

def exprRound : ExprState × List ExprFrame → Parse ((ExprState × List ExprFrame) ⊕ BitVec 64)
  | (_, []) => throw .stack
  | (.operand, frame :: below) => do
    match ← (exprOperandStep members frame below).run with
    | some next => return .inl next
    | none => return .inr 0
  | (.operator, frame :: below) => do
    match ← (exprOperatorStep frame below).run with
    | some next => return next
    | none => return .inr 0

/-- `bebop__parse_expression`, which gives zero where it fails. -/
def parseExpression : Parse (BitVec 64) := do
  loop Fault.fuel (exprRound members) (8 * (← rounds)) (.operand, [⟨[], [], false⟩])

end Parser

end Bebop.Compiler
