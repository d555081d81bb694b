import Bebop.Compiler.Diagnostics

/-!
# Bebop — the scanner

`bebop_scanner.c` with the character classes, `bebop_unescape_char` and the UTF-8 functions
it calls. The arena does not run out, so the scanner's own error state, which only that
sets, is left out. A `Scanner` holds the bytes it has passed, last first, and those ahead.
Reading past the end gives the byte zero, as `bebop__scan_peek_char` does; a loop runs for
at most as many rounds as there are bytes ahead.
-/

namespace Bebop.Compiler

/-! ## Characters -/

def lineFeed : UInt8 := 0x0a
def carriageReturn : UInt8 := 0x0d
def doubleQuote : UInt8 := 0x22
def singleQuote : UInt8 := 0x27
def backslash : UInt8 := 0x5c

/-- `BEBOP_IS_DIGIT` -/
def isDigit (c : UInt8) : Bool := '0'.toUInt8 ≤ c && c ≤ '9'.toUInt8

/-- `BEBOP_IS_ALPHA` -/
def isAlpha (c : UInt8) : Bool :=
  ('A'.toUInt8 ≤ c && c ≤ 'Z'.toUInt8) || ('a'.toUInt8 ≤ c && c ≤ 'z'.toUInt8)

/-- `BEBOP_IS_IDENT_START` -/
def isIdentStart (c : UInt8) : Bool := isAlpha c || c == '_'.toUInt8

/-- `BEBOP_IS_IDENT_CHAR` -/
def isIdentChar (c : UInt8) : Bool := isIdentStart c || isDigit c

/-- `BEBOP_IS_WHITESPACE` -/
def isWhitespace (c : UInt8) : Bool := c == 0x20 || c == 0x09

/-- `BEBOP_IS_NEWLINE` -/
def isNewline (c : UInt8) : Bool := c == lineFeed || c == carriageReturn

/-- `BEBOP_HEX_VALUE`, where the source has −1 for what is no digit. -/
def hexValue (c : UInt8) : Option Nat :=
  if '0'.toUInt8 ≤ c ∧ c ≤ '9'.toUInt8 then some (c.toNat - '0'.toNat)
  else if 'A'.toUInt8 ≤ c ∧ c ≤ 'F'.toUInt8 then some (c.toNat - 'A'.toNat + 10)
  else if 'a'.toUInt8 ≤ c ∧ c ≤ 'f'.toUInt8 then some (c.toNat - 'a'.toNat + 10)
  else none

/-! ## UTF-8 and escapes -/

/-- `bebop_utf8_encode`; `none` where it returns 0. -/
def utf8Encode (cp : Nat) : Option (List UInt8) :=
  if 0xD800 ≤ cp ∧ cp ≤ 0xDFFF ∨ 0x10FFFF < cp then none
  else if cp < 0x80 then some [.ofNat cp]
  else if cp < 0x800 then some [.ofNat (cp >>> 6 ||| 0xC0), .ofNat (cp &&& 0x3F ||| 0x80)]
  else if cp < 0x10000 then
    some [.ofNat (cp >>> 12 ||| 0xE0), .ofNat (cp >>> 6 &&& 0x3F ||| 0x80), .ofNat (cp &&& 0x3F ||| 0x80)]
  else
    some [.ofNat (cp >>> 18 ||| 0xF0), .ofNat (cp >>> 12 &&& 0x3F ||| 0x80),
      .ofNat (cp >>> 6 &&& 0x3F ||| 0x80), .ofNat (cp &&& 0x3F ||| 0x80)]

/-- `bebop_utf8_width_table` at the top five bits of a byte -/
def utf8Width (a : UInt8) : Nat :=
  [1, 1, 1, 1, 1, 1, 1, 1, 1, 1, 1, 1, 1, 1, 1, 1, 0, 0, 0, 0, 0, 0, 0, 0, 2, 2, 2, 2, 3, 3, 4, 0].getD
    (a.toNat >>> 3) 0

/-- `(b & 0xC0) == 0x80` -/
def isContinuation (b : UInt8) : Bool := b &&& 0xC0 == 0x80

/-- `bebop_utf8_decode`: the code point and its width; `none` where it gives `BEBOP_CP_INVALID`. -/
def utf8Decode (s : List UInt8) : Option (Nat × Nat) :=
  match s with
  | [] => none
  | a :: s =>
    if a < 0x80 then some (a.toNat, 1)
    else
      match utf8Width a, s with
      | 2, b :: _ =>
        let code := (a.toNat &&& 0x1F) <<< 6 ||| (b.toNat &&& 0x3F)
        if !isContinuation b then none
        else if code < 0x80 then none
        else some (code, 2)
      | 3, b :: c :: _ =>
        let code := (a.toNat &&& 0x0F) <<< 12 ||| (b.toNat &&& 0x3F) <<< 6 ||| (c.toNat &&& 0x3F)
        if !isContinuation b || !isContinuation c then none
        else if code < 0x800 then none
        else if 0xD800 ≤ code ∧ code ≤ 0xDFFF then none
        else some (code, 3)
      | 4, b :: c :: d :: _ =>
        let code := (a.toNat &&& 0x07) <<< 18 ||| (b.toNat &&& 0x3F) <<< 12 ||| (c.toNat &&& 0x3F) <<< 6 |||
          (d.toNat &&& 0x3F)
        if !isContinuation b || !isContinuation c || !isContinuation d then none
        else if code < 0x10000 ∨ 0x10FFFF < code then none
        else some (code, 4)
      | _, _ => none

/-- The loop of `bebop_utf8_valid`. -/
def utf8ValidLoop : Nat → List UInt8 → Bool
  | _, [] => true
  | 0, _ :: _ => false
  | fuel + 1, c :: s =>
    match utf8Decode (c :: s) with
    | none => false
    | some (_, consumed) => utf8ValidLoop fuel ((c :: s).drop consumed)

/-- `bebop_utf8_valid` -/
def utf8Valid (s : List UInt8) : Bool := utf8ValidLoop s.length s

/-- The digits of `\u` up to the closing brace: the code point and their number. -/
def unescapeDigits : List UInt8 → Nat → Nat → Option (Nat × Nat)
  | [], _, _ => none
  | c :: s, codepoint, digits =>
    if c = 0x7d then if digits = 0 then none else some (codepoint, digits)
    else
      match hexValue c with
      | none => none
      | some val => if digits + 1 > 6 then none else unescapeDigits s (codepoint <<< 4 ||| val) (digits + 1)

/-- `bebop_unescape_char`: the escape and its length; `none` where it returns 0. -/
def unescapeChar (s : List UInt8) : Option (List UInt8 × Nat) :=
  match s with
  | [] => none
  | c :: s =>
    if c = backslash then some ([backslash], 1)
    else if c = 'n'.toUInt8 then some ([lineFeed], 1)
    else if c = 'r'.toUInt8 then some ([carriageReturn], 1)
    else if c = 't'.toUInt8 then some ([0x09], 1)
    else if c = '0'.toUInt8 then some ([0], 1)
    else if c = doubleQuote then some ([doubleQuote], 1)
    else if c = singleQuote then some ([singleQuote], 1)
    else if c = 'x'.toUInt8 then
      match s with
      | hi :: lo :: _ =>
        match hexValue hi, hexValue lo with
        | some hi, some lo => some ([.ofNat (hi <<< 4 ||| lo)], 3)
        | _, _ => none
      | _ => none
    else if c = 'u'.toUInt8 then
      match s with
      | brace :: digit :: s =>
        if brace = 0x7b then
          match unescapeDigits (digit :: s) 0 0 with
          | none => none
          | some (codepoint, digits) =>
            match utf8Encode codepoint with
            | none => none
            | some out => some (out, digits + 3)
        else none
      | _ => none
    else none

/-! ## Tokens -/

/-- `bebop_intern_n`: the null string of a text whose length has no room in 32 bits. -/
def internN (bytes : List UInt8) : List UInt8 := if bytes.length > 4294967295 then [] else bytes

/-- `bebop_token_kind_t` -/
inductive TokenKind
  | enum | struct | message | mut | readonly | map | array | union | service | stream | import | edition
  | package | export | local | true | false | const | with
  | identifier | string | bytes | number | blockComment
  | lparen | rparen | lbrace | rbrace | lbracket | rbracket | langle | rangle | colon | semicolon | comma
  | dot | question | slash | equals | at | dollar | backslash | backtick | tilde | ampersand | pipe | minus
  | arrow | hash | bang | rawBlock
  | eof | error
  deriving DecidableEq, Repr

/-- `bebop_trivia_kind_t` -/
inductive TriviaKind
  | whitespace
  | newline
  | lineComment
  | blockComment
  | docComment
  deriving DecidableEq, Repr

/-- `bebop_trivia_t` -/
structure Trivia where
  kind : TriviaKind
  span : Span
  deriving DecidableEq, Repr

/-- `bebop_token_t`, each list of trivia by its items. -/
structure Token where
  kind : TokenKind
  span : Span
  lexeme : List UInt8 := []
  leading : List Trivia := []
  trailing : List Trivia := []
  deriving DecidableEq, Repr

/-- `BEBOP_KEYWORDS` -/
def keywords : List (List Char × TokenKind) :=
  [(['e', 'n', 'u', 'm'], .enum),
   (['s', 't', 'r', 'u', 'c', 't'], .struct),
   (['m', 'e', 's', 's', 'a', 'g', 'e'], .message),
   (['m', 'u', 't'], .mut),
   (['r', 'e', 'a', 'd', 'o', 'n', 'l', 'y'], .readonly),
   (['m', 'a', 'p'], .map),
   (['a', 'r', 'r', 'a', 'y'], .array),
   (['u', 'n', 'i', 'o', 'n'], .union),
   (['s', 'e', 'r', 'v', 'i', 'c', 'e'], .service),
   (['s', 't', 'r', 'e', 'a', 'm'], .stream),
   (['i', 'm', 'p', 'o', 'r', 't'], .import),
   (['e', 'd', 'i', 't', 'i', 'o', 'n'], .edition),
   (['p', 'a', 'c', 'k', 'a', 'g', 'e'], .package),
   (['e', 'x', 'p', 'o', 'r', 't'], .export),
   (['l', 'o', 'c', 'a', 'l'], .local),
   (['t', 'r', 'u', 'e'], .true),
   (['f', 'a', 'l', 's', 'e'], .false),
   (['c', 'o', 'n', 's', 't'], .const),
   (['w', 'i', 't', 'h'], .with)]

/-- `bebop__scan_lookup_keyword` -/
def scanLookupKeyword (str : List UInt8) : TokenKind :=
  match keywords.find? (fun kw => kw.1.map Char.toUInt8 == str) with
  | some kw => kw.2
  | none => .identifier

/-- The tokens of one byte, from the switch of `bebop__scan_token`. -/
def punctuation : List (UInt8 × TokenKind) :=
  [('('.toUInt8, .lparen), (')'.toUInt8, .rparen), (0x7b, .lbrace), (0x7d, .rbrace), (']'.toUInt8, .rbracket),
   ('<'.toUInt8, .langle), ('>'.toUInt8, .rangle), (':'.toUInt8, .colon), (';'.toUInt8, .semicolon),
   (','.toUInt8, .comma), ('.'.toUInt8, .dot), ('?'.toUInt8, .question), ('/'.toUInt8, .slash),
   ('='.toUInt8, .equals), ('@'.toUInt8, .at), ('#'.toUInt8, .hash), ('!'.toUInt8, .bang),
   ('$'.toUInt8, .dollar), (Bebop.Compiler.backslash, .backslash), (0x60, .backtick), ('~'.toUInt8, .tilde),
   ('&'.toUInt8, .ampersand), ('|'.toUInt8, .pipe)]

/-! ## The scanner's state -/

/-- `bebop__scanner_t`, with what it has reported to the schema. -/
structure Scanner where
  before : List UInt8
  rest : List UInt8
  line : Nat
  col : Nat
  reports : List Report
  deriving DecidableEq, Repr

namespace Scanner

/-- The state in which `bebop__scan_with_schema` begins. -/
def start (source : List UInt8) : Scanner := ⟨[], source, 1, 1, []⟩

variable (s : Scanner)

def source : List UInt8 := s.before.reverse ++ s.rest

def pos : Nat := s.before.length

/-- `bebop__scan_peek_char` -/
def peek : UInt8 := s.rest.headD 0

/-- `bebop__scan_peek_char_at` -/
def peekAt (offset : Nat) : UInt8 := s.rest.getD offset 0

/-- `bebop__scan_advance`; the line and the column are `uint32_t`. -/
def advance : Scanner :=
  match s.rest with
  | [] => s
  | c :: rest =>
    if c = lineFeed then
      { s with before := c :: s.before, rest := rest, line := (s.line + 1) % 2 ^ 32, col := 1 }
    else if c = carriageReturn then
      match rest with
      | [] => { s with before := c :: s.before, rest := [], line := (s.line + 1) % 2 ^ 32, col := 1 }
      | d :: rest =>
        if d = lineFeed then
          { s with before := d :: c :: s.before, rest := rest, line := (s.line + 1) % 2 ^ 32, col := 1 }
        else
          { s with before := c :: s.before, rest := d :: rest, line := (s.line + 1) % 2 ^ 32, col := 1 }
    else { s with before := c :: s.before, rest := rest, col := (s.col + 1) % 2 ^ 32 }

/-- `n` calls of `bebop__scan_advance` -/
def advanceN : Nat → Scanner → Scanner
  | 0, s => s
  | n + 1, s => advanceN n s.advance

/-- The rounds of a loop that advances while a condition on the state holds. -/
def advanceLoop (cond : Scanner → Bool) : Nat → Scanner → Scanner
  | 0, s => s
  | fuel + 1, s => if cond s then advanceLoop cond fuel s.advance else s

def advanceWhile (cond : Scanner → Bool) (s : Scanner) : Scanner := advanceLoop cond s.rest.length s

/-- `bebop__scan_make_span` at a state, for what began at another. -/
def makeSpan (s start : Scanner) : Span where
  off := start.pos % 2 ^ 32
  len := (s.pos - start.pos) % 2 ^ 32
  startLine := start.line
  startCol := start.col
  endLine := s.line
  endCol := s.col

/-- `bebop__schema_add_diagnostic` with an error and no hint. -/
def report (code : Nat) (span : Span) (message : String) : Scanner :=
  { s with reports := s.reports ++ [⟨⟨.error, code, span⟩, message, none⟩] }

/-! ## Trivia -/

/-- `bebop__scan_skip_whitespace` -/
def skipWhitespace : List Trivia × Scanner :=
  let s' := s.advanceWhile fun s => isWhitespace s.peek
  if s'.pos > s.pos then ([⟨.whitespace, s'.makeSpan s⟩], s') else ([], s')

/-- `bebop__scan_skip_newline` -/
def skipNewline : Option (Trivia × Scanner) :=
  if !isNewline s.peek then none
  else
    let s' := s.advance
    some (⟨.newline, s'.makeSpan s⟩, s')

/-- `bebop__scan_skip_line_comment` -/
def skipLineComment : Option (Trivia × Scanner) :=
  if s.peek != '/'.toUInt8 || s.peekAt 1 != '/'.toUInt8 then none
  else
    let isDoc := s.peekAt 2 == '/'.toUInt8
    let s' := s.advance.advance.advanceWhile fun s => s.peek != 0 && !isNewline s.peek
    some (⟨if isDoc then .docComment else .lineComment, s'.makeSpan s⟩, s')

/-- `bebop__scan_skip_block_comment` -/
def skipBlockComment : Option (Trivia × Scanner) :=
  if s.peek != '/'.toUInt8 || s.peekAt 1 != '*'.toUInt8 then none
  else
    let isDoc := s.peekAt 2 == '*'.toUInt8 && s.peekAt 3 != '/'.toUInt8
    let kind := if isDoc then .docComment else .blockComment
    let s' := s.advance.advance.advanceWhile fun s =>
      s.peek != 0 && !(s.peek == '*'.toUInt8 && s.peekAt 1 == '/'.toUInt8)
    if s'.peek != 0 then
      let s' := s'.advance.advance
      some (⟨kind, s'.makeSpan s⟩, s')
    else
      -- BEBOP_DIAG_UNTERMINATED_COMMENT
      some (⟨kind, s'.makeSpan s⟩, s'.report 125 (s'.makeSpan s) "Unterminated block comment")

/-- The loop of `bebop__scan_skip_leading_trivia`, with the trivia it collects. -/
def leadingLoop : Nat → Scanner → List Trivia × Scanner
  | 0, s => ([], s)
  | fuel + 1, s =>
    let (blank, s) := s.skipWhitespace
    match s.skipNewline <|> s.skipLineComment <|> s.skipBlockComment with
    | some (trivia, s) =>
      let (more, s) := leadingLoop fuel s
      (blank ++ trivia :: more, s)
    | none => (blank, s)

/-- `bebop__scan_skip_leading_trivia` -/
def skipLeadingTrivia : List Trivia × Scanner := leadingLoop (s.rest.length + 1) s

/-- The loop of `bebop__scan_collect_trailing_trivia`: a newline ends it. -/
def trailingLoop : Nat → Scanner → List Trivia × Scanner
  | 0, s => ([], s)
  | fuel + 1, s =>
    let (blank, s) := s.skipWhitespace
    match s.skipLineComment <|> s.skipBlockComment with
    | some (trivia, s) =>
      let (more, s) := trailingLoop fuel s
      (blank ++ trivia :: more, s)
    | none =>
      match s.skipNewline with
      | some (trivia, s) => (blank ++ [trivia], s)
      | none => (blank, s)

/-- `bebop__scan_collect_trailing_trivia` -/
def collectTrailingTrivia : List Trivia × Scanner := trailingLoop (s.rest.length + 1) s

/-! ## Tokens of the source -/

/-- The bytes between two states, from `source + start`. -/
def lexeme (s start : Scanner) : List UInt8 := start.rest.take (s.pos - start.pos)

/-- `bebop__scan_identifier` -/
def scanIdentifier : Token × Scanner :=
  let s' := s.advanceWhile fun s => isIdentChar s.peek
  ({ kind := scanLookupKeyword (s'.lexeme s), span := s'.makeSpan s, lexeme := internN (s'.lexeme s) }, s')

/-- `bebop__scan_number`: a minus sign goes on with it behind an `e` only. -/
def scanNumber : Token × Scanner :=
  let s' := s.advanceWhile fun s =>
    (isIdentChar s.peek || s.peek == '.'.toUInt8 || s.peek == '-'.toUInt8) &&
      !(s.peek == '-'.toUInt8 && s.before.headD 0 != 'e'.toUInt8 && s.before.headD 0 != 'E'.toUInt8)
  ({ kind := .number, span := s'.makeSpan s, lexeme := internN (s'.lexeme s) }, s')

/-- The loop over the text of a literal, with what it has put into its buffer. It ends behind
the closing quote, at a byte zero or the end of the source, or behind a bad escape. -/
def literalLoop (quote : UInt8) : Nat → Scanner → List UInt8 → Option (List UInt8) × Scanner
  | 0, s, buf => (some buf, s)
  | fuel + 1, s, buf =>
    if s.peek = 0 then (some buf, s)
    else if s.peek = quote then
      if s.peekAt 1 = quote then literalLoop quote fuel s.advance.advance (buf ++ [quote])
      else (some buf, s.advance)
    else if s.peek = backslash then
      match unescapeChar s.advance.rest with
      | none =>
        -- BEBOP_DIAG_INVALID_ESCAPE
        (none, s.advance.report 126 (s.advance.makeSpan s) "Invalid escape sequence")
      | some (out, consumed) => literalLoop quote fuel (s.advance.advanceN consumed) (buf ++ out)
    else if isNewline s.peek then literalLoop quote fuel s.advance (buf ++ [lineFeed])
    else literalLoop quote fuel s.advance (buf ++ [s.peek])

/-- `skip_lit_to_end` -/
def skipLiteral (quote : UInt8) (s : Scanner) : Scanner :=
  let s' := s.advanceWhile fun s => s.peek != 0 && !(s.peek == quote && s.peekAt 1 != quote)
  if s'.peek != 0 then s'.advance else s'

/-- `bebop__scan_quoted` -/
def scanQuoted (isBytes : Bool) (s : Scanner) : Token × Scanner :=
  let opening := if isBytes then s.advance else s
  if isBytes && opening.peek != doubleQuote && opening.peek != singleQuote then
    ({ kind := .error, span := opening.makeSpan s }, opening)
  else
    let quote := opening.peek
    let inside := opening.advance
    match literalLoop quote inside.rest.length inside [] with
    | (none, s') =>
      let s' := s'.skipLiteral quote
      ({ kind := .error, span := s'.makeSpan s }, s')
    | (some buf, s') =>
      if !isBytes && buf.length > 0 && !utf8Valid buf then
        -- BEBOP_DIAG_INVALID_UTF8
        ({ kind := .error, span := s'.makeSpan s },
          s'.report 148 (s'.makeSpan s) "Invalid UTF-8 encoding in string literal")
      else ({ kind := if isBytes then .bytes else .string, span := s'.makeSpan s, lexeme := internN buf }, s')

def rawCloser (level : Nat) : List UInt8 := ']'.toUInt8 :: (List.replicate level '='.toUInt8 ++ [']'.toUInt8])

/-- The message for an open raw block; its buffer has room for 37 equals signs. -/
def unterminatedRawBlock (level : Nat) : String :=
  "Unterminated raw block: expected ']" ++ String.ofList (List.replicate (min level 37) '=') ++ "]'"

/-- The case of an opening bracket, `s` behind it. -/
def scanBracket (start s : Scanner) : Token × Scanner :=
  let level := (s.rest.takeWhile (· == '='.toUInt8)).length
  if s.peekAt level = '['.toUInt8 then
    let content := s.advanceN (level + 1)
    let s' := content.advanceWhile fun s => s.peek != 0 && !(rawCloser level).isPrefixOf s.rest
    if s'.peek != 0 then
      let s'' := s'.advanceN (level + 2)
      ({ kind := .rawBlock, span := s''.makeSpan start, lexeme := internN (s'.lexeme content) }, s'')
    else
      -- BEBOP_DIAG_INVALID_MACRO
      ({ kind := .error, span := s'.makeSpan start },
        s'.report 143 (s'.makeSpan start) (unterminatedRawBlock level))
  else ({ kind := .lbracket, span := s.makeSpan start }, s)

/-- `bebop__scan_token` -/
def scanToken : Token × Scanner :=
  let c := s.peek
  if c = 0 then ({ kind := .eof, span := s.makeSpan s }, s)
  else if isIdentStart c then
    if c = 'b'.toUInt8 ∧ (s.peekAt 1 = doubleQuote ∨ s.peekAt 1 = singleQuote) then s.scanQuoted true
    else s.scanIdentifier
  else if isDigit c then s.scanNumber
  else if c = doubleQuote ∨ c = singleQuote then s.scanQuoted false
  else
    let s' := s.advance
    if c = '['.toUInt8 then scanBracket s s'
    else if c = '-'.toUInt8 then
      if s'.peek = '>'.toUInt8 then ({ kind := .arrow, span := s'.advance.makeSpan s }, s'.advance)
      else ({ kind := .minus, span := s'.makeSpan s }, s')
    else
      match punctuation.find? (·.1 == c) with
      | some (_, kind) => ({ kind := kind, span := s'.makeSpan s }, s')
      | none => ({ kind := .error, span := s'.makeSpan s, lexeme := [c] }, s')

/-- `bebop__scan_next` -/
def scanNext : Token × Scanner :=
  let (leading, s) := s.skipLeadingTrivia
  let (tok, s) := s.scanToken
  if tok.kind = .eof then ({ tok with leading := leading }, s)
  else
    let (trailing, s) := s.collectTrailingTrivia
    ({ tok with leading := leading, trailing := trailing }, s)

/-- The loop of `bebop__scan_with_schema`, up to the first `EOF`. -/
def scanLoop : Nat → Scanner → List Token × Scanner
  | 0, s => ([], s)
  | fuel + 1, s =>
    let (tok, s) := s.scanNext
    if tok.kind = .eof then ([tok], s)
    else
      let (more, s) := scanLoop fuel s
      (tok :: more, s)

end Scanner

/-- What `bebop__scan_with_schema` returns and reports. -/
structure TokenStream where
  tokens : List Token
  reports : List Report
  deriving DecidableEq, Repr

/-- `bebop__scan_with_schema` -/
def scanWithSchema (source : List UInt8) : TokenStream :=
  let (tokens, s) := Scanner.scanLoop (source.length + 1) (Scanner.start source)
  ⟨tokens, s.reports⟩

end Bebop.Compiler
