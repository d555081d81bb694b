import Bebop.Compiler.ScannerLiterals
import Bebop.Lib.Transition

/-!
# Bebop — what the scanner loses

A source is scanned without loss when the spans of the tokens and their trivia tile it,
each begins at its line and column, `EOF` stands at the end and a literal ends with its
quote (`Lossless`). The scanner takes a byte zero for the end of the source, and a literal
that meets one, or the end, for complete (`Loses`).
-/

namespace Bebop.Compiler

/-! ## Scanning without loss -/

def Token.spans (tok : Token) : List Span :=
  Scanner.triviaSpans tok.leading ++ tok.span :: Scanner.triviaSpans tok.trailing

def Span.text (span : Span) (source : List UInt8) : List UInt8 := (source.drop span.off).take span.len

def TokenKind.IsLiteral (kind : TokenKind) : Prop := kind = .string ∨ kind = .bytes

def literalPrefix (isBytes : Bool) : List UInt8 := if isBytes then ['b'.toUInt8] else []

/-- The text of a literal of a kind, with the quote that opened it at its end. -/
def EndsWithItsQuote (kind : TokenKind) (text : List UInt8) : Prop :=
  ∃ quote body value, IsQuote quote ∧ LiteralBody quote body value ∧
    text = literalPrefix (kind = .bytes) ++ quote :: (body ++ [quote])

/-- The tokens of a source hold all of it, each thing where it stands. -/
structure Lossless (source : List UInt8) (tokens : List Token) : Prop where
  tiled : Text.Tiles Span.off Span.len 0 (tokens.flatMap Token.spans) source.length
  positioned : ∀ span ∈ tokens.flatMap Token.spans, Scanner.Positioned source span
  eof : ∀ tok ∈ tokens, tok.kind = .eof → tok.span.off = source.length
  closed : ∀ tok ∈ tokens, tok.kind.IsLiteral → EndsWithItsQuote tok.kind (tok.span.text source)

namespace Scanner

variable {s s' s'' : Scanner} {tok : Token} {tokens : List Token}

/-- The line and the column of the place fit into a `uint32_t`. -/
def Fits (s : Scanner) : Prop := Text.line s.before.reverse < 2 ^ 32 ∧ Text.column s.before.reverse < 2 ^ 32

/-- A literal is ahead that meets a byte zero or the end before its closing quote, with no bad
escape or UTF-8 in what it has up to there. -/
def RunsOut (s : Scanner) : Prop :=
  ∃ isBytes quote body value tail, IsQuote quote ∧ LiteralBody quote body value ∧
    (isBytes = false → utf8Valid value = true) ∧ tail.headD 0 = 0 ∧
    s.rest = literalPrefix isBytes ++ quote :: (body ++ tail)

/-- The next token stands at a byte zero inside the source, at the end with a line or a column
that does not fit, or is a literal that runs out. -/
def Loses (s : Scanner) : Prop :=
  s.skipLeadingTrivia.2.reports = [] ∧
    (s.skipLeadingTrivia.2.rest ≠ [] ∧ s.skipLeadingTrivia.2.peek = 0 ∨
      s.skipLeadingTrivia.2.rest = [] ∧ ¬s.skipLeadingTrivia.2.Fits ∨ s.skipLeadingTrivia.2.RunsOut)

/-! ## Tokens -/

/-- A token that is not `EOF`, from one state to the next. -/
structure Takes (s : Scanner) (tok : Token) (s' : Scanner) : Prop where
  reads : s.Reads s'
  pos : s.pos < s'.pos
  span : tok.span = s'.makeSpan s
  not_eof : tok.kind ≠ .eof

theorem Takes.text (h : s.Takes tok s') (hsmall : s.source.length < 2 ^ 32) {text : List UInt8}
    (hrest : s.rest = text ++ s'.rest) : tok.span.text s.source = text := by
  have hsource := s.length_source
  have hlength := h.reads.length_rest
  have hsplit := congrArg List.length hrest
  rw [List.length_append] at hsplit
  have hoff : tok.span.off = s.pos := by
    rw [h.span]
    exact Nat.mod_eq_of_lt (by omega)
  have hlen : tok.span.len = text.length := by
    rw [h.span]
    show (s'.pos - s.pos) % 2 ^ 32 = _
    rw [Nat.mod_eq_of_lt (by omega)]
    omega
  rw [Span.text, hoff, hlen, source_drop, hrest]
  exact List.take_left

theorem keywords_kind : ∀ kw ∈ keywords, kw.2 ≠ .eof ∧ kw.2 ≠ .string ∧ kw.2 ≠ .bytes := by decide

theorem punctuation_kind : ∀ entry ∈ punctuation, entry.2 ≠ .eof ∧ entry.2 ≠ .string ∧ entry.2 ≠ .bytes := by
  decide

theorem scanLookupKeyword_kind (str : List UInt8) :
    scanLookupKeyword str ≠ .eof ∧ scanLookupKeyword str ≠ .string ∧ scanLookupKeyword str ≠ .bytes := by
  rw [scanLookupKeyword]
  split
  · rename_i kw hkw
    exact keywords_kind kw (List.mem_of_find?_eq_some hkw)
  · decide

theorem scanIdentifier_takes (h : isIdentStart s.peek = true) :
    s.Takes s.scanIdentifier.1 s.scanIdentifier.2 := by
  have hpeek : s.peek ≠ 0 := by
    intro hzero
    rw [hzero] at h
    exact absurd h (by decide)
  have hchar : isIdentChar s.peek = true := by rw [isIdentChar, h]; rfl
  exact ⟨reads_advanceWhile _ s, pos_advanceWhile hchar (rest_ne_nil hpeek), rfl, (scanLookupKeyword_kind _).1⟩

theorem scanNumber_takes (h : isDigit s.peek = true) : s.Takes s.scanNumber.1 s.scanNumber.2 := by
  have hpeek : s.peek ≠ 0 := by
    intro hzero
    rw [hzero] at h
    exact absurd h (by decide)
  have hminus : s.peek ≠ '-'.toUInt8 := by
    intro hminus
    rw [hminus] at h
    exact absurd h (by decide)
  have hchar : isIdentChar s.peek = true := by rw [isIdentChar, h, Bool.or_true]
  refine ⟨reads_advanceWhile _ s, pos_advanceWhile ?_ (rest_ne_nil hpeek), rfl, nofun⟩
  rw [hchar, beq_false_of_ne hminus]
  rfl

theorem reads_skipLiteral (quote : UInt8) (s : Scanner) : s.Reads (s.skipLiteral quote) := by
  rw [skipLiteral]
  split
  · exact (reads_advanceWhile _ s).trans (reads_advance _)
  · exact reads_advanceWhile _ s

theorem rest_of_literal {isBytes : Bool} {quote : UInt8} {more : List UInt8}
    (h : s.rest = literalPrefix isBytes ++ quote :: more) :
    (if isBytes then s.advance else s).rest = quote :: more := by
  cases isBytes with
  | false => exact h
  | true => exact advance_rest 'b'.toUInt8 h fun hb => absurd hb (by decide)

theorem reads_opening (isBytes : Bool) (s : Scanner) : s.Reads (if isBytes then s.advance else s) := by
  cases isBytes with
  | false => exact .refl s
  | true => exact reads_advance s

theorem reports_opening (isBytes : Bool) (s : Scanner) :
    (if isBytes then s.advance else s).reports = s.reports := by
  cases isBytes with
  | false => rfl
  | true => exact reports_advance s

theorem scanQuoted_reads {isBytes : Bool} {quote : UInt8} {more : List UInt8} (hquote : IsQuote quote)
    (hrest : s.rest = literalPrefix isBytes ++ quote :: more) (h : s.scanQuoted isBytes = (tok, s')) :
    s.Takes tok s' ∧ (tok.kind.IsLiteral → tok.kind = (if isBytes then .bytes else .string) ∧
      (s.reports = [] → s'.reports = []) ∧
      ∃ body value, LiteralBody quote body value ∧ (isBytes = false → utf8Valid value = true) ∧
        LiteralEnd quote more body s') := by
  have hopening := rest_of_literal hrest
  have hreads := reads_opening isBytes s
  have hreports := reports_opening isBytes s
  rw [scanQuoted] at h
  generalize (if isBytes then s.advance else s) = opening at hopening hreads hreports h
  have hpeek : opening.peek = quote := peek_cons hopening
  have hreturn : quote ≠ carriageReturn := by
    rintro rfl
    exact absurd hquote.not_newline (by decide)
  have hinside : opening.advance.rest = more := advance_rest quote hopening fun hc => absurd hc hreturn
  have hpos : s.pos < opening.advance.pos :=
    Nat.lt_of_le_of_lt hreads.pos (pos_advance (by rw [hopening]; exact List.cons_ne_nil _ _))
  have hguard : ¬(isBytes && opening.peek != doubleQuote && opening.peek != singleQuote) = true := by
    rw [hpeek]
    rcases hquote with rfl | rfl <;> simp
  rw [if_neg hguard, hpeek] at h
  rcases hloop : literalLoop quote opening.advance.rest.length opening.advance [] with ⟨out, stop⟩
  obtain ⟨hreads', -, hsome⟩ := literalLoop_reads hquote (Nat.le_refl _) hloop
  have hall : s.Reads stop := (hreads.trans (reads_advance opening)).trans hreads'
  have hpos' : s.pos < stop.pos := Nat.lt_of_lt_of_le hpos hreads'.pos
  dsimp only at h
  rw [hloop] at h
  cases out with
  | none =>
    cases h
    have hskip := reads_skipLiteral quote stop
    exact ⟨⟨hall.trans hskip, Nat.lt_of_lt_of_le hpos' hskip.pos, rfl, nofun⟩, nofun⟩
  | some buf =>
    dsimp only at h
    obtain ⟨body, value, hbody, hvalue, hkept, hend⟩ := hsome buf rfl
    rw [List.nil_append] at hvalue
    subst hvalue
    rw [hinside] at hend
    split at h
    · cases h
      exact ⟨⟨hall.trans (reads_report _ _ _ _), hpos', rfl, nofun⟩, nofun⟩
    · rename_i hvalid
      cases h
      refine ⟨⟨hall, hpos', rfl, ?_⟩, fun _ => ⟨rfl, ?_, body, buf, hbody, ?_, hend⟩⟩
      · cases isBytes <;> exact nofun
      · intro hnil
        rw [hkept, reports_advance, hreports, hnil]
      · rintro rfl
        by_contra hinvalid
        refine hvalid ?_
        cases buf with
        | nil => exact absurd rfl hinvalid
        | cons c buf => simp [Bool.eq_false_iff.mpr hinvalid]

theorem scanQuoted_ranOut {isBytes : Bool} {quote : UInt8} {body value tail : List UInt8}
    (hquote : IsQuote quote) (hbody : LiteralBody quote body value)
    (hvalid : isBytes = false → utf8Valid value = true) (htail : tail.headD 0 = 0)
    (hrest : s.rest = literalPrefix isBytes ++ quote :: (body ++ tail)) :
    ∃ tok s', s.scanQuoted isBytes = (tok, s') ∧ tok.kind = (if isBytes then .bytes else .string) ∧
      s'.rest = tail ∧ s'.reports = s.reports := by
  have hopening := rest_of_literal hrest
  have hreports := reports_opening isBytes s
  rw [scanQuoted]
  generalize (if isBytes then s.advance else s) = opening at hopening hreports
  have hpeek : opening.peek = quote := peek_cons hopening
  have hreturn : quote ≠ carriageReturn := by
    rintro rfl
    exact absurd hquote.not_newline (by decide)
  have hinside : opening.advance.rest = body ++ tail :=
    advance_rest quote hopening fun hc => absurd hc hreturn
  have hguard : ¬(isBytes && opening.peek != doubleQuote && opening.peek != singleQuote) = true := by
    rw [hpeek]
    rcases hquote with rfl | rfl <;> simp
  obtain ⟨stop, hstop, hkept, hloop⟩ := literalLoop_ranOut _ [] hquote hbody htail hinside (Nat.le_refl _)
  rw [if_neg hguard, hpeek]
  dsimp only
  rw [hloop, List.nil_append]
  dsimp only
  have hgood : ¬(!isBytes && decide (value.length > 0) && !utf8Valid value) = true := by
    cases isBytes with
    | true => simp
    | false => simp [hvalid rfl]
  rw [if_neg hgood]
  exact ⟨_, stop, rfl, rfl, hstop, hkept.trans ((reports_advance opening).trans hreports)⟩

theorem scanBracket_takes (hreads : s.Reads s') (hpos : s.pos < s'.pos) :
    s.Takes (scanBracket s s').1 (scanBracket s s').2 ∧ ¬(scanBracket s s').1.kind.IsLiteral := by
  rw [scanBracket]
  dsimp only
  split
  · have hcontent := (reads_advanceN ((s'.rest.takeWhile (· == '='.toUInt8)).length + 1) s').trans
      (reads_advanceWhile (fun s => s.peek != 0 &&
        !(rawCloser (s'.rest.takeWhile (· == '='.toUInt8)).length).isPrefixOf s.rest) _)
    split
    · have hclosed := hcontent.trans (reads_advanceN ((s'.rest.takeWhile (· == '='.toUInt8)).length + 2) _)
      exact ⟨⟨hreads.trans hclosed, Nat.lt_of_lt_of_le hpos hclosed.pos, rfl, nofun⟩,
        fun h => h.elim nofun nofun⟩
    · exact ⟨⟨(hreads.trans hcontent).trans (reads_report _ _ _ _), Nat.lt_of_lt_of_le hpos hcontent.pos, rfl,
        nofun⟩, fun h => h.elim nofun nofun⟩
  · exact ⟨⟨hreads, hpos, rfl, nofun⟩, fun h => h.elim nofun nofun⟩

theorem scanToken_zero (h : s.peek = 0) : s.scanToken = ({ kind := .eof, span := s.makeSpan s }, s) := by
  rw [scanToken]
  exact if_pos h

def Opens (s : Scanner) (isBytes : Bool) (quote : UInt8) (more : List UInt8) : Prop :=
  IsQuote quote ∧ s.rest = literalPrefix isBytes ++ quote :: more

theorem Opens.scanToken {isBytes : Bool} {quote : UInt8} {more : List UInt8} (h : s.Opens isBytes quote more) :
    s.scanToken = s.scanQuoted isBytes := by
  obtain ⟨hquote, hrest⟩ := h
  cases isBytes with
  | false =>
    have hpeek : s.peek = quote := peek_cons hrest
    have hplain : isIdentStart quote = false ∧ isDigit quote = false := by
      rcases hquote with rfl | rfl <;> decide
    rw [Scanner.scanToken]
    dsimp only
    rw [hpeek, if_neg hquote.not_zero, hplain.1, hplain.2, if_neg (by decide), if_neg (by decide)]
    exact if_pos hquote
  | true =>
    have hpeek : s.peek = 'b'.toUInt8 := peek_cons hrest
    have hnext : s.peekAt 1 = quote := peekAt_one_cons hrest
    rw [Scanner.scanToken]
    dsimp only
    rw [hpeek, hnext, if_neg (by decide), if_pos (by decide)]
    exact if_pos ⟨rfl, hquote⟩

theorem Opens.takes {isBytes : Bool} {quote : UInt8} {more : List UInt8} (hopens : s.Opens isBytes quote more) :
    s.Takes (s.scanQuoted isBytes).1 (s.scanQuoted isBytes).2 :=
  (scanQuoted_reads hopens.1 hopens.2 rfl).1

theorem scanToken_takes (hpeek : s.peek ≠ 0) :
    s.Takes s.scanToken.1 s.scanToken.2 ∧
      (s.scanToken.1.kind.IsLiteral → ∃ isBytes quote more, s.Opens isBytes quote more) := by
  obtain ⟨c, rest, hrest⟩ := List.exists_cons_of_ne_nil (rest_ne_nil hpeek)
  have hc : s.peek = c := peek_cons hrest
  rw [scanToken]
  dsimp only
  rw [if_neg hpeek]
  split
  · rename_i hstart
    split
    · rename_i hb
      obtain ⟨d, rest', rfl⟩ : ∃ d tail, rest = d :: tail := by
        refine List.exists_cons_of_ne_nil ?_
        rintro rfl
        rw [peekAt_one_cons hrest] at hb
        exact hb.2.elim nofun nofun
      have hopens : s.Opens true d rest' := by
        refine ⟨?_, ?_⟩
        · have hnext : s.peekAt 1 = d := peekAt_one_cons hrest
          rw [hnext] at hb
          exact hb.2
        · rw [hrest, ← hc, hb.1]
          rfl
      exact ⟨hopens.takes, fun _ => ⟨_, _, _, hopens⟩⟩
    · refine ⟨scanIdentifier_takes hstart, fun hliteral => ?_⟩
      have hkind := scanLookupKeyword_kind ((s.advanceWhile fun s => isIdentChar s.peek).lexeme s)
      exact absurd hliteral (not_or.mpr hkind.2)
  split
  · rename_i hdigit
    exact ⟨scanNumber_takes hdigit, fun h => h.elim nofun nofun⟩
  split
  · rename_i hquote
    rw [hc] at hquote
    have hopens : s.Opens false c rest := ⟨hquote, hrest⟩
    exact ⟨hopens.takes, fun _ => ⟨_, _, _, hopens⟩⟩
  have hreads := reads_advance s
  have hpos := pos_advance (rest_ne_nil hpeek)
  split
  · have hbracket := scanBracket_takes hreads hpos
    exact ⟨hbracket.1, fun hliteral => absurd hliteral hbracket.2⟩
  split
  · split
    · exact ⟨⟨hreads.trans (reads_advance _), Nat.lt_of_lt_of_le hpos (reads_advance _).pos, rfl, nofun⟩,
        fun h => h.elim nofun nofun⟩
    · exact ⟨⟨hreads, hpos, rfl, nofun⟩, fun h => h.elim nofun nofun⟩
  · split
    · rename_i kind hfind
      have hkind := punctuation_kind _ (List.mem_of_find?_eq_some hfind)
      exact ⟨⟨hreads, hpos, rfl, hkind.1⟩, fun hliteral => absurd hliteral (not_or.mpr hkind.2)⟩
    · exact ⟨⟨hreads, hpos, rfl, nofun⟩, fun h => h.elim nofun nofun⟩

theorem scanToken_literal (hpeek : s.peek ≠ 0) (hliteral : s.scanToken.1.kind.IsLiteral)
    (hsmall : s.source.length < 2 ^ 32) (hrunsOut : ¬s.RunsOut) :
    EndsWithItsQuote s.scanToken.1.kind (s.scanToken.1.span.text s.source) := by
  obtain ⟨htakes, hopens⟩ := scanToken_takes hpeek
  obtain ⟨isBytes, quote, more, hopens⟩ := hopens hliteral
  have hscan : s.scanQuoted isBytes = (s.scanToken.1, s.scanToken.2) := hopens.scanToken.symm
  obtain ⟨-, hread⟩ := scanQuoted_reads hopens.1 hopens.2 hscan
  obtain ⟨hkind, -, body, value, hbody, hvalid, hend⟩ := hread hliteral
  have hrest := hopens.2
  cases hend with
  | ranOut hmore hzero =>
    rw [hmore] at hrest
    exact absurd ⟨isBytes, quote, body, value, _, hopens.1, hbody, hvalid, hzero, hrest⟩ hrunsOut
  | closed hmore hhead =>
    refine ⟨quote, body, value, hopens.1, hbody, ?_⟩
    have hbytes : decide (s.scanToken.1.kind = .bytes) = isBytes := by
      rw [hkind]
      cases isBytes <;> rfl
    have htext : s.rest = (literalPrefix isBytes ++ quote :: (body ++ [quote])) ++ s.scanToken.2.rest := by
      rw [hrest, hmore]
      simp
    rw [hbytes]
    exact htakes.text hsmall htext

theorem RunsOut.scanToken (h : s.RunsOut) (hsmall : s.source.length < 2 ^ 32) :
    s.scanToken.1.kind.IsLiteral ∧
      ¬EndsWithItsQuote s.scanToken.1.kind (s.scanToken.1.span.text s.source) ∧
      s.scanToken.2.peek = 0 ∧ s.scanToken.2.reports = s.reports := by
  obtain ⟨isBytes, quote, body, value, tail, hquote, hbody, hvalid, htail, hrest⟩ := h
  have hopens : s.Opens isBytes quote (body ++ tail) := ⟨hquote, hrest⟩
  obtain ⟨tok, s', hscan, hkind, hstop, hreports⟩ := scanQuoted_ranOut hquote hbody hvalid htail hrest
  have htakes := (scanQuoted_reads hquote hrest hscan).1
  rw [hopens.scanToken, hscan]
  refine ⟨?_, ?_, ?_, hreports⟩
  · dsimp only
    rw [hkind]
    cases isBytes
    · exact .inl rfl
    · exact .inr rfl
  · dsimp only
    rintro ⟨quote', body', value', hquote', hbody', htext⟩
    have hbytes : decide (tok.kind = .bytes) = isBytes := by
      rw [hkind]
      cases isBytes <;> rfl
    have hsplit : s.rest = (literalPrefix isBytes ++ quote :: body) ++ s'.rest := by
      rw [hrest, hstop]
      simp
    rw [hbytes, htakes.text hsmall hsplit] at htext
    obtain ⟨rfl, hbodies⟩ := List.cons.inj (List.append_cancel_left htext)
    exact hbody.not_closed hquote hbody' hbodies
  · dsimp only
    rw [peek, hstop, htail]

/-! ## Steps and runs -/

theorem scanNext_eof (h : s.skipLeadingTrivia.2.peek = 0) :
    s.scanNext =
      ({ kind := .eof
         span := s.skipLeadingTrivia.2.makeSpan s.skipLeadingTrivia.2
         leading := s.skipLeadingTrivia.1 }, s.skipLeadingTrivia.2) := by
  rw [scanNext]
  split
  rename_i leading s₁ hskip
  rw [hskip] at h ⊢
  rw [scanToken_zero h]
  exact if_pos rfl

theorem scanNext_token (h : s.skipLeadingTrivia.2.peek ≠ 0) :
    s.scanNext =
      ({ s.skipLeadingTrivia.2.scanToken.1 with
          leading := s.skipLeadingTrivia.1,
          trailing := s.skipLeadingTrivia.2.scanToken.2.collectTrailingTrivia.1 },
        s.skipLeadingTrivia.2.scanToken.2.collectTrailingTrivia.2) := by
  have hkind := (scanToken_takes h).1.not_eof
  rw [scanNext]
  split
  rename_i leading s₁ hskip
  rw [hskip] at h hkind ⊢
  -- what the token is does not matter, so it is not to be unfolded
  dsimp only at hkind ⊢
  generalize s₁.scanToken = scanned at hkind ⊢
  exact if_neg hkind

/-- The token that a step of the scanner makes, if it is not the last. -/
def ScanStep (s : Scanner) (tok : Token) (s' : Scanner) : Prop := s.scanNext = (tok, s') ∧ tok.kind ≠ .eof

/-- The tokens up to the first `EOF`. -/
inductive Scans : Scanner → List Token → Scanner → Prop
  | eof {s s' : Scanner} {tok : Token} : s.scanNext = (tok, s') → tok.kind = .eof → Scans s [tok] s'
  | next {s s' s'' : Scanner} {tok : Token} {tokens : List Token} : ScanStep s tok s' → Scans s' tokens s'' →
      Scans s (tok :: tokens) s''

theorem skipLeadingTrivia_covers (s : Scanner) :
    s.Covers (triviaSpans s.skipLeadingTrivia.1) s.skipLeadingTrivia.2 := leadingLoop_covers _ s

theorem collectTrailingTrivia_covers (s : Scanner) :
    s.Covers (triviaSpans s.collectTrailingTrivia.1) s.collectTrailingTrivia.2 := trailingLoop_covers _ s

theorem ScanStep.peek (h : ScanStep s tok s') : s.skipLeadingTrivia.2.peek ≠ 0 := by
  intro hzero
  have hnext := h.1
  rw [scanNext_eof hzero] at hnext
  cases hnext
  exact h.2 rfl

theorem ScanStep.covers (h : ScanStep s tok s') : s.Covers tok.spans s' ∧ s.pos < s'.pos := by
  have hpeek := h.peek
  have hnext := h.1
  rw [scanNext_token hpeek] at hnext
  cases hnext
  have htakes := (scanToken_takes hpeek).1
  have hleading := skipLeadingTrivia_covers s
  have htrailing := collectTrailingTrivia_covers s.skipLeadingTrivia.2.scanToken.2
  refine ⟨hleading.append ?_, ?_⟩
  · dsimp only
    rw [htakes.span]
    exact .cons htakes.reads htakes.pos htrailing
  · exact Nat.lt_of_le_of_lt hleading.reads.pos (Nat.lt_of_lt_of_le htakes.pos htrailing.reads.pos)

theorem scanLoop_scans {fuel : Nat} (hfuel : s.rest.length < fuel) :
    Scans s (s.scanLoop fuel).1 (s.scanLoop fuel).2 := by
  induction fuel generalizing s with
  | zero => exact absurd hfuel (Nat.not_lt_zero _)
  | succ fuel ih =>
    rw [scanLoop]
    split
    rename_i tok s' hnext
    split
    · rename_i heof
      exact .eof hnext heof
    · rename_i heof
      have hstep : ScanStep s tok s' := ⟨hnext, heof⟩
      obtain ⟨hcovers, hpos⟩ := hstep.covers
      have hlength := hcovers.reads.length_rest
      exact .next hstep (ih (by omega))

theorem scanNext_of_eof (hnext : s.scanNext = (tok, s')) (heof : tok.kind = .eof) :
    s.skipLeadingTrivia.2.peek = 0 ∧ s' = s.skipLeadingTrivia.2 ∧ tok.span = s'.makeSpan s' ∧
      tok.spans = triviaSpans s.skipLeadingTrivia.1 ++ [s'.makeSpan s'] := by
  have hpeek : s.skipLeadingTrivia.2.peek = 0 := by
    by_contra hpeek
    rw [scanNext_token hpeek] at hnext
    cases hnext
    exact (scanToken_takes hpeek).1.not_eof heof
  rw [scanNext_eof hpeek] at hnext
  cases hnext
  exact ⟨hpeek, rfl, rfl, rfl⟩

theorem Scans.reads (h : Scans s tokens s') : s.Reads s' := by
  induction h with
  | @eof s s' tok hnext heof =>
    obtain ⟨-, rfl, -⟩ := scanNext_of_eof hnext heof
    exact (skipLeadingTrivia_covers s).reads
  | next hstep _ ih => exact hstep.covers.1.reads.trans ih

theorem Scans.tiles (h : Scans s tokens s') (hsmall : s.source.length < 2 ^ 32) :
    Text.Tiles Span.off Span.len s.pos (tokens.flatMap Token.spans) s'.pos := by
  induction h with
  | @eof s s' tok hnext heof =>
    obtain ⟨-, rfl, -, hspans⟩ := scanNext_of_eof hnext heof
    have hcovers := skipLeadingTrivia_covers s
    have hlength := s.skipLeadingTrivia.2.length_source
    rw [hcovers.reads.source] at hlength
    rw [List.flatMap_cons, List.flatMap_nil, List.append_nil, hspans]
    refine (hcovers.tiles hsmall).append ⟨Nat.mod_eq_of_lt (by omega), ?_⟩
    show _ + (s.skipLeadingTrivia.2.pos - s.skipLeadingTrivia.2.pos) % 2 ^ 32 = _
    rw [Nat.sub_self]
    rfl
  | next hstep _ ih =>
    obtain ⟨hcovers, -⟩ := hstep.covers
    rw [List.flatMap_cons]
    exact (hcovers.tiles hsmall).append (ih (by rw [hcovers.reads.source]; exact hsmall))

theorem Scans.positioned (h : Scans s tokens s') (hloc : s.Located) (hsmall : s.source.length < 2 ^ 32) :
    (∀ span ∈ tokens.flatMap Token.spans, Positioned s.source span) ↔ s'.Fits := by
  induction h with
  | @eof s s' tok hnext heof =>
    obtain ⟨-, rfl, -, hspans⟩ := scanNext_of_eof hnext heof
    have hcovers := skipLeadingTrivia_covers s
    have hloc' := hcovers.reads.located hloc
    have hsource := hcovers.reads.source
    rw [List.flatMap_cons, List.flatMap_nil, List.append_nil, hspans]
    constructor
    · intro hall
      have hlast := hall _ (List.mem_append_right _ (List.mem_singleton_self _))
      have hlength := s.skipLeadingTrivia.2.length_source
      rw [hsource] at hlength
      have hoff : (s.skipLeadingTrivia.2.makeSpan s.skipLeadingTrivia.2).off = s.skipLeadingTrivia.2.pos :=
        Nat.mod_eq_of_lt (by omega)
      have hline := hlast.line
      have hcol := hlast.col
      rw [hoff, ← hsource, source_take] at hline hcol
      -- the fields hold the line and the column modulo 2^32
      have hline' : s.skipLeadingTrivia.2.line < 2 ^ 32 := hloc'.line ▸ Nat.mod_lt _ (by decide)
      have hcol' : s.skipLeadingTrivia.2.col < 2 ^ 32 := hloc'.col ▸ Nat.mod_lt _ (by decide)
      exact ⟨hline ▸ hline', hcol ▸ hcol'⟩
    · rintro ⟨hline, hcol⟩ span hspan
      rcases List.mem_append.mp hspan with hspan | hspan
      · exact hcovers.positioned hloc hsmall span hspan
      · rw [List.mem_singleton.mp hspan, ← hsource]
        exact hloc'.positioned (by rw [hsource]; exact hsmall) hline hcol
  | next hstep _ ih =>
    obtain ⟨hcovers, -⟩ := hstep.covers
    have hsource := hcovers.reads.source
    rw [List.flatMap_cons]
    rw [hsource] at ih
    rw [← ih (hcovers.reads.located hloc) hsmall]
    constructor
    · exact fun hall span hspan => hall span (List.mem_append_right _ hspan)
    · intro hall span hspan
      rcases List.mem_append.mp hspan with hspan | hspan
      · exact hcovers.positioned hloc hsmall span hspan
      · exact hall span hspan

theorem Scans.eof_iff (h : Scans s tokens s') (hsmall : s.source.length < 2 ^ 32) :
    (∀ tok ∈ tokens, tok.kind = .eof → tok.span.off = s.source.length) ↔ s'.rest = [] := by
  have hsource := h.reads.source
  have hlength := s'.length_source
  rw [hsource] at hlength
  induction h with
  | @eof s s' tok hnext heof =>
    obtain ⟨-, -, hspan, -⟩ := scanNext_of_eof hnext heof
    have hoff : tok.span.off = s'.pos := by
      rw [hspan]
      exact Nat.mod_eq_of_lt (by omega)
    rw [← List.length_eq_zero_iff]
    constructor
    · intro hall
      have hend := hall tok (List.mem_singleton_self tok) heof
      omega
    · intro hnil tok' htok' _
      rw [List.mem_singleton.mp htok', hoff]
      omega
  | @next s s₁ s'' tok tokens hstep hscans ih =>
    rw [← hstep.covers.1.reads.source] at hsmall hsource hlength ⊢
    refine Iff.trans ?_ (ih hsmall hsource hlength)
    constructor
    · exact fun hall tok' htok' => hall tok' (List.mem_cons_of_mem _ htok')
    · intro hall tok' htok' heof
      rcases List.mem_cons.mp htok' with rfl | htok'
      · exact absurd heof hstep.2
      · exact hall tok' htok' heof

def LiteralsEnd (source : List UInt8) (tokens : List Token) : Prop :=
  ∀ tok ∈ tokens, tok.kind.IsLiteral → EndsWithItsQuote tok.kind (tok.span.text source)

theorem Scans.lossless_iff {source : List UInt8} (h : Scans (start source) tokens s')
    (hsmall : source.length < 2 ^ 32) :
    Lossless source tokens ↔ s'.rest = [] ∧ s'.Fits ∧ LiteralsEnd source tokens := by
  have hsource : (start source).source = source := rfl
  have htiles := h.tiles hsmall
  have hpositioned := h.positioned (located_start source) hsmall
  have heof := h.eof_iff hsmall
  have hlength := s'.length_source
  rw [h.reads.source, hsource] at hlength
  rw [hsource] at hpositioned heof
  constructor
  · intro hlossless
    exact ⟨heof.mp hlossless.eof, hpositioned.mp hlossless.positioned, hlossless.closed⟩
  · rintro ⟨hrest, hfits, hclosed⟩
    refine ⟨?_, hpositioned.mpr hfits, heof.mpr hrest, hclosed⟩
    rw [hrest, List.length_nil, Nat.add_zero] at hlength
    rw [hlength]
    exact htiles

/-! ## Where the scanner loses text -/

theorem skipWhitespace_zero (h : s.peek = 0) : s.skipWhitespace = ([], s) := by
  have hblank : isWhitespace s.peek = false := by rw [h]; rfl
  have hstays : (s.advanceWhile fun s => isWhitespace s.peek) = s := by
    rw [advanceWhile]
    cases s.rest.length with
    | zero => rfl
    | succ n => rw [advanceLoop, hblank]; rfl
  rw [skipWhitespace, hstays]
  exact if_neg (Nat.lt_irrefl _)

theorem skip_zero (h : s.peek = 0) : s.skipNewline = none ∧ s.skipLineComment = none ∧ s.skipBlockComment = none := by
  rw [skipNewline, skipLineComment, skipBlockComment, h]
  exact ⟨rfl, rfl, rfl⟩

theorem skipLeadingTrivia_zero (h : s.peek = 0) : s.skipLeadingTrivia = ([], s) := by
  obtain ⟨hnewline, hline, hblock⟩ := skip_zero h
  rw [skipLeadingTrivia, leadingLoop, skipWhitespace_zero h]
  dsimp only
  rw [hnewline, hline, hblock]
  rfl

theorem collectTrailingTrivia_zero (h : s.peek = 0) : s.collectTrailingTrivia = ([], s) := by
  obtain ⟨hnewline, hline, hblock⟩ := skip_zero h
  rw [collectTrailingTrivia, trailingLoop, skipWhitespace_zero h]
  dsimp only
  rw [hnewline, hline, hblock]
  rfl

theorem Scans.of_zero (h : Scans s tokens s') (hzero : s.peek = 0) : s' = s := by
  have hleading : s.skipLeadingTrivia.2 = s := by rw [skipLeadingTrivia_zero hzero]
  cases h with
  | eof hnext heof =>
    obtain ⟨-, rfl, -⟩ := scanNext_of_eof hnext heof
    exact hleading
  | next hstep _ =>
    have hpeek := hstep.peek
    rw [hleading] at hpeek
    exact absurd hzero hpeek

theorem RunsOut.peek (h : s.RunsOut) : s.peek ≠ 0 := by
  obtain ⟨isBytes, quote, body, value, tail, hquote, -, -, -, hrest⟩ := h
  cases isBytes with
  | false =>
    rw [peek_cons hrest]
    exact hquote.not_zero
  | true =>
    rw [peek_cons (c := 'b'.toUInt8) hrest]
    decide

theorem Scans.runsOut (h : Scans s tokens s') (hsmall : s.source.length < 2 ^ 32)
    (hnil : s.skipLeadingTrivia.2.reports = []) (hrunsOut : s.skipLeadingTrivia.2.RunsOut) :
    ¬LiteralsEnd s.source tokens ∧ s'.reports = [] := by
  have hpeek := hrunsOut.peek
  have hsource := (skipLeadingTrivia_covers s).reads.source
  obtain ⟨hliteral, hopen, hzero, hreports⟩ := hrunsOut.scanToken (by rw [hsource]; exact hsmall)
  rw [hsource] at hopen
  cases h with
  | eof hnext heof => exact absurd (scanNext_of_eof hnext heof).1 hpeek
  | next hstep hscans =>
    have hnext := hstep.1
    rw [scanNext_token hpeek, collectTrailingTrivia_zero hzero] at hnext
    cases hnext
    refine ⟨fun hall => ?_, ?_⟩
    · have hend := hall _ List.mem_cons_self
      exact hopen (hend hliteral)
    · rw [hscans.of_zero hzero, hreports, hnil]

theorem ScanStep.literal (h : ScanStep s tok s') (hsmall : s.source.length < 2 ^ 32) (hnil : s'.reports = [])
    (hkeeps : ¬s.Loses) (hliteral : tok.kind.IsLiteral) :
    EndsWithItsQuote tok.kind (tok.span.text s.source) := by
  have hpeek := h.peek
  have hsource := (skipLeadingTrivia_covers s).reads.source
  have hnext := h.1
  rw [scanNext_token hpeek] at hnext
  cases hnext
  have hreads := (scanToken_takes hpeek).1.reads.trans (collectTrailingTrivia_covers _).reads
  have hrunsOut : ¬s.skipLeadingTrivia.2.RunsOut := fun hrunsOut =>
    hkeeps ⟨hreads.reports_nil hnil, .inr (.inr hrunsOut)⟩
  rw [← hsource] at hsmall ⊢
  exact scanToken_literal hpeek hliteral hsmall hrunsOut

theorem Scans.loses_iff (h : Scans s tokens s') (hsmall : s.source.length < 2 ^ 32) :
    (s'.rest = [] ∧ s'.Fits ∧ LiteralsEnd s.source tokens ∨ s'.reports ≠ []) ↔
      ∀ t, Transition.Reaches ScanStep s t → ¬t.Loses := by
  induction h with
  | @eof s s' tok hnext heof =>
    obtain ⟨hpeek, hs', -, -⟩ := scanNext_of_eof hnext heof
    have hlast : ∀ t, Transition.Reaches ScanStep s t → t = s := by
      rintro t ⟨labels, hrun⟩
      cases hrun with
      | nil => rfl
      | cons hstep _ => exact absurd hpeek hstep.peek
    have hliterals : LiteralsEnd s.source [tok] := by
      intro tok' htok' hliteral
      rw [List.mem_singleton.mp htok', TokenKind.IsLiteral, heof] at hliteral
      exact hliteral.elim nofun nofun
    subst hs'
    constructor
    · rintro hgood t ht ⟨hnil, hloses⟩
      rw [hlast t ht] at hnil hloses
      rcases hgood with ⟨hrest, hfits, -⟩ | hreported
      · rcases hloses with ⟨hmore, -⟩ | ⟨-, hoverflow⟩ | hrunsOut
        · exact hmore hrest
        · exact hoverflow hfits
        · exact hrunsOut.peek hpeek
      · exact hreported hnil
    · intro hkeeps
      have hkeep := hkeeps s ⟨[], .nil s⟩
      by_cases hnil : s.skipLeadingTrivia.2.reports = []
      · left
        have hrest : s.skipLeadingTrivia.2.rest = [] := by
          by_contra hrest
          exact hkeep ⟨hnil, .inl ⟨hrest, hpeek⟩⟩
        refine ⟨hrest, ?_, hliterals⟩
        by_contra hfits
        exact hkeep ⟨hnil, .inr (.inl ⟨hrest, hfits⟩)⟩
      · exact .inr hnil
  | @next s s₁ s' tok tokens hstep hscans ih =>
    have hreads := hstep.covers.1.reads
    rw [hreads.source] at ih
    have hih := ih hsmall
    constructor
    · intro hgood t ht
      obtain ⟨labels, hrun⟩ := ht
      cases hrun with
      | nil =>
        rintro ⟨hnil, hloses⟩
        -- a token is ahead, so what is lost is a literal
        rcases hloses with ⟨-, hzero⟩ | ⟨hrest, -⟩ | hrunsOut
        · exact hstep.peek hzero
        · exact hstep.peek (peek_of_nil hrest)
        · obtain ⟨hopen, hsilent⟩ := (Scans.next hstep hscans).runsOut hsmall hnil hrunsOut
          exact hgood.elim (fun hgood => hopen hgood.2.2) fun hreported => hreported hsilent
      | cons hstep' hrun =>
        obtain ⟨-, hs₁⟩ := Prod.mk.inj (hstep.1.symm.trans hstep'.1)
        rw [← hs₁] at hrun
        refine hih.mp ?_ t ⟨_, hrun⟩
        exact hgood.imp_left fun hgood =>
          ⟨hgood.1, hgood.2.1, fun tok' htok' => hgood.2.2 tok' (List.mem_cons_of_mem _ htok')⟩
    · intro hkeeps
      have hkeep := hkeeps s ⟨[], .nil s⟩
      rcases hih.mpr fun t ⟨labels, hrun⟩ => hkeeps t ⟨_, .cons hstep hrun⟩ with ⟨hrest, hfits, hclosed⟩ | hreported
      · by_cases hnil : s'.reports = []
        · refine .inl ⟨hrest, hfits, fun tok' htok' hliteral => ?_⟩
          rcases List.mem_cons.mp htok' with rfl | htok'
          · exact hstep.literal hsmall (hscans.reads.reports_nil hnil) hkeep hliteral
          · exact hclosed tok' htok' hliteral
        · exact .inr hnil
      · exact .inr hreported

end Scanner

/-! ## The scanner -/

/-- The property that the claim names: nothing is lost, or an error is reported. -/
def ScansOrReports (source : List UInt8) : Prop :=
  Lossless source (scanWithSchema source).tokens ∨ ∃ r ∈ (scanWithSchema source).reports, r.isError = true

/-- Without loss, or with an error, exactly if no state loses anything. -/
theorem scan_lossless_iff (source : List UInt8) (hsmall : source.length < 2 ^ 32) :
    ScansOrReports source ↔
      ∀ s, Transition.Reaches Scanner.ScanStep (Scanner.start source) s → ¬s.Loses := by
  have hsource : (Scanner.start source).source = source := rfl
  -- the run is given a name, so that nothing unfolds it
  rcases hloop : Scanner.scanLoop (source.length + 1) (Scanner.start source) with ⟨tokens, s'⟩
  have hscans : Scanner.Scans (Scanner.start source) tokens s' := by
    have hrun := Scanner.scanLoop_scans (Nat.lt_succ_self source.length) (s := Scanner.start source)
    rwa [hloop] at hrun
  have hloses := hscans.loses_iff hsmall
  rw [hsource] at hloses
  rw [← hloses, ScansOrReports, scanWithSchema, hloop]
  dsimp only
  rw [hscans.lossless_iff hsmall]
  refine or_congr_right ?_
  obtain ⟨more, hmore, herror⟩ := hscans.reads.reports
  have hreports : s'.reports = more := hmore
  rw [hreports]
  constructor
  · rintro ⟨r, hr, -⟩ hnil
    rw [hnil] at hr
    exact nomatch hr
  · intro hsome
    obtain ⟨r, rest, rfl⟩ := List.exists_cons_of_ne_nil hsome
    exact ⟨r, List.mem_cons_self, herror r List.mem_cons_self⟩

theorem scan_lossless_semicolon :
    ScansOrReports [';'.toUInt8] ↔
      ∀ s, Transition.Reaches Scanner.ScanStep (Scanner.start [';'.toUInt8]) s → ¬s.Loses :=
  scan_lossless_iff [';'.toUInt8] (by decide)

/-- A string literal that the source breaks off: no error, and no quote at its end. -/
theorem scan_unterminated : ¬ScansOrReports [doubleQuote, 'a'.toUInt8] := by
  have hscan : scanWithSchema [doubleQuote, 'a'.toUInt8] =
      ⟨[{ kind := .string, span := ⟨0, 2, 1, 1, 1, 3⟩, lexeme := ['a'.toUInt8] },
        { kind := .eof, span := ⟨2, 0, 1, 3, 1, 3⟩ }], []⟩ := by decide
  rintro (hlossless | ⟨r, hr, -⟩)
  · rw [hscan] at hlossless
    obtain ⟨quote, body, value, hquote, -, htext⟩ := hlossless.closed _ List.mem_cons_self (.inl rfl)
    have hshape : [doubleQuote, 'a'.toUInt8] = quote :: (body ++ [quote]) := htext
    obtain ⟨rfl, hbody⟩ := List.cons.inj hshape
    have hlast := congrArg List.getLast? hbody
    rw [List.getLast?_concat] at hlast
    exact absurd hlast (by decide)
  · rw [hscan] at hr
    exact nomatch hr

end Bebop.Compiler
