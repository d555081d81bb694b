import Bebop.Compiler.IntegerLiteral
import Bebop.Compiler.ParserReads

/-!
# Bebop — constants of the integer types

One reader of numbers, `bebop_util_parse_int`, serves the constants of all the integer
types, and nothing compares what it reads with the type (`integerConstant_exact_iff`). The
parser is followed from behind the keyword: a type, a name, the equals sign, the literal,
which may be anything, and the semicolon.
-/

namespace Bebop.Compiler

open Fallible

namespace Parser

variable {p p' : Parser}

/-! ## The type -/

theorem parseType_scalar {tok next : Token} {k : Scalar} (htok : p.ahead 0 = some tok) (hkind : tok.kind = .identifier)
    (hscalar : lookupScalar tok.text = some k) (hnext : p.ahead 1 = some next) (hplain : next.kind ≠ .lbracket) :
    parseType.run p = .ok (some (.scalar tok.span k), p.next) := by
  have hbase : (typeBase ⟨.base, none, none, tok.span, 0⟩ []).run p =
      .ok (some [⟨.arraySuffix, some (.scalar tok.span k), none, tok.span, 0⟩], p.next) := by
    unfold typeBase
    rw [runLiftBind_some]
    refine ⟨tok, p, currentToken_ok.mpr ⟨htok, rfl⟩, ?_⟩
    rw [hkind]
    dsimp only
    rw [runBind_some]
    refine ⟨.scalar tok.span k, p.next, ?_, rfl⟩
    unfold typeName
    rw [runLiftBind_some]
    refine ⟨tok, p, currentToken_ok.mpr ⟨htok, rfl⟩, ?_⟩
    rw [hscalar]
    dsimp only
    rw [runLiftBind_some]
    exact ⟨(), p.next, advance_ok htok (hkind ▸ nofun), rfl⟩
  have hsuffix : (typeSuffix ⟨.arraySuffix, some (.scalar tok.span k), none, tok.span, 0⟩ (.scalar tok.span k) []).run
      p.next = .ok (some [⟨.done, some (.scalar tok.span k), none, tok.span, 0⟩], p.next) := by
    unfold typeSuffix
    rw [runLiftBind_some]
    refine ⟨false, p.next, matchToken_other ?_ hplain, rfl⟩
    rw [ahead_next]
    exact hnext
  -- the name, the brackets that are not there, and the end
  have hfirst : typeRound [⟨.base, none, none, tok.span, 0⟩] p =
      .ok (.inl [⟨.arraySuffix, some (.scalar tok.span k), none, tok.span, 0⟩], p.next) := by
    refine run_bind_ok.mpr ⟨some (.inl _), p.next, ?_, rfl⟩
    exact runBind_some.mpr ⟨_, p.next, hbase, rfl⟩
  have hsecond : typeRound [⟨.arraySuffix, some (.scalar tok.span k), none, tok.span, 0⟩] p.next =
      .ok (.inl [⟨.done, some (.scalar tok.span k), none, tok.span, 0⟩], p.next) := by
    refine run_bind_ok.mpr ⟨some (.inl _), p.next, ?_, rfl⟩
    exact runBind_some.mpr ⟨_, p.next, hsuffix, rfl⟩
  have hthird : typeRound [⟨.done, some (.scalar tok.span k), none, tok.span, 0⟩] p.next =
      .ok (.inr (some (.scalar tok.span k)), p.next) :=
    run_bind_ok.mpr ⟨some (.inr _), p.next, rfl, rfl⟩
  unfold parseType
  rw [OptionT.run_mk, run_bind_ok]
  refine ⟨tok, p, currentToken_ok.mpr ⟨htok, rfl⟩, ?_⟩
  rw [run_bind_ok]
  refine ⟨p.stream.length + 1, p, rfl, ?_⟩
  have hrounds : 8 * (p.stream.length + 1) = 8 * p.stream.length + 5 + 1 + 1 + 1 := by omega
  rw [hrounds, loop_goes_on hfirst, loop_goes_on hsecond, loop_ends hthird]

/-! ## The literal -/

/-- A number is ahead: whether there is a minus, the digits, and the parser behind it. -/
inductive NumberAhead (p : Parser) : Bool → List UInt8 → Parser → Prop
  | plain {tok : Token} : p.ahead 0 = some tok → tok.kind = .number → NumberAhead p false tok.lexeme p.next
  | negated {minus tok : Token} : p.ahead 0 = some minus → minus.kind = .minus → p.ahead 1 = some tok →
      tok.kind = .number → NumberAhead p true tok.lexeme p.next.next

theorem NumberAhead.unique {negated negated' : Bool} {lexeme lexeme' : List UInt8} {q q' : Parser}
    (h : NumberAhead p negated lexeme q) (h' : NumberAhead p negated' lexeme' q') :
    negated = negated' ∧ lexeme = lexeme' ∧ q = q' := by
  cases h with
  | plain htok hkind =>
    cases h' with
    | plain htok' hkind' =>
      obtain rfl := Option.some.inj (htok.symm.trans htok')
      exact ⟨rfl, rfl, rfl⟩
    | negated hminus' hminusKind' htok' hkind' =>
      obtain rfl := Option.some.inj (htok.symm.trans hminus')
      cases hkind.symm.trans hminusKind'
  | negated hminus hminusKind htok hkind =>
    cases h' with
    | plain htok' hkind' =>
      obtain rfl := Option.some.inj (hminus.symm.trans htok')
      cases hminusKind.symm.trans hkind'
    | negated hminus' hminusKind' htok' hkind' =>
      obtain rfl := Option.some.inj (htok.symm.trans htok')
      exact ⟨rfl, rfl, rfl⟩

/-- The text of a number, which the minus is put in front of. -/
def numberText (negated : Bool) (lexeme : List UInt8) : List UInt8 :=
  if negated then '-'.toUInt8 :: lexeme else lexeme

/-- The buffer has room for the number and its minus. -/
def Short (negated : Bool) (lexeme : List UInt8) : Prop := negated = true → lexeme.length ≤ 126

theorem parseNumber_int {str : List UInt8} {k : Scalar} (hk : isIntegerType k = true) {v : Int} :
    (parseNumber str (some k)).run p = .ok (some (.int v), p') ↔ parseInt str = some v ∧ p' = p := by
  have hfloat : ¬(some k = some Scalar.float32 ∨ some k = some .float64) := by
    rintro (h | h)
    · cases h
      cases hk
    · cases h
      cases hk
  unfold parseNumber
  rw [runLiftBind_some]
  constructor
  · rintro ⟨host, q, hget, hrun⟩
    cases hget
    dsimp only at hrun
    rw [if_neg hfloat] at hrun
    split at hrun
    · rename_i hnone
      cases hnone
    · rename_i hint
      obtain ⟨hvalue, rfl⟩ := runPure_some.mp hrun
      cases hvalue
      exact ⟨hint, rfl⟩
    · cases (runPure_some.mp hrun).1
    · obtain ⟨_, q, -, hfail⟩ := runLiftBind_some.mp hrun
      exact absurd hfail runFailure_some
  · rintro ⟨hint, rfl⟩
    refine ⟨p', p', rfl, ?_⟩
    dsimp only
    rw [if_neg hfloat, hint]
    rfl

theorem stringLiteral_ne_int {tok : Token} {expected : Option Scalar} {value : LiteralValue}
    (h : (stringLiteral tok expected).run p = .ok (some value, p')) (v : Int) : value ≠ .int v := by
  unfold stringLiteral at h
  obtain ⟨⟨text, hadSubst⟩, q, -, h⟩ := runLiftBind_some.mp h
  obtain ⟨host, q', -, h⟩ := runLiftBind_some.mp h
  dsimp only at h
  have hother {w : LiteralValue} {r : Parser} (hw : w ≠ .int v)
      (hdone : (pure w : Attempt LiteralValue).run r = .ok (some value, p')) : value ≠ .int v := by
    rw [← (runPure_some.mp hdone).1]
    exact hw
  -- an error has no result
  have hfails {code : Nat} {message : String} {r : Parser}
      (hfail : (do errorPrevious code message; failure : Attempt LiteralValue).run r = .ok (some value, p')) :
      False := by
    obtain ⟨_, _, -, hnone⟩ := runLiftBind_some.mp hfail
    exact runFailure_some hnone
  split at h
  · split at h
    · exact hother (fun heq => by cases heq) h
    · exact (hfails h).elim
  · split at h
    · exact hother (fun heq => by cases heq) h
    · exact (hfails h).elim
  · split at h
    · exact hother (fun heq => by cases heq) h
    · exact (hfails h).elim
  · exact hother (fun heq => by cases heq) h
  · exact hother (fun heq => by cases heq) h

theorem parseLiteral_int {k : Scalar} (hk : isIntegerType k = true) {v : Int} :
    (∃ span, (parseLiteral (some k)).run p = .ok (some ⟨span, .int v⟩, p')) ↔
      ∃ negated lexeme, NumberAhead p negated lexeme p' ∧ Short negated lexeme ∧
        parseInt (numberText negated lexeme) = some v := by
  constructor
  · rintro ⟨span, h⟩
    rw [parseLiteral, runLiftBind_some] at h
    obtain ⟨tok, q, hread, h⟩ := h
    obtain ⟨htok, rfl⟩ := currentToken_ok.mp hread
    have hfails {code : Nat} {message : String} {r : Parser} {report : Nat → String → Parse Unit}
        (hfail : (do report code message; failure : Attempt Literal).run r = .ok (some ⟨span, .int v⟩, p')) :
        False := by
      obtain ⟨_, _, -, hnone⟩ := runLiftBind_some.mp hfail
      exact runFailure_some hnone
    dsimp only at h
    split at h
    next hkind =>
      rw [runLiftBind_some] at h
      obtain ⟨_, _, -, h⟩ := h
      cases (runPure_some.mp h).1
    next hkind =>
      rw [runLiftBind_some] at h
      obtain ⟨_, _, -, h⟩ := h
      cases (runPure_some.mp h).1
    next hkind =>
      rw [runLiftBind_some] at h
      obtain ⟨_, _, -, h⟩ := h
      rw [runBind_some] at h
      obtain ⟨value, _, hvalue, h⟩ := h
      have heq := congrArg Literal.value (runPure_some.mp h).1
      exact absurd heq (stringLiteral_ne_int hvalue v)
    next hkind =>
      rw [runLiftBind_some] at h
      obtain ⟨_, _, -, h⟩ := h
      cases (runPure_some.mp h).1
    next hkind =>
      rw [runLiftBind_some] at h
      obtain ⟨_, q', hadvance, h⟩ := h
      rw [advance_ok htok (by rw [hkind]; decide)] at hadvance
      cases hadvance
      rw [runBind_some] at h
      obtain ⟨value, q', hvalue, h⟩ := h
      rw [runPure_some] at h
      obtain ⟨hlit, rfl⟩ := h
      obtain rfl := congrArg Literal.value hlit
      obtain ⟨hint, rfl⟩ := (parseNumber_int hk).mp hvalue
      exact ⟨false, tok.lexeme, .plain htok hkind, fun hneg => (by cases hneg), hint⟩
    next hkind =>
      split at h
      · obtain ⟨_, _, -, h⟩ := runLiftBind_some.mp h
        rw [runLiftBind_some] at h
        obtain ⟨_, _, -, h⟩ := h
        split at h
        · cases (runPure_some.mp h).1
        · exact (hfails h).elim
      · exact (hfails h).elim
    next hkind =>
      rw [runLiftBind_some] at h
      obtain ⟨_, q', hadvance, h⟩ := h
      rw [advance_ok htok (by rw [hkind]; decide)] at hadvance
      cases hadvance
      rw [runLiftBind_some] at h
      obtain ⟨numTok, q', hread', h⟩ := h
      obtain ⟨hnum, rfl⟩ := currentToken_ok.mp hread'
      split at h
      · obtain ⟨_, _, -, h⟩ := runLiftBind_some.mp h
        rw [runLiftBind_some] at h
        obtain ⟨_, _, -, h⟩ := h
        cases (runPure_some.mp h).1
      · split at h
        · rename_i hnumber
          rw [runLiftBind_some] at h
          obtain ⟨_, q', hadvance, h⟩ := h
          rw [advance_ok hnum (by rw [hnumber]; decide)] at hadvance
          cases hadvance
          split at h
          · exact (hfails h).elim
          · rename_i hshort
            rw [runLiftBind_some] at h
            obtain ⟨last, q', hlast, h⟩ := h
            obtain ⟨-, -, rfl⟩ := previousToken_ok.mp hlast
            rw [runBind_some] at h
            obtain ⟨value, q', hvalue, h⟩ := h
            rw [runPure_some] at h
            obtain ⟨hlit, rfl⟩ := h
            obtain rfl := congrArg Literal.value hlit
            obtain ⟨hint, rfl⟩ := (parseNumber_int hk).mp hvalue
            rw [ahead_next] at hnum
            exact ⟨true, numTok.lexeme, .negated htok hkind hnum hnumber, fun _ => Nat.not_lt.mp hshort, hint⟩
        · exact (hfails h).elim
    next => exact (hfails h).elim
  · rintro ⟨negated, lexeme, hnumber, hshort, hint⟩
    cases hnumber with
    | plain htok hkind =>
      rename_i tok
      refine ⟨tok.span, ?_⟩
      unfold parseLiteral
      refine runLiftBind_some.mpr ⟨tok, p, currentToken_ok.mpr ⟨htok, rfl⟩, ?_⟩
      rw [hkind]
      refine runLiftBind_some.mpr ⟨(), p.next, advance_ok htok (by rw [hkind]; decide), ?_⟩
      exact runBind_some.mpr ⟨.int v, p.next, (parseNumber_int hk).mpr ⟨hint, rfl⟩, rfl⟩
    | negated hminus hkind htok hnumber =>
      rename_i minus tok
      have hnext : p.next.ahead 0 = some tok := by
        rw [ahead_next]
        exact htok
      refine ⟨spanFromTokens minus.span tok.span, ?_⟩
      unfold parseLiteral
      refine runLiftBind_some.mpr ⟨minus, p, currentToken_ok.mpr ⟨hminus, rfl⟩, ?_⟩
      rw [hkind]
      refine runLiftBind_some.mpr ⟨(), p.next, advance_ok hminus (by rw [hkind]; decide), ?_⟩
      refine runLiftBind_some.mpr ⟨tok, p.next, currentToken_ok.mpr ⟨hnext, rfl⟩, ?_⟩
      rw [if_neg fun hinf => TokenKind.noConfusion (hnumber.symm.trans hinf.1), if_pos hnumber]
      refine runLiftBind_some.mpr ⟨(), p.next.next, advance_ok hnext (by rw [hnumber]; decide), ?_⟩
      rw [if_neg (Nat.not_lt.mpr (hshort rfl))]
      refine runLiftBind_some.mpr ⟨tok, p.next.next, previousToken_next hnext, ?_⟩
      exact runBind_some.mpr ⟨.int v, p.next.next, (parseNumber_int hk).mpr ⟨hint, rfl⟩, rfl⟩

theorem literalMatches_int {span : Span} {k : Scalar} (hk : isIntegerType k = true) {value : LiteralValue} :
    literalMatches (.scalar span k) value = true ↔ ∃ v, value = .int v := by
  constructor
  · intro h
    cases value with
    | int v => exact ⟨v, rfl⟩
    | _ => cases k <;> cases hk <;> cases h
  · rintro ⟨v, rfl⟩
    cases k <;> cases hk <;> rfl

/-! ## The definition -/

/-- A type, a name and an equals sign are ahead, and the parser does not recover. -/
structure ConstAhead (p : Parser) (k : Scalar) : Prop where
  calm : p.panicMode = false ∧ p.fatal = false
  type : ∃ tok, p.ahead 0 = some tok ∧ tok.kind = .identifier ∧ lookupScalar tok.text = some k
  name : ∃ tok, p.ahead 1 = some tok ∧ isIdentOrKeyword tok.kind = true
  equals : ∃ tok, p.ahead 2 = some tok ∧ tok.kind = .equals

/-- What stands between the equals sign and a semicolon is a number. -/
def NumberBetween (p : Parser) (negated : Bool) (lexeme : List UInt8) : Prop :=
  ∃ behind tok, NumberAhead p.next.next.next negated lexeme behind ∧ behind.ahead 0 = some tok ∧ tok.kind = .semicolon

/-- The constant is accepted, and no error is reported. -/
def AcceptsConst (keyword : Span) (frame : Frame) (p : Parser) (d : Def) : Prop :=
  ∃ nameSpan p', (parseConst keyword frame).run p = .ok (some (d, nameSpan), p') ∧ p'.reports = p.reports

theorem parseConst_some {keyword : Span} {frame : Frame} {k : Scalar} (hahead : p.ConstAhead k) {d : Def}
    {nameSpan : Span} (h : (parseConst keyword frame).run p = .ok (some (d, nameSpan), p')) :
    ∃ span value q q' tok, (parseLiteral (some k)).run p.next.next.next = .ok (some value, q) ∧
      (if literalMatches (.scalar span k) value.value then pure ()
        else errorPrevious 123 "Literal value does not match declared const type" : Parse Unit) q = .ok ((), q') ∧
      q'.ahead 0 = some tok ∧ tok.kind = .semicolon ∧ p' = q'.next ∧ d.body = .const (.scalar span k) value := by
  obtain ⟨type, htype, hidentifier, hscalar⟩ := hahead.type
  obtain ⟨name, hname, hnameKind⟩ := hahead.name
  obtain ⟨equals, hequals, hequalsKind⟩ := hahead.equals
  have hplain : name.kind ≠ .lbracket := fun hbracket => by rw [hbracket] at hnameKind; exact absurd hnameKind (by decide)
  rw [parseConst, runBind_some] at h
  obtain ⟨_, q, hrun, h⟩ := h
  rw [parseType_scalar htype hidentifier hscalar hname hplain] at hrun
  cases hrun
  rw [runLiftBind_some] at h
  obtain ⟨_, q, hrun, h⟩ := h
  cases hrun
  rw [runBind_some] at h
  obtain ⟨_, q, hrun, h⟩ := h
  obtain ⟨_, -, -, rfl⟩ := expectName_some.mp hrun
  rw [runLiftBind_some] at h
  obtain ⟨_, q, hrun, h⟩ := h
  obtain ⟨-, -, rfl⟩ := previousToken_ok.mp hrun
  rw [runBind_some] at h
  obtain ⟨_, q, hrun, h⟩ := h
  obtain ⟨_, -, -, rfl⟩ := (expectAfter_some (by decide)).mp hrun
  rw [runBind_some] at h
  obtain ⟨value, q, hliteral, h⟩ := h
  rw [runLiftBind_some] at h
  obtain ⟨_, q', hmatches, h⟩ := h
  rw [runBind_some] at h
  obtain ⟨_, r, hrun, h⟩ := h
  obtain ⟨tok, htok, htokKind, rfl⟩ := (expectAfter_some (by decide)).mp hrun
  rw [runLiftBind_some] at h
  obtain ⟨_, r, hrun, h⟩ := h
  obtain ⟨-, -, rfl⟩ := previousToken_ok.mp hrun
  obtain ⟨hd, rfl⟩ := runPure_some.mp h
  cases hd
  exact ⟨type.span, value, q, q', tok, hliteral, hmatches, htok, htokKind, rfl, rfl⟩

theorem AcceptsConst.number {keyword : Span} {frame : Frame} {k : Scalar} (hk : isIntegerType k = true)
    (hahead : p.ConstAhead k) {d : Def} (h : AcceptsConst keyword frame p d) :
    ∃ negated lexeme v type span, NumberBetween p negated lexeme ∧ Short negated lexeme ∧
      parseInt (numberText negated lexeme) = some v ∧ d.body = .const (.scalar type k) ⟨span, .int v⟩ := by
  obtain ⟨nameSpan, p', hrun, hsame⟩ := h
  obtain ⟨type, value, q, q', tok, hliteral, hmatches, htok, hkind, rfl, hbody⟩ := parseConst_some hahead hrun
  have hlogs : Adds p.next.next.next q := Logs.logs hliteral
  obtain ⟨span, value⟩ := value
  dsimp only at hmatches
  split at hmatches
  · rename_i hint
    obtain ⟨v, rfl⟩ := (literalMatches_int hk).mp hint
    cases hmatches
    obtain ⟨negated, lexeme, hnumber, hshort, hread⟩ := (parseLiteral_int hk).mp ⟨span, hliteral⟩
    exact ⟨negated, lexeme, v, type, span, ⟨q, tok, hnumber, htok, hkind⟩, hshort, hread, hbody⟩
  · -- the error was reported, unless another one was before it
    have hlogs' : Adds q q' := Logs.logs hmatches
    obtain ⟨hfirst, hsecond⟩ := hlogs.between hlogs' hsame
    obtain ⟨hpanic, hfatal⟩ := hlogs.silent hfirst
    exact absurd hsecond (errorPrevious_reports (hpanic.trans hahead.calm.1) (hfatal.trans hahead.calm.2) hmatches)

theorem acceptsConst_of_number {keyword : Span} {frame : Frame} {k : Scalar} (hk : isIntegerType k = true)
    (hahead : p.ConstAhead k) {negated : Bool} {lexeme : List UInt8} {v : Int} (hnumber : NumberBetween p negated lexeme)
    (hshort : Short negated lexeme) (hread : parseInt (numberText negated lexeme) = some v) :
    ∃ d, AcceptsConst keyword frame p d := by
  obtain ⟨type, htype, hidentifier, hscalar⟩ := hahead.type
  obtain ⟨name, hname, hnameKind⟩ := hahead.name
  obtain ⟨equals, hequals, hequalsKind⟩ := hahead.equals
  obtain ⟨behind, tok, hnumber, htok, hkind⟩ := hnumber
  obtain ⟨span, hliteral⟩ := (parseLiteral_int hk).mpr ⟨negated, lexeme, hnumber, hshort, hread⟩
  have hplain : name.kind ≠ .lbracket := fun hbracket => by rw [hbracket] at hnameKind; exact absurd hnameKind (by decide)
  have hname' : p.next.ahead 0 = some name := by rw [ahead_next]; exact hname
  have hequals' : p.next.next.ahead 0 = some equals := by rw [ahead_next, ahead_next]; exact hequals
  have hreports : behind.reports = p.reports := by
    cases hnumber <;> rfl
  have hhint : literalHint (.scalar type.span k) = some k := rfl
  have hmatches : literalMatches (.scalar type.span k) (.int v) = true := (literalMatches_int hk).mpr ⟨v, rfl⟩
  refine ⟨⟨name.text, spanFromTokens keyword tok.span, frame.decorators, frame.visibility, [],
    .const (.scalar type.span k) ⟨span, .int v⟩⟩, name.span, behind.next, ?_, hreports⟩
  unfold parseConst
  refine runBind_some.mpr ⟨_, p.next, parseType_scalar htype hidentifier hscalar hname hplain, ?_⟩
  refine runLiftBind_some.mpr ⟨(), p.next, rfl, ?_⟩
  refine runBind_some.mpr ⟨(), p.next.next, expectName_some.mpr ⟨name, hname', hnameKind, rfl⟩, ?_⟩
  refine runLiftBind_some.mpr ⟨name, p.next.next, previousToken_next hname', ?_⟩
  refine runBind_some.mpr ⟨(), p.next.next.next, (expectAfter_some (by decide)).mpr ⟨equals, hequals', hequalsKind, rfl⟩, ?_⟩
  refine runBind_some.mpr ⟨⟨span, .int v⟩, behind, hliteral, ?_⟩
  rw [if_pos hmatches]
  refine runLiftBind_some.mpr ⟨(), behind, rfl, ?_⟩
  refine runBind_some.mpr ⟨(), behind.next, (expectAfter_some (by decide)).mpr ⟨tok, htok, hkind, rfl⟩, ?_⟩
  exact runLiftBind_some.mpr ⟨tok, behind.next, previousToken_next htok, rfl⟩

/-! ## Result -/

def InTypeRange : Scalar → Int → Prop
  | .byte, v => 0 ≤ v ∧ v ≤ 2 ^ 8 - 1
  | .int8, v => -2 ^ 7 ≤ v ∧ v ≤ 2 ^ 7 - 1
  | .int16, v => -2 ^ 15 ≤ v ∧ v ≤ 2 ^ 15 - 1
  | .uint16, v => 0 ≤ v ∧ v ≤ 2 ^ 16 - 1
  | .int32, v => -2 ^ 31 ≤ v ∧ v ≤ 2 ^ 31 - 1
  | .uint32, v => 0 ≤ v ∧ v ≤ 2 ^ 32 - 1
  | .int64, v => -2 ^ 63 ≤ v ∧ v ≤ 2 ^ 63 - 1
  | .uint64, v => 0 ≤ v ∧ v ≤ 2 ^ 64 - 1
  | .int128, v => -2 ^ 127 ≤ v ∧ v ≤ 2 ^ 127 - 1
  | .uint128, v => 0 ≤ v ∧ v ≤ 2 ^ 128 - 1
  | _, _ => False

/-- A constant of an integer type that is accepted has the number of its literal, which
is one of the type; and one whose literal has such a number is accepted. -/
def IntegerConstantExact (keyword : Span) (frame : Frame) (p : Parser) (k : Scalar) : Prop :=
  (∀ d, AcceptsConst keyword frame p d → ∃ negated lexeme negative base digits type span,
    NumberBetween p negated lexeme ∧ IntegerLiteral (numberText negated lexeme) negative base digits ∧
      d.body = .const (.scalar type k) ⟨span, .int (literalValue negative base digits)⟩ ∧
      InTypeRange k (literalValue negative base digits)) ∧
  ∀ negated lexeme negative base digits, NumberBetween p negated lexeme →
    IntegerLiteral (numberText negated lexeme) negative base digits →
    InTypeRange k (literalValue negative base digits) → ∃ d, AcceptsConst keyword frame p d

def Fits64 (v : Int) : Prop := -2 ^ 63 ≤ v ∧ v ≤ 2 ^ 63 - 1

/-- The number has room in 64 bits, or its digits wrap unseen to one that has. -/
def ReadAsInt64 (negative : Bool) (base : Nat) (digits : List UInt8) : Prop :=
  Fits64 (literalValue negative base digits) ∨
    WrapsUnseen base digits ∧ InRange negative (valueFrom base 0 digits % 2 ^ 64)

theorem parseInt_fits {s : List UInt8} {v : Int} (h : parseInt s = some v) : Fits64 v := by
  obtain ⟨negative, base, digits, -, -, hrange, rfl⟩ := parseInt_eq_some.mp h
  unfold InRange at hrange
  unfold Fits64 signedInt
  cases negative
  all_goals
    simp only [if_true, if_false, Bool.false_eq_true] at hrange ⊢
    omega

theorem magnitude_of_fits {negative : Bool} {base : Nat} {digits : List UInt8}
    (hfits : Fits64 (literalValue negative base digits)) :
    valueFrom base 0 digits < 2 ^ 64 ∧ InRange negative (valueFrom base 0 digits) := by
  unfold Fits64 literalValue signedInt at hfits
  unfold InRange
  cases negative
  all_goals
    simp only [if_true, if_false, Bool.false_eq_true] at hfits ⊢
    omega

theorem parseInt_of_fits {s digits : List UInt8} {negative : Bool} {base : Nat}
    (hliteral : IntegerLiteral s negative base digits) (hfits : Fits64 (literalValue negative base digits)) :
    parseInt s = some (literalValue negative base digits) := by
  obtain ⟨hlt, hrange⟩ := magnitude_of_fits hfits
  refine parseInt_eq_some.mpr ⟨negative, base, digits, hliteral, (shrinksFrom_iff hliteral.base_pos).mpr (.inl hlt), ?_⟩
  rw [Nat.mod_eq_of_lt hlt]
  exact ⟨hrange, rfl⟩

theorem parseInt_isSome_iff {s digits : List UInt8} {negative : Bool} {base : Nat}
    (hliteral : IntegerLiteral s negative base digits) :
    (∃ v, parseInt s = some v) ↔ ReadAsInt64 negative base digits := by
  constructor
  · rintro ⟨v, h⟩
    have hfits := parseInt_fits h
    obtain ⟨negative', base', digits', hliteral', hshrinks, hrange, rfl⟩ := parseInt_eq_some.mp h
    obtain ⟨rfl, rfl, rfl⟩ := hliteral.unique hliteral'
    rcases (shrinksFrom_iff hliteral.base_pos).mp hshrinks with hlt | hwraps
    · rw [Nat.mod_eq_of_lt hlt] at hfits
      exact .inl hfits
    · exact .inr ⟨hwraps, hrange⟩
  · rintro (hfits | ⟨hwraps, hrange⟩)
    · exact ⟨_, parseInt_of_fits hliteral hfits⟩
    · exact ⟨_, parseInt_eq_some.mpr ⟨negative, base, digits, hliteral,
        (shrinksFrom_iff hliteral.base_pos).mpr (.inr hwraps), hrange, rfl⟩⟩

/-- The reader has room for a number of the type, and does not read any other. -/
def ReadByType (k : Scalar) (negated : Bool) (lexeme : List UInt8) (negative : Bool) (base : Nat)
    (digits : List UInt8) : Prop :=
  (InTypeRange k (literalValue negative base digits) →
    Short negated lexeme ∧ Fits64 (literalValue negative base digits)) ∧
  (¬InTypeRange k (literalValue negative base digits) → ¬(Short negated lexeme ∧ ReadAsInt64 negative base digits))

theorem NumberBetween.unique {negated negated' : Bool} {lexeme lexeme' : List UInt8}
    (h : NumberBetween p negated lexeme) (h' : NumberBetween p negated' lexeme') :
    negated = negated' ∧ lexeme = lexeme' := by
  obtain ⟨_, _, hnumber, -⟩ := h
  obtain ⟨_, _, hnumber', -⟩ := h'
  obtain ⟨hnegated, hlexeme, -⟩ := hnumber.unique hnumber'
  exact ⟨hnegated, hlexeme⟩

/-- When constants are exact: the numbers of the type are those that the reader takes. -/
theorem integerConstant_exact_iff (keyword : Span) (frame : Frame) {k : Scalar} (hk : isIntegerType k = true)
    (hahead : p.ConstAhead k) : IntegerConstantExact keyword frame p k ↔
      ∀ negated lexeme negative base digits, NumberBetween p negated lexeme →
        IntegerLiteral (numberText negated lexeme) negative base digits →
        ReadByType k negated lexeme negative base digits := by
  constructor
  · rintro ⟨hexact, haccepts⟩ negated lexeme negative base digits hnumber hliteral
    refine ⟨fun hrange => ?_, fun hrange hread => ?_⟩
    · obtain ⟨d, hd⟩ := haccepts negated lexeme negative base digits hnumber hliteral hrange
      obtain ⟨negated', lexeme', v, _, _, hnumber', hshort, hread, hbody⟩ := hd.number hk hahead
      obtain ⟨rfl, rfl⟩ := hnumber.unique hnumber'
      obtain ⟨negated', lexeme', negative', base', digits', _, _, hnumber', hliteral', hbody', -⟩ := hexact d hd
      obtain ⟨rfl, rfl⟩ := hnumber.unique hnumber'
      obtain ⟨rfl, rfl, rfl⟩ := hliteral.unique hliteral'
      cases hbody.symm.trans hbody'
      exact ⟨hshort, parseInt_fits hread⟩
    · obtain ⟨hshort, hread⟩ := hread
      obtain ⟨v, hread⟩ := (parseInt_isSome_iff hliteral).mpr hread
      obtain ⟨d, hd⟩ := acceptsConst_of_number hk hahead hnumber hshort hread
      obtain ⟨negated', lexeme', negative', base', digits', _, _, hnumber', hliteral', -, hrange'⟩ := hexact d hd
      obtain ⟨rfl, rfl⟩ := hnumber.unique hnumber'
      obtain ⟨rfl, rfl, rfl⟩ := hliteral.unique hliteral'
      exact hrange hrange'
  · intro hreads
    constructor
    · intro d hd
      obtain ⟨negated, lexeme, v, type, span, hnumber, hshort, hread, hbody⟩ := hd.number hk hahead
      obtain ⟨negative, base, digits, hliteral, -⟩ := parseInt_eq_some.mp hread
      obtain ⟨hroom, hno⟩ := hreads negated lexeme negative base digits hnumber hliteral
      -- the number is one of the type, for it was read
      have hrange : InTypeRange k (literalValue negative base digits) :=
        Classical.byContradiction fun hrange => hno hrange ⟨hshort, (parseInt_isSome_iff hliteral).mp ⟨v, hread⟩⟩
      have hvalue := parseInt_of_fits hliteral (hroom hrange).2
      obtain rfl := Option.some.inj (hread.symm.trans hvalue)
      exact ⟨negated, lexeme, negative, base, digits, type, span, hnumber, hliteral, hbody, hrange⟩
    · intro negated lexeme negative base digits hnumber hliteral hrange
      obtain ⟨hshort, hfits⟩ := (hreads negated lexeme negative base digits hnumber hliteral).1 hrange
      exact acceptsConst_of_number hk hahead hnumber hshort (parseInt_of_fits hliteral hfits)

end Parser

namespace Sample

/-- A host without an environment that reads no other literals. -/
def plainHost : Host := ⟨[], fun _ => none, fun _ => none, fun _ => none, fun _ => none⟩

def token (kind : TokenKind) (text : List Char) : Token where
  kind := kind
  span := ⟨0, 0, 0, 0, 0, 0⟩
  lexeme := text.map Char.toUInt8

/-- `const` of a type, with a number. -/
def constTokens (type number : List Char) : List Token :=
  [token .const ['c', 'o', 'n', 's', 't'], token .identifier type, token .identifier ['X'], token .equals ['='],
    token .number number, token .semicolon [';'], token .eof []]

/-- The parser of the tokens behind `const`. -/
def behindConst (type number : List Char) : Parser := (Parser.start plainHost (constTokens type number)).next

def fileFrame : Frame := ⟨.constStart, [], false, .visDefault, false⟩

theorem constAhead {type number : List Char} {k : Scalar} (h : lookupScalar (token .identifier type).text = some k) :
    (behindConst type number).ConstAhead k :=
  ⟨⟨rfl, rfl⟩, ⟨_, rfl, rfl, h⟩, ⟨_, rfl, rfl⟩, ⟨_, rfl, rfl⟩⟩

theorem numberBetween {type number : List Char} :
    (behindConst type number).NumberBetween false (number.map Char.toUInt8) :=
  ⟨_, token .semicolon [';'], @Parser.NumberAhead.plain _ (token .number number) rfl rfl, rfl, rfl⟩

end Sample

namespace Parser

open Sample

/-- `const int8 X = 300;` is accepted, with the number 300. -/
theorem int8_constant_300 :
    ¬IntegerConstantExact (token .const []).span fileFrame (behindConst ['i', 'n', 't', '8'] ['3', '0', '0']) .int8 ∧
      (parseTokensInto plainHost (constTokens ['i', 'n', 't', '8'] ['3', '0', '0'])).map
          (fun p => (p.reports, p.definitions.map Def.body)) =
        .ok ([], [.const (.scalar ⟨0, 0, 0, 0, 0, 0⟩ .int8) ⟨⟨0, 0, 0, 0, 0, 0⟩, .int 300⟩]) := by
  refine ⟨?_, by decide⟩
  rintro ⟨hexact, -⟩
  have hread : parseInt (numberText false (['3', '0', '0'].map Char.toUInt8)) = some 300 := by decide
  have hahead : (behindConst ['i', 'n', 't', '8'] ['3', '0', '0']).ConstAhead .int8 := constAhead (by decide)
  obtain ⟨d, hd⟩ := @acceptsConst_of_number _ (token .const []).span _ _ rfl hahead _ _ _ numberBetween nofun hread
  obtain ⟨_, _, negative, base, digits, _, _, -, -, hbody, hrange⟩ := hexact d hd
  obtain ⟨_, _, v, _, _, hnumber, -, hread', hbody'⟩ := hd.number rfl hahead
  obtain ⟨rfl, rfl⟩ := hnumber.unique numberBetween
  obtain rfl := Option.some.inj (hread.symm.trans hread')
  rw [hbody] at hbody'
  generalize literalValue negative base digits = stored at hbody' hrange
  cases hbody'
  exact absurd hrange.2 (by decide)

/-- `const byte X = 255;` is exact if the reader takes 255. -/
theorem byte_constant_255 : IntegerConstantExact (token .const []).span fileFrame
    (behindConst ['b', 'y', 't', 'e'] ['2', '5', '5']) .byte ↔
      ∀ negated lexeme negative base digits,
        NumberBetween (behindConst ['b', 'y', 't', 'e'] ['2', '5', '5']) negated lexeme →
        IntegerLiteral (numberText negated lexeme) negative base digits →
        ReadByType .byte negated lexeme negative base digits :=
  integerConstant_exact_iff _ _ rfl (constAhead (by decide))

end Parser

end Bebop.Compiler
