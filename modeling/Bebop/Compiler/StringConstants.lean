import Bebop.Compiler.EnvSubstitution
import Bebop.Compiler.ScannerLossless
import Bebop.Compiler.Utf8

/-!
# Bebop — the bytes of a string constant

The way of a string from the literal that `bebop__emit_literal` writes, through the scanner
and the parser, to `bebop_literal_as_string` and to the `string_value` of a descriptor. What
is interned has a length of its own; but both ends measure it as a C string, so that what is
behind a zero is lost.
-/

namespace Bebop.Compiler

open Unicode (WellFormedUtf8)

/-! ## Writing -/

/-- A digit of `%X`. -/
def hexDigit (n : Nat) : UInt8 := .ofNat (if n < 10 then '0'.toNat + n else 'A'.toNat + (n - 10))

/-- `%X` of a byte -/
def hexText (c : UInt8) : List UInt8 :=
  if c.toNat < 16 then [hexDigit c.toNat] else [hexDigit (c.toNat / 16), hexDigit (c.toNat % 16)]

/-- The switch of `bebop__emit_literal` on a byte of a string. -/
def emitStringByte (c : UInt8) : List UInt8 :=
  if c = doubleQuote then [backslash, doubleQuote]
  else if c = backslash then [backslash, backslash]
  else if c = lineFeed then [backslash, 'n'.toUInt8]
  else if c = carriageReturn then [backslash, 'r'.toUInt8]
  else if c = 0x09 then [backslash, 't'.toUInt8]
  else if c = 0 then [backslash, '0'.toUInt8]
  else if c < 0x20 ∨ c = 0x7f then backslash :: 'u'.toUInt8 :: 0x7b :: (hexText c ++ [0x7d])
  else [c]

/-- The case of a string without a text in `bebop__emit_literal`. -/
def emitString (value : List UInt8) : List UInt8 := doubleQuote :: (value.flatMap emitStringByte ++ [doubleQuote])

/-! ## Reading -/

/-- The bytes of a string up to its zero: what `strlen` counts. -/
def cString (bytes : List UInt8) : List UInt8 := bytes.takeWhile (· != 0)

/-- `bebop_literal_as_string`, with the length that it reports. -/
def literalAsString : LiteralValue → Option (List UInt8)
  | .string bytes _ => some (cString bytes)
  | _ => none

/-- The `string_value` that `_desc_build_literal` makes with `_desc_dup_str`. -/
def descriptorString : LiteralValue → Option (List UInt8)
  | .string bytes _ => some (cString bytes)
  | _ => none

/-- The bytes of a string are those of the token as which its literal is scanned, and of what
both ends report of the literal that is made of the token. -/
structure KeepsEveryByte (host : Host) (value : List UInt8) : Prop where
  token : ∀ (s : Scanner) (tail : List UInt8), s.rest = emitString value ++ tail → tail.head? ≠ some doubleQuote →
    ∃ tok s', s.scanToken = (tok, s') ∧ tok.kind = .string ∧ tok.lexeme = value ∧ s'.rest = tail ∧
      s'.reports = s.reports
  literal : ∀ (p : Parser) (tok : Token), p.host = host → p.ahead 0 = some tok → tok.kind = .string →
    tok.lexeme = value →
    ∃ span v p', (Parser.parseLiteral (some .string)).run p = .ok (some ⟨span, v⟩, p') ∧
      literalAsString v = some value ∧ descriptorString v = some value

/-! ## The escapes -/

/-- Bytes that are escaped or stand for themselves, which a table of them shows. -/
theorem literalBody_of_table {emit : UInt8 → List UInt8}
    (hescapes : ∀ i : Fin 256, (emit (.ofNat i)).head? = some backslash →
      unescapeChar (emit (.ofNat i)).tail = some ([.ofNat i], (emit (.ofNat i)).tail.length))
    (hplain : ∀ i : Fin 256, (emit (.ofNat i)).head? ≠ some backslash →
      emit (.ofNat i) = [.ofNat i] ∧ UInt8.ofNat i ≠ 0 ∧ UInt8.ofNat i ≠ doubleQuote ∧
        UInt8.ofNat i ≠ backslash ∧ isNewline (.ofNat i) = false) (value : List UInt8) :
    LiteralBody doubleQuote (value.flatMap emit) value := by
  induction value with
  | nil => exact .nil
  | cons c value ih =>
    have hescaped := hescapes ⟨c.toNat, c.toNat_lt⟩
    have hkept := hplain ⟨c.toNat, c.toNat_lt⟩
    rw [UInt8.ofNat_toNat] at hescaped hkept
    have hunit : LiteralUnit doubleQuote (emit c) [c] (value.flatMap emit) := by
      by_cases hhead : (emit c).head? = some backslash
      · obtain ⟨esc, hesc⟩ := List.head?_eq_some_iff.mp hhead
        have hout := hescaped hhead
        rw [hesc] at hout ⊢
        exact .escape _ hout
      · obtain ⟨hsame, hzero, hquote, hbackslash, hnewline⟩ := hkept hhead
        rw [hsame]
        exact .char _ hzero hquote hbackslash hnewline
    rw [List.flatMap_cons]
    exact .cons hunit ih

theorem literalBody_emitString (value : List UInt8) :
    LiteralBody doubleQuote (value.flatMap emitStringByte) value :=
  literalBody_of_table (by decide +kernel) (by decide +kernel) value

theorem scanToken_emitString {value tail : List UInt8} {s : Scanner} (hvalid : WellFormedUtf8 value)
    (hrest : s.rest = emitString value ++ tail) (htail : tail.head? ≠ some doubleQuote) :
    ∃ tok s', s.scanToken = (tok, s') ∧ tok.kind = .string ∧ tok.lexeme = internN value ∧ s'.rest = tail ∧
      s'.reports = s.reports := by
  have hrest' : s.rest = doubleQuote :: (value.flatMap emitStringByte ++ doubleQuote :: tail) := by
    rw [hrest, emitString, List.cons_append, List.append_assoc, List.singleton_append]
  have hpeek : s.peek = doubleQuote := Scanner.peek_cons hrest'
  have hinside := Scanner.advance_rest doubleQuote hrest' fun hc => absurd hc (by decide)
  obtain ⟨stop, hstop, hreports, hloop⟩ := Scanner.literalLoop_closed _ [] (.inl rfl) (literalBody_emitString value) htail
    hinside (Nat.le_refl _)
  have hgood : ¬(!false && decide (value.length > 0) && !utf8Valid value) = true := by
    rw [(utf8Valid_iff value).mpr hvalid]
    simp
  refine ⟨⟨.string, stop.makeSpan s, internN value, [], []⟩, stop, ?_, rfl, rfl, hstop,
    hreports.trans (Scanner.reports_advance s)⟩
  unfold Scanner.scanToken
  dsimp only
  rw [hpeek, if_neg (by decide), if_neg (by decide), if_neg (by decide), if_pos (.inl rfl), Scanner.scanQuoted]
  simp only [Bool.false_and, Bool.false_eq_true, if_false]
  rw [hpeek, hloop, List.nil_append]
  exact if_neg hgood

/-! ## The literal -/

theorem cString_of_zero_not_mem {bytes : List UInt8} (h : 0 ∉ bytes) : cString bytes = bytes := by
  unfold cString
  rw [List.takeWhile_eq_self_iff]
  intro c hc
  exact bne_iff_ne.mpr fun hzero => h (hzero ▸ hc)

theorem zero_not_mem_cString (bytes : List UInt8) : 0 ∉ cString bytes := by
  intro h
  exact bne_iff_ne.mp (List.mem_takeWhile_imp (p := (· != 0)) h) rfl

theorem internN_of_le {bytes : List UInt8} (h : bytes.length ≤ 4294967295) : internN bytes = bytes :=
  if_neg (Nat.not_lt.mpr h)

namespace Parser

open Fallible

variable {p p' : Parser} {tok : Token} {text src : List UInt8} {had : Bool}

theorem parseLiteral_string (htok : p.ahead 0 = some tok) (hkind : tok.kind = .string)
    (hrun : substituteEnvVars tok.lexeme p.next = .ok ((text, had), p')) :
    (parseLiteral (some .string)).run p = .ok (some ⟨tok.span, .string text had⟩, p') := by
  have hpass : tok.kind ≠ .eof := by
    rw [hkind]
    exact nofun
  unfold parseLiteral
  refine runLiftBind_some.mpr ⟨tok, p, currentToken_ok.mpr ⟨htok, rfl⟩, ?_⟩
  rw [hkind]
  dsimp only
  refine runLiftBind_some.mpr ⟨(), p.next, advance_ok htok hpass, ?_⟩
  refine runBind_some.mpr ⟨.string text had, p', ?_, runPure_some.mpr ⟨rfl, rfl⟩⟩
  unfold stringLiteral
  refine runLiftBind_some.mpr ⟨(text, had), p', hrun, ?_⟩
  exact runLiftBind_some.mpr ⟨p', p', rfl, runPure_some.mpr ⟨rfl, rfl⟩⟩

/-- No environment variable in a text is replaced by anything else. -/
def KeptBySubstitution (env : List (List UInt8 × List UInt8)) (src : List UInt8) : Prop :=
  ∀ pieces, ReadsPieces src pieces false → (∀ name, .reference name ∈ pieces → name.length ≤ 255) →
    pieces.flatMap (Piece.replaced (valueOf env)) = src

theorem zero_not_mem_replaced {env : List (List UInt8 × List UInt8)} (henv : OfStrings env) {pieces : List Piece}
    (hreads : ReadsPieces src pieces false) (hzero : 0 ∉ src) {piece : Piece} (hmem : piece ∈ pieces) :
    0 ∉ piece.replaced (lookUp env) ∧ ∀ name, piece = .reference name → 0 ∉ name := by
  have hkept : 0 ∉ piece.replaced fun _ => none := by
    intro hpiece
    rw [← @flatMap_of_none_found (fun _ => none) _ _ _ hreads rfl fun piece _ => by cases piece <;> rfl] at hzero
    exact hzero (List.mem_flatMap.mpr ⟨piece, hmem, hpiece⟩)
  cases piece with
  | byte c => exact ⟨hkept, nofun⟩
  | reference name =>
    constructor
    · show 0 ∉ (lookUp env name).getD _
      cases hlook : lookUp env name with
      | none => exact hkept
      | some value => exact (henv _ (valueOf_eq_some hlook)).2
    · rintro _ ⟨rfl⟩ hname
      exact hkept (List.mem_cons_of_mem _ (List.mem_cons_of_mem _ (List.mem_append_left _ hname)))

theorem substituteEnvVars_keeps (hprevious : p.HasPrevious) (henv : OfStrings p.host.env) (hzero : 0 ∉ src)
    (hlength : src.length ≤ 4294967295) :
    ∃ text had p', substituteEnvVars src p = .ok ((text, had), p') ∧ 0 ∉ text ∧
      (text = src ↔ KeptBySubstitution p.host.env src) := by
  obtain ⟨pieces, unclosed, hreads⟩ := exists_readsPieces src
  obtain ⟨text, had, p', hrun, htext, hfails, -⟩ := substituteEnvVars_runs hprevious hreads
  refine ⟨text, had, p', hrun, ?_⟩
  by_cases hplain : unclosed = false ∧ ∀ name, .reference name ∈ pieces → name.length ≤ 255
  · obtain ⟨rfl, hshort⟩ := hplain
    replace htext := htext rfl hshort
    have hpieces {piece : Piece} (hmem : piece ∈ pieces) := zero_not_mem_replaced henv hreads hzero hmem
    have hflat : pieces.flatMap (Piece.replaced (lookUp p.host.env)) =
        pieces.flatMap (Piece.replaced (valueOf p.host.env)) := by
      refine List.flatMap_congr fun piece hmem => (lookUp_agrees henv ?_ piece hmem).1
      exact fun name hname hzero => absurd hzero ((hpieces hname).2 name rfl)
    have hkept : KeptBySubstitution p.host.env src ↔ pieces.flatMap (Piece.replaced (lookUp p.host.env)) = src := by
      rw [hflat]
      refine ⟨fun h => h pieces hreads hshort, fun h pieces' hreads' _ => ?_⟩
      rw [(hreads'.unique hreads).1]
      exact h
    have hclean : 0 ∉ pieces.flatMap (Piece.replaced (lookUp p.host.env)) := by
      intro hmem
      obtain ⟨piece, hpiece, hmem⟩ := List.mem_flatMap.mp hmem
      exact (hpieces hpiece).1 hmem
    split at htext
    · rename_i hany
      subst htext
      constructor
      · unfold internN
        split
        · exact List.not_mem_nil
        · exact hclean
      · rw [hkept]
        constructor
        · intro heq
          by_cases hlong : (pieces.flatMap (Piece.replaced (lookUp p.host.env))).length > 4294967295
          · -- of the null string nothing is read, and so nothing is replaced
            rw [internN, if_pos hlong] at heq
            subst heq
            cases hreads
            cases hany
          · rwa [internN, if_neg hlong] at heq
        · intro heq
          rw [heq]
          exact internN_of_le hlength
    · rename_i hnone
      subst htext
      refine ⟨hzero, iff_of_true rfl (hkept.mpr ?_)⟩
      refine flatMap_of_none_found hreads rfl fun piece hmem => ?_
      exact Bool.eq_false_iff.mpr fun hfound => hnone (List.any_eq_true.mpr ⟨piece, hmem, hfound⟩)
  · have hwrong : unclosed = true ∨ ∃ name, .reference name ∈ pieces ∧ name.length > 255 := by
      by_contra hright
      rw [not_or, Bool.not_eq_true, not_exists] at hright
      exact hplain ⟨hright.1, fun name hmem => Nat.not_lt.mp fun hlong => hright.2 name ⟨hmem, hlong⟩⟩
    rw [hfails hwrong]
    refine ⟨hzero, iff_of_true rfl fun pieces' hreads' hshort => ?_⟩
    obtain ⟨rfl, rfl⟩ := hreads.unique hreads'
    exact absurd ⟨rfl, hshort⟩ hplain

end Parser

open Parser (OfStrings KeptBySubstitution)

/-- No zero, a length of 32 bits, and no environment variable that is replaced. -/
theorem keepsEveryByte_iff {host : Host} {value : List UInt8} (hvalid : WellFormedUtf8 value)
    (henv : OfStrings host.env) :
    KeepsEveryByte host value ↔ 0 ∉ value ∧ value.length ≤ 4294967295 ∧ KeptBySubstitution host.env value := by
  constructor
  · intro h
    have hlength : value.length ≤ 4294967295 := by
      obtain ⟨tok, s', hscan, -, hlexeme, -⟩ := h.token (.start (emitString value)) [] (List.append_nil _).symm nofun
      obtain ⟨tok', s'', hscan', -, hlexeme', -⟩ :=
        scanToken_emitString (s := .start (emitString value)) hvalid (List.append_nil _).symm nofun
      cases hscan.symm.trans hscan'
      rw [hlexeme, internN] at hlexeme'
      split at hlexeme'
      · rw [hlexeme']
        exact Nat.zero_le _
      · rename_i hshort
        exact Nat.not_lt.mp hshort
    let tok : Token := ⟨.string, ⟨0, 0, 0, 0, 0, 0⟩, value, [], []⟩
    let p : Parser := .start host [tok]
    have hprevious : p.next.HasPrevious := ⟨tok, Parser.previousToken_next rfl⟩
    obtain ⟨span, v, p', hrun, hread, -⟩ := h.literal p tok rfl rfl rfl rfl
    have hstring {text : List UInt8} {had : Bool} {q : Parser}
        (hsubst : Parser.substituteEnvVars value p.next = .ok ((text, had), q)) : cString text = value := by
      cases hrun.symm.trans (@Parser.parseLiteral_string p _ tok _ _ rfl rfl hsubst)
      exact Option.some.inj hread
    obtain ⟨pieces, unclosed, hreads⟩ := exists_readsPieces value
    obtain ⟨text, had, q, hsubst, -⟩ := Parser.substituteEnvVars_runs hprevious hreads
    have hzero : 0 ∉ value := by
      rw [← hstring hsubst]
      exact zero_not_mem_cString text
    obtain ⟨text, had, q, hsubst, hclean, hkept⟩ := Parser.substituteEnvVars_keeps hprevious henv hzero hlength
    have hsame := hstring hsubst
    rw [cString_of_zero_not_mem hclean] at hsame
    exact ⟨hzero, hlength, hkept.mp hsame⟩
  · rintro ⟨hzero, hlength, hkept⟩
    constructor
    · intro s tail hrest htail
      have hscan := scanToken_emitString hvalid hrest htail
      rwa [internN_of_le hlength] at hscan
    · rintro p tok rfl htok hkind rfl
      obtain ⟨text, had, p', hsubst, -, hiff⟩ :=
        Parser.substituteEnvVars_keeps (p := p.next) ⟨tok, Parser.previousToken_next htok⟩ henv hzero hlength
      obtain rfl := hiff.mpr hkept
      refine ⟨tok.span, _, p', Parser.parseLiteral_string htok hkind hsubst, ?_, ?_⟩
      · exact congrArg some (cString_of_zero_not_mem hzero)
      · exact congrArg some (cString_of_zero_not_mem hzero)

namespace Sample

/-- A quote, a line feed and the two bytes of `é`. -/
def quoteAndMore : List UInt8 := [doubleQuote, lineFeed, 0xc3, 0xa9]

/-- `a`, a zero and `b` -/
def withZero : List UInt8 := ['a'.toUInt8, 0, 'b'.toUInt8]

end Sample

open Sample

theorem keepsEveryByte_quoteAndMore : KeepsEveryByte hostOfA quoteAndMore := by
  refine (keepsEveryByte_iff ((utf8Valid_iff _).mp (by decide)) hostOfA_strings).mpr
    ⟨by decide, by decide, fun pieces hreads _ => ?_⟩
  have hbytes : ReadsPieces quoteAndMore (quoteAndMore.map .byte) false :=
    .byte (by decide) (.byte (by decide) (.byte (by decide) (.byte (by decide) .nil)))
  rw [(hreads.unique hbytes).1]
  rfl

/-- The token has the zero and the byte behind it, and both ends lose them. -/
theorem zero_ends_string :
    WellFormedUtf8 withZero ∧ (Scanner.start (emitString withZero)).scanToken.1.lexeme = withZero ∧
      literalAsString (.string withZero false) = some ['a'.toUInt8] ∧
      descriptorString (.string withZero false) = some ['a'.toUInt8] ∧ ¬KeepsEveryByte hostOfA withZero := by
  refine ⟨(utf8Valid_iff _).mp (by decide), by decide, by decide, by decide, fun h => ?_⟩
  let tok : Token := ⟨.string, ⟨0, 0, 0, 0, 0, 0⟩, withZero, [], []⟩
  let p : Parser := .start hostOfA [tok]
  obtain ⟨span, v, p', hrun, hread, -⟩ := h.literal p tok rfl rfl rfl rfl
  have hsubst : Parser.substituteEnvVars withZero p.next = .ok ((withZero, false), p.next) := rfl
  cases hrun.symm.trans (@Parser.parseLiteral_string p _ tok _ _ rfl rfl hsubst)
  exact absurd hread (by decide)

end Bebop.Compiler
