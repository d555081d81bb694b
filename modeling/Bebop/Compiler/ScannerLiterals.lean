import Bebop.Compiler.ScannerSpans

/-!
# Bebop — the literals of a source

What may stand between the quotes of a literal, as a grammar (`LiteralBody`), and the
scanner's loop over it: the loop goes to where such a text ends, and where it ends without
an error it has read such a text.
-/

namespace Bebop.Compiler

/-! ## Escapes -/

theorem hexValue_carriageReturn : hexValue carriageReturn = none := rfl

theorem unescapeDigits_take {s : List UInt8} {codepoint digits cp n : Nat}
    (h : unescapeDigits s codepoint digits = some (cp, n)) :
    digits ≤ n ∧ n - digits < s.length ∧ carriageReturn ∉ s.take (n - digits + 1) ∧
      ∀ tail, unescapeDigits (s.take (n - digits + 1) ++ tail) codepoint digits = some (cp, n) := by
  induction s generalizing codepoint digits with
  | nil => nomatch h
  | cons c s ih =>
    rw [unescapeDigits] at h
    split at h
    · rename_i hbrace
      split at h
      · nomatch h
      · rename_i hdigits
        cases h
        refine ⟨Nat.le_refl _, by simp, ?_, fun tail => ?_⟩
        · rw [Nat.sub_self, List.take_succ_cons, List.take_zero, List.mem_singleton, hbrace]
          decide
        · rw [Nat.sub_self, List.take_succ_cons, List.cons_append, unescapeDigits, if_pos hbrace, if_neg hdigits]
    · rename_i hbrace
      split at h
      · nomatch h
      · rename_i val hval
        split at h
        · nomatch h
        · rename_i hmany
          obtain ⟨hle, hlt, hreturn, htail⟩ := ih h
          have hcount : n - digits + 1 = n - (digits + 1) + 1 + 1 := by omega
          refine ⟨by omega, by rw [List.length_cons]; omega, ?_, fun tail => ?_⟩
          · rw [hcount, List.take_succ_cons, List.mem_cons, not_or]
            refine ⟨?_, hreturn⟩
            rintro rfl
            exact nomatch hexValue_carriageReturn.symm.trans hval
          · rw [hcount, List.take_succ_cons, List.cons_append, unescapeDigits, if_neg hbrace, hval]
            dsimp only
            rw [if_neg hmany]
            exact htail tail

theorem unescapeChar_hex (hi lo : UInt8) (s : List UInt8) :
    unescapeChar ('x'.toUInt8 :: hi :: lo :: s) =
      match hexValue hi, hexValue lo with
      | some hi, some lo => some ([.ofNat (hi <<< 4 ||| lo)], 3)
      | _, _ => none := rfl

theorem unescapeChar_codepoint (digit : UInt8) (s : List UInt8) :
    unescapeChar ('u'.toUInt8 :: 0x7b :: digit :: s) =
      match unescapeDigits (digit :: s) 0 0 with
      | none => none
      | some (codepoint, digits) =>
        match utf8Encode codepoint with
        | none => none
        | some out => some (out, digits + 3) := rfl

theorem of_simple_escape {c d : UInt8} {bytes out : List UInt8} {n : Nat} {e : Option (List UInt8 × Nat)}
    (h : (if c = d then some (bytes, 1) else e) = some (out, n)) :
    c = d ∧ bytes = out ∧ 1 = n ∨ e = some (out, n) := by
  by_cases hc : c = d
  · rw [if_pos hc] at h
    obtain ⟨hbytes, hn⟩ := Prod.mk.inj (Option.some.inj h)
    exact .inl ⟨hc, hbytes, hn⟩
  · rw [if_neg hc] at h
    exact .inr h

theorem unescapeChar_take {s out : List UInt8} {n : Nat} (h : unescapeChar s = some (out, n)) :
    n ≤ s.length ∧ carriageReturn ∉ s.take n ∧ ∀ tail, unescapeChar (s.take n ++ tail) = some (out, n) := by
  rcases s with _ | ⟨c, s⟩
  · nomatch h
  unfold unescapeChar at h
  dsimp only at h
  -- the escapes of one character
  iterate 7
    rcases of_simple_escape h with ⟨rfl, rfl, rfl⟩ | hrest
    · exact ⟨by simp, by rw [List.take_succ_cons, List.take_zero]; decide, fun tail => rfl⟩
    clear h
    rename _ = some (out, n) => h
  split at h
  · rename_i hc
    subst hc
    split at h
    · rename_i hi lo s
      split at h
      · rename_i hi' lo' hhi hlo
        cases h
        refine ⟨by simp, ?_, fun tail => ?_⟩
        · show carriageReturn ∉ ['x'.toUInt8, hi, lo]
          rw [List.mem_cons, List.mem_cons, List.mem_singleton]
          rintro (hx | rfl | rfl)
          · exact absurd hx (by decide)
          · exact nomatch hexValue_carriageReturn.symm.trans hhi
          · exact nomatch hexValue_carriageReturn.symm.trans hlo
        · show unescapeChar ('x'.toUInt8 :: hi :: lo :: tail) = _
          rw [unescapeChar_hex, hhi, hlo]
      · nomatch h
    · nomatch h
  split at h
  · rename_i hc
    subst hc
    split at h
    · rename_i brace digit s
      split at h
      · rename_i hbrace
        subst hbrace
        split at h
        · nomatch h
        · rename_i codepoint digits hdigits
          split at h
          · nomatch h
          · rename_i out' hout
            cases h
            obtain ⟨-, hlt, hreturn, htake⟩ := unescapeDigits_take hdigits
            rw [Nat.sub_zero, List.length_cons] at hlt
            rw [Nat.sub_zero, List.take_succ_cons] at hreturn
            refine ⟨by simp; omega, ?_, fun tail => ?_⟩
            · show carriageReturn ∉ 'u'.toUInt8 :: 0x7b :: digit :: s.take digits
              rw [List.mem_cons, List.mem_cons]
              rintro (hu | hbrace | hmem)
              · exact absurd hu (by decide)
              · exact absurd hbrace (by decide)
              · exact hreturn hmem
            · have hdigits' := htake tail
              rw [Nat.sub_zero, List.take_succ_cons, List.cons_append] at hdigits'
              show unescapeChar ('u'.toUInt8 :: 0x7b :: digit :: (s.take digits ++ tail)) = _
              rw [unescapeChar_codepoint, hdigits']
              dsimp only
              rw [hout]
      · nomatch h
    · nomatch h
  · nomatch h

/-! ## The text of a literal -/

/-- One round of reading a literal: the text it takes, the bytes that is read as, and
the text behind it. A quote is doubled; a line break counts as a line feed. -/
inductive LiteralUnit (quote : UInt8) : List UInt8 → List UInt8 → List UInt8 → Prop
  | char {c : UInt8} (rest : List UInt8) : c ≠ 0 → c ≠ quote → c ≠ backslash → isNewline c = false →
      LiteralUnit quote [c] [c] rest
  | newline {c : UInt8} {rest : List UInt8} : isNewline c = true →
      (c = carriageReturn → rest.head? ≠ some lineFeed) → LiteralUnit quote [c] [lineFeed] rest
  | pair (rest : List UInt8) : LiteralUnit quote [carriageReturn, lineFeed] [lineFeed] rest
  | doubled (rest : List UInt8) : LiteralUnit quote [quote, quote] [quote] rest
  | escape {esc out : List UInt8} (rest : List UInt8) : unescapeChar esc = some (out, esc.length) →
      LiteralUnit quote (backslash :: esc) out rest

/-- What may stand between the quotes of a literal, and the bytes it is read as. -/
inductive LiteralBody (quote : UInt8) : List UInt8 → List UInt8 → Prop
  | nil : LiteralBody quote [] []
  | cons {text value body values : List UInt8} : LiteralUnit quote text value body →
      LiteralBody quote body values → LiteralBody quote (text ++ body) (value ++ values)

def IsQuote (c : UInt8) : Prop := c = doubleQuote ∨ c = singleQuote

theorem IsQuote.not_zero {quote : UInt8} (h : IsQuote quote) : quote ≠ 0 := by
  rcases h with rfl | rfl <;> decide

theorem IsQuote.not_backslash {quote : UInt8} (h : IsQuote quote) : quote ≠ backslash := by
  rcases h with rfl | rfl <;> decide

theorem IsQuote.not_newline {quote : UInt8} (h : IsQuote quote) : isNewline quote = false := by
  rcases h with rfl | rfl <;> decide

theorem LiteralUnit.append {quote : UInt8} {text value rest tail : List UInt8} (h : LiteralUnit quote text value rest)
    (htail : tail.head? ≠ some lineFeed) : LiteralUnit quote text value (rest ++ tail) := by
  cases h with
  | char rest hzero hquote hbackslash hnewline => exact .char _ hzero hquote hbackslash hnewline
  | newline hnewline hwhole =>
    refine .newline hnewline fun hc => ?_
    cases rest with
    | nil => exact htail
    | cons d rest => exact hwhole hc
  | pair rest => exact .pair _
  | doubled rest => exact .doubled _
  | escape rest hesc => exact .escape _ hesc

theorem LiteralUnit.of_append {quote : UInt8} {text value rest tail : List UInt8}
    (h : LiteralUnit quote text value (rest ++ tail)) : LiteralUnit quote text value rest := by
  cases h with
  | char _ hzero hquote hbackslash hnewline => exact .char _ hzero hquote hbackslash hnewline
  | newline hnewline hwhole =>
    refine .newline hnewline fun hc => ?_
    cases rest with
    | nil => exact nofun
    | cons d rest => exact hwhole hc
  | pair _ => exact .pair _
  | doubled _ => exact .doubled _
  | escape _ hesc => exact .escape _ hesc

theorem LiteralUnit.length_pos {quote : UInt8} {text value rest : List UInt8} (h : LiteralUnit quote text value rest) :
    0 < text.length := by
  cases h <;> exact Nat.succ_pos _

namespace Scanner

variable {s s' : Scanner} {quote : UInt8} {body value tail buf : List UInt8} {fuel : Nat}

theorem advance_rest (c : UInt8) {rest : List UInt8} (hrest : s.rest = c :: rest)
    (hnewline : c = carriageReturn → rest.head? ≠ some lineFeed) : s.advance.rest = rest := by
  have hadvances := advances (s := s) (by rw [hrest]; exact List.cons_ne_nil _ _)
  generalize s.advance = s' at hadvances
  cases hadvances with
  | inside c' rest' h hinside =>
    rw [hrest] at h
    exact (List.cons.inj h).2.symm
  | lineBreak c' rest' h hbreak hwhole =>
    rw [hrest] at h
    exact (List.cons.inj h).2.symm
  | pair rest' h =>
    rw [hrest] at h
    obtain ⟨rfl, rfl⟩ := List.cons.inj h
    exact absurd rfl (hnewline rfl)

theorem advance_pair {rest : List UInt8} (hrest : s.rest = carriageReturn :: lineFeed :: rest) :
    s.advance.rest = rest := by
  rw [advance, hrest]
  rfl

theorem advanceN_rest {text rest : List UInt8} (hreturn : carriageReturn ∉ text) (hrest : s.rest = text ++ rest) :
    (s.advanceN text.length).rest = rest := by
  induction text generalizing s with
  | nil => exact hrest
  | cons c text ih =>
    rw [List.mem_cons, not_or] at hreturn
    exact ih hreturn.2 (advance_rest c hrest fun hc => absurd hc.symm hreturn.1)

theorem peek_cons {c : UInt8} {rest : List UInt8} (hrest : s.rest = c :: rest) : s.peek = c := by
  rw [peek, hrest]
  rfl

theorem peekAt_one_cons {c : UInt8} {rest : List UInt8} (hrest : s.rest = c :: rest) :
    s.peekAt 1 = rest.headD 0 := by
  rw [peekAt, hrest, List.getD_cons_succ]
  cases rest <;> rfl

/-! ## The loop over a literal -/

theorem literalLoop_unit {text value rest : List UInt8} (hquote : IsQuote quote)
    (h : LiteralUnit quote text value rest) (hrest : s.rest = text ++ rest) (fuel : Nat) (buf : List UInt8) :
    ∃ s', s'.rest = rest ∧ s'.reports = s.reports ∧
      literalLoop quote (fuel + 1) s buf = literalLoop quote fuel s' (buf ++ value) := by
  cases h with
  | @char c rest hzero hq hb hnewline =>
    refine ⟨s.advance, advance_rest c hrest fun hc => ?_, reports_advance s, ?_⟩
    · rw [hc] at hnewline
      exact absurd hnewline (by decide)
    · rw [literalLoop, peek_cons hrest, if_neg hzero, if_neg hq, if_neg hb, hnewline]
      rfl
  | @newline c rest hnewline hwhole =>
    refine ⟨s.advance, advance_rest c hrest hwhole, reports_advance s, ?_⟩
    have hzero : c ≠ 0 := by rintro rfl; exact absurd hnewline (by decide)
    have hq : c ≠ quote := by rintro rfl; exact absurd (hnewline.symm.trans hquote.not_newline) (by decide)
    have hb : c ≠ backslash := by rintro rfl; exact absurd hnewline (by decide)
    rw [literalLoop, peek_cons hrest, if_neg hzero, if_neg hq, if_neg hb, if_pos hnewline]
  | pair rest =>
    refine ⟨s.advance, advance_pair hrest, reports_advance s, ?_⟩
    have hq : carriageReturn ≠ quote := by
      rintro rfl
      exact absurd hquote.not_newline (by decide)
    rw [literalLoop, peek_cons hrest, if_neg (by decide), if_neg hq, if_neg (by decide), if_pos (by decide)]
  | doubled rest =>
    have hreturn : quote ≠ carriageReturn := by
      rintro rfl
      exact absurd hquote.not_newline (by decide)
    have hnext : s.advance.rest = quote :: rest := advance_rest quote hrest fun hc => absurd hc hreturn
    refine ⟨s.advance.advance, advance_rest quote hnext fun hc => absurd hc hreturn,
      (reports_advance _).trans (reports_advance s), ?_⟩
    rw [literalLoop, peek_cons hrest, if_neg hquote.not_zero, if_pos rfl, peekAt_one_cons hrest]
    exact if_pos rfl
  | @escape esc _ rest hesc =>
    have hnext : s.advance.rest = esc ++ rest := advance_rest backslash hrest fun hc => absurd hc (by decide)
    obtain ⟨-, hreturn, htake⟩ := unescapeChar_take hesc
    rw [List.take_length] at hreturn htake
    refine ⟨s.advance.advanceN esc.length, advanceN_rest hreturn hnext,
      (reports_advanceN _ _).trans (reports_advance s), ?_⟩
    rw [literalLoop, peek_cons hrest, if_neg (by decide), if_neg hquote.not_backslash.symm, if_pos rfl, hnext,
      htake rest]

theorem literalLoop_body (fuel : Nat) (buf : List UInt8) (hquote : IsQuote quote) (hbody : LiteralBody quote body value)
    (htail : tail.head? ≠ some lineFeed) (hrest : s.rest = body ++ tail) (hfuel : s.rest.length ≤ fuel) :
    ∃ fuel' s', s'.rest = tail ∧ tail.length ≤ fuel' ∧ s'.reports = s.reports ∧
      literalLoop quote fuel s buf = literalLoop quote fuel' s' (buf ++ value) := by
  induction hbody generalizing s buf fuel with
  | nil =>
    rw [hrest] at hfuel
    exact ⟨fuel, s, hrest, hfuel, rfl, by rw [List.append_nil]⟩
  | @cons text value body values hunit hbody ih =>
    have hpos := hunit.length_pos
    rw [List.append_assoc] at hrest
    rw [hrest, List.length_append] at hfuel
    obtain ⟨fuel, rfl⟩ : ∃ n, fuel = n + 1 := ⟨fuel - 1, by omega⟩
    obtain ⟨s₁, hrest₁, hreports₁, hloop₁⟩ := literalLoop_unit hquote (hunit.append htail) hrest fuel buf
    obtain ⟨fuel', s', htail', hfuel', hreports, hloop⟩ :=
      ih fuel (buf ++ value) hrest₁ (by rw [hrest₁]; omega)
    refine ⟨fuel', s', htail', hfuel', hreports.trans hreports₁, ?_⟩
    rw [hloop₁, hloop, List.append_assoc]

theorem literalLoop_ranOut (fuel : Nat) (buf : List UInt8) (hquote : IsQuote quote) (hbody : LiteralBody quote body value)
    (htail : tail.headD 0 = 0) (hrest : s.rest = body ++ tail) (hfuel : s.rest.length ≤ fuel) :
    ∃ s', s'.rest = tail ∧ s'.reports = s.reports ∧ literalLoop quote fuel s buf = (some (buf ++ value), s') := by
  have hfeed : tail.head? ≠ some lineFeed := by
    cases tail with
    | nil => exact nofun
    | cons c tail =>
      rintro heq
      exact absurd ((Option.some.inj heq).symm.trans htail) (by decide)
  obtain ⟨fuel', s', htail', -, hreports, hloop⟩ := literalLoop_body fuel buf hquote hbody hfeed hrest hfuel
  refine ⟨s', htail', hreports, ?_⟩
  have hpeek : s'.peek = 0 := by rw [peek, htail', htail]
  rw [hloop]
  cases fuel' with
  | zero => rfl
  | succ n => rw [literalLoop, if_pos hpeek]

theorem literalLoop_closed (fuel : Nat) (buf : List UInt8) (hquote : IsQuote quote) (hbody : LiteralBody quote body value)
    (htail : tail.head? ≠ some quote) (hrest : s.rest = body ++ quote :: tail) (hfuel : s.rest.length ≤ fuel) :
    ∃ s', s'.rest = tail ∧ s'.reports = s.reports ∧
      literalLoop quote fuel s buf = (some (buf ++ value), s') := by
  have hreturn : quote ≠ carriageReturn := by
    rintro rfl
    exact absurd hquote.not_newline (by decide)
  have hfeed : (quote :: tail).head? ≠ some lineFeed := by
    rintro heq
    rw [Option.some.inj heq] at hquote
    exact absurd hquote.not_newline (by decide)
  obtain ⟨fuel', s', htail', hfuel', hreports, hloop⟩ := literalLoop_body fuel buf hquote hbody hfeed hrest hfuel
  refine ⟨s'.advance, advance_rest quote htail' fun hc => absurd hc hreturn, (reports_advance _).trans hreports, ?_⟩
  obtain ⟨n, rfl⟩ : ∃ n, fuel' = n + 1 := ⟨fuel' - 1, by rw [List.length_cons] at hfuel'; omega⟩
  have hnext : tail.headD 0 ≠ quote := by
    cases tail with
    | nil => exact hquote.not_zero.symm
    | cons c tail => exact fun heq => htail (congrArg some heq)
  rw [hloop, literalLoop, peek_cons htail', if_neg hquote.not_zero, if_pos rfl, peekAt_one_cons htail',
    if_neg hnext]

theorem literalLoop_cases (hquote : IsQuote quote) (fuel : Nat) (s : Scanner) (buf : List UInt8) :
    (s.peek = 0 ∧ literalLoop quote (fuel + 1) s buf = (some buf, s)) ∨
    (∃ tail, s.rest = quote :: tail ∧ tail.head? ≠ some quote ∧
      literalLoop quote (fuel + 1) s buf = (some buf, s.advance)) ∨
    (∃ s', s.Reads s' ∧ s'.reports ≠ [] ∧ literalLoop quote (fuel + 1) s buf = (none, s')) ∨
    ∃ text value rest s', LiteralUnit quote text value rest ∧ s.rest = text ++ rest ∧ s'.rest = rest ∧
      s.Reads s' ∧ s'.reports = s.reports ∧
      literalLoop quote (fuel + 1) s buf = literalLoop quote fuel s' (buf ++ value) := by
  by_cases hzero : s.peek = 0
  · exact .inl ⟨hzero, by rw [literalLoop, if_pos hzero]⟩
  obtain ⟨c, rest, hrest⟩ := List.exists_cons_of_ne_nil (rest_ne_nil hzero)
  rw [literalLoop, if_neg hzero]
  rw [peek_cons hrest] at hzero ⊢
  right
  by_cases hq : c = quote
  · rw [if_pos hq, peekAt_one_cons hrest]
    subst hq
    have hreturn : c ≠ carriageReturn := by
      rintro rfl
      exact absurd hquote.not_newline (by decide)
    have hnext : s.advance.rest = rest := advance_rest c hrest fun hc => absurd hc hreturn
    by_cases hdouble : rest.headD 0 = c
    · -- a doubled quote
      rw [if_pos hdouble]
      obtain ⟨d, rest, rfl⟩ : ∃ d tail, rest = d :: tail := by
        refine List.exists_cons_of_ne_nil ?_
        rintro rfl
        exact hzero hdouble.symm
      obtain rfl : d = c := hdouble
      exact .inr (.inr ⟨_, _, rest, _, .doubled rest, hrest,
        advance_rest d hnext fun hc => absurd hc hreturn,
        (reads_advance s).trans (reads_advance _), (reports_advance _).trans (reports_advance s), rfl⟩)
    · rw [if_neg hdouble]
      refine .inl ⟨rest, hrest, fun hhead => hdouble ?_, rfl⟩
      rw [List.headD_eq_head?_getD, hhead]
      rfl
  rw [if_neg hq]
  right
  by_cases hb : c = backslash
  · rw [if_pos hb]
    have hnext : s.advance.rest = rest := advance_rest c hrest fun hc => by
      rw [hb] at hc
      exact absurd hc (by decide)
    rw [hnext]
    rcases hescape : unescapeChar rest with _ | ⟨out, consumed⟩
    · refine .inl ⟨_, (reads_advance s).trans (reads_report _ _ _ _), ?_, rfl⟩
      exact List.append_ne_nil_of_right_ne_nil _ (List.cons_ne_nil _ _)
    · right
      obtain ⟨hle, hreturn, htake⟩ := unescapeChar_take hescape
      have hesc : unescapeChar (rest.take consumed) = some (out, (rest.take consumed).length) := by
        have hall := htake []
        rw [List.append_nil] at hall
        rw [hall, List.length_take, Nat.min_eq_left hle]
      have hadvance := advanceN_rest (s := s.advance) hreturn
        (hnext.trans (List.take_append_drop consumed rest).symm)
      rw [List.length_take, Nat.min_eq_left hle] at hadvance
      refine ⟨backslash :: rest.take consumed, out, rest.drop consumed, _, .escape _ hesc, ?_, hadvance,
        (reads_advance s).trans (reads_advanceN _ _), (reports_advanceN _ _).trans (reports_advance s), rfl⟩
      rw [hrest, hb, List.cons_append, List.take_append_drop]
  rw [if_neg hb]
  right
  by_cases hnewline : isNewline c = true
  · rw [if_pos hnewline]
    by_cases hpair : c = carriageReturn ∧ rest.head? = some lineFeed
    · obtain ⟨rfl, hfeed⟩ := hpair
      obtain ⟨rest, rfl⟩ := List.head?_eq_some_iff.mp hfeed
      exact ⟨_, _, rest, _, .pair rest, hrest, advance_pair hrest, reads_advance s, reports_advance s, rfl⟩
    · have hwhole : c = carriageReturn → rest.head? ≠ some lineFeed := fun hc hfeed => hpair ⟨hc, hfeed⟩
      exact ⟨_, _, rest, _, .newline hnewline hwhole, hrest, advance_rest c hrest hwhole, reads_advance s,
        reports_advance s, rfl⟩
  · have hinside : isNewline c = false := Bool.eq_false_iff.mpr hnewline
    rw [if_neg hnewline]
    refine ⟨_, _, rest, _, .char rest hzero hq hb hinside, hrest, advance_rest c hrest fun hc => ?_,
      reads_advance s, reports_advance s, rfl⟩
    rw [hc] at hnewline
    exact absurd rfl hnewline

/-- Where a literal that is read to the text's end or to its quote stops. -/
inductive LiteralEnd (quote : UInt8) (rest : List UInt8) (body : List UInt8) (s' : Scanner) : Prop
  | closed : rest = body ++ quote :: s'.rest → s'.rest.head? ≠ some quote → LiteralEnd quote rest body s'
  | ranOut : rest = body ++ s'.rest → s'.peek = 0 → LiteralEnd quote rest body s'

theorem literalLoop_reads (hquote : IsQuote quote) (hfuel : s.rest.length ≤ fuel) {out : Option (List UInt8)}
    (h : literalLoop quote fuel s buf = (out, s')) :
    s.Reads s' ∧ (out = none → s'.reports ≠ []) ∧
      ∀ text, out = some text → ∃ body value, LiteralBody quote body value ∧ text = buf ++ value ∧
        s'.reports = s.reports ∧ LiteralEnd quote s.rest body s' := by
  induction fuel generalizing s buf with
  | zero =>
    obtain ⟨rfl, rfl⟩ := Prod.mk.inj h
    have hnil : s.rest = [] := List.length_eq_zero_iff.mp (Nat.le_zero.mp hfuel)
    refine ⟨.refl s, nofun, fun text htext => ⟨[], [], .nil, ?_, rfl, .ranOut rfl (peek_of_nil hnil)⟩⟩
    cases htext
    exact (List.append_nil _).symm
  | succ fuel ih =>
    rcases literalLoop_cases hquote fuel s buf with ⟨hzero, hloop⟩ | ⟨tail, hrest, hhead, hloop⟩ |
      ⟨s₁, hreads, hreports, hloop⟩ | ⟨text, value, rest, s₁, hunit, hrest, hrest₁, hreads, hreports, hloop⟩
    · rw [hloop] at h
      obtain ⟨rfl, rfl⟩ := Prod.mk.inj h
      refine ⟨.refl s, nofun, fun text htext => ⟨[], [], .nil, ?_, rfl, .ranOut rfl hzero⟩⟩
      cases htext
      exact (List.append_nil _).symm
    · rw [hloop] at h
      cases h
      have hreturn : quote ≠ carriageReturn := by
        rintro rfl
        exact absurd hquote.not_newline (by decide)
      have hnext : s.advance.rest = tail := advance_rest quote hrest fun hc => absurd hc hreturn
      refine ⟨reads_advance s, nofun, fun text htext => ⟨[], [], .nil, ?_, reports_advance s, .closed ?_ ?_⟩⟩
      · cases htext
        exact (List.append_nil _).symm
      · rw [hnext, hrest, List.nil_append]
      · rw [hnext]
        exact hhead
    · rw [hloop] at h
      cases h
      exact ⟨hreads, fun _ => hreports, nofun⟩
    · rw [hloop] at h
      have hpos := hunit.length_pos
      rw [hrest, List.length_append] at hfuel
      obtain ⟨hreads', hnone, hsome⟩ := ih (by rw [hrest₁]; omega) h
      refine ⟨hreads.trans hreads', hnone, fun out hout => ?_⟩
      obtain ⟨body, values, hbody, htext, hreports', hend⟩ := hsome out hout
      have hunit' : LiteralUnit quote text value body := by
        rw [hrest₁] at hend
        rcases hend with ⟨hclosed, -⟩ | ⟨hranOut, -⟩
        · rw [hclosed] at hunit
          exact hunit.of_append
        · rw [hranOut] at hunit
          exact hunit.of_append
      refine ⟨text ++ body, value ++ values, .cons hunit' hbody, ?_, hreports'.trans hreports, ?_⟩
      · rw [htext, List.append_assoc]
      · rw [hrest₁] at hend
        rcases hend with ⟨hclosed, hhead⟩ | ⟨hranOut, hzero⟩
        · exact .closed (by rw [hrest, hclosed, List.append_assoc]) hhead
        · exact .ranOut (by rw [hrest, hranOut, List.append_assoc]) hzero

end Scanner

theorem LiteralBody.concat {quote : UInt8} {body value : List UInt8} {c : UInt8} (h : LiteralBody quote body value)
    (hzero : c ≠ 0) (hquote : c ≠ quote) (hbackslash : c ≠ backslash) (hnewline : isNewline c = false) :
    LiteralBody quote (body ++ [c]) (value ++ [c]) := by
  induction h with
  | nil =>
    have hone : LiteralBody quote ([c] ++ []) ([c] ++ []) :=
      .cons (.char [] hzero hquote hbackslash hnewline) .nil
    exact hone
  | cons hunit _ ih =>
    rw [List.append_assoc, List.append_assoc]
    refine .cons (hunit.append ?_) ih
    rintro hfeed
    rw [Option.some.inj hfeed] at hnewline
    exact absurd hnewline (by decide)

theorem LiteralBody.not_closed {quote : UInt8} {body value body' value' : List UInt8} (hquote : IsQuote quote)
    (h : LiteralBody quote body value) (h' : LiteralBody quote body' value') : body ≠ body' ++ [quote] := by
  intro heq
  have hletter : (0x61 : UInt8) ≠ quote := by rcases hquote with rfl | rfl <;> decide
  have hmore : LiteralBody quote (body ++ [0x61]) (value ++ [0x61]) :=
    h.concat (by decide) hletter (by decide) (by decide)
  let s := Scanner.start (body ++ [0x61])
  obtain ⟨s₁, hrest₁, -, hloop₁⟩ := Scanner.literalLoop_ranOut s.rest.length [] hquote hmore
    (rfl : ([] : List UInt8).headD 0 = 0) (List.append_nil _).symm (Nat.le_refl _)
  obtain ⟨s₂, hrest₂, -, hloop₂⟩ := Scanner.literalLoop_closed s.rest.length [] hquote h'
    (fun hhead : [0x61].head? = some quote => hletter (Option.some.inj hhead))
    (by show body ++ [0x61] = _; rw [heq, List.append_assoc]; rfl) (Nat.le_refl _)
  rw [hloop₁] at hloop₂
  rw [(Prod.mk.inj hloop₂).2, hrest₂] at hrest₁
  exact nomatch hrest₁

end Bebop.Compiler
