import Bebop.Compiler.Scanner
import Bebop.Lib.Text

/-!
# Bebop — the spans of a scanner

Every function of the scanner moves over its source by `advance` alone, and adds errors to
its reports: `Reads`. The spans it makes on its way lie end to end (`Covers`), so they tile
what it has moved over.
-/

namespace Bebop.Compiler.Scanner

/-! ## Moving over the source -/

/-- The line and the column are those of the text passed, with whole line breaks. -/
structure Located (s : Scanner) : Prop where
  line : s.line = Text.line s.before.reverse % 2 ^ 32
  col : s.col = Text.column s.before.reverse % 2 ^ 32
  whole : ¬(s.before.head? = some carriageReturn ∧ s.rest.head? = some lineFeed)

/-- From one state the scanner has come to another by moving ahead and reporting errors. -/
structure Reads (s s' : Scanner) : Prop where
  source : s'.source = s.source
  pos : s.pos ≤ s'.pos
  located : s.Located → s'.Located
  reports : ∃ more, s'.reports = s.reports ++ more ∧ ∀ r ∈ more, r.isError = true

variable {s s' s'' : Scanner} {spans spans' : List Span}

theorem located_start (source : List UInt8) : (start source).Located := ⟨rfl, rfl, nofun⟩

theorem Reads.refl (s : Scanner) : s.Reads s := ⟨rfl, Nat.le_refl _, id, [], (List.append_nil _).symm, nofun⟩

theorem Reads.trans (h : s.Reads s') (h' : s'.Reads s'') : s.Reads s'' where
  source := h'.source.trans h.source
  pos := Nat.le_trans h.pos h'.pos
  located := h'.located ∘ h.located
  reports := by
    obtain ⟨more, hmore, herror⟩ := h.reports
    obtain ⟨more', hmore', herror'⟩ := h'.reports
    refine ⟨more ++ more', ?_, ?_⟩
    · rw [hmore', hmore, List.append_assoc]
    · intro r hr
      rcases List.mem_append.mp hr with hr | hr
      · exact herror r hr
      · exact herror' r hr

theorem length_source (s : Scanner) : s.source.length = s.pos + s.rest.length := by
  rw [Scanner.source, List.length_append, List.length_reverse]
  rfl

theorem source_take (s : Scanner) : s.source.take s.pos = s.before.reverse := by
  rw [Scanner.source, Scanner.pos, ← List.length_reverse]
  exact List.take_left

theorem source_drop (s : Scanner) : s.source.drop s.pos = s.rest := by
  rw [Scanner.source, Scanner.pos, ← List.length_reverse]
  exact List.drop_left

theorem Reads.length_rest (h : s.Reads s') : s'.pos + s'.rest.length = s.pos + s.rest.length := by
  rw [← length_source, ← length_source, h.source]

theorem Reads.reports_nil (h : s.Reads s') (hnil : s'.reports = []) : s.reports = [] := by
  obtain ⟨more, hmore, _⟩ := h.reports
  rw [hnil] at hmore
  exact (List.append_eq_nil_iff.mp hmore.symm).1

theorem advance_nil (h : s.rest = []) : s.advance = s := by rw [advance, h]

theorem reads_report (s : Scanner) (code : Nat) (span : Span) (message : String) :
    s.Reads (s.report code span message) := by
  refine ⟨rfl, Nat.le_refl _, fun h => ⟨h.line, h.col, h.whole⟩, _, rfl, ?_⟩
  intro r hr
  rw [List.mem_singleton.mp hr]
  rfl

theorem Located.breaks (h : s.Located) (hrest : s.rest.head? = some lineFeed) :
    Text.Breaks s.before.reverse.getLast? lineFeed := by
  refine .inr ⟨rfl, fun hlast => h.whole ⟨?_, hrest⟩⟩
  rw [List.getLast?_reverse] at hlast
  exact hlast

/-- What `advance` can do where a byte is ahead: pass a byte inside a line, one that
breaks it, or a carriage return together with its line feed. -/
inductive Advances (s : Scanner) : Scanner → Prop
  | inside (c : UInt8) (rest : List UInt8) : s.rest = c :: rest → ¬Text.IsBreak c →
      Advances s { s with before := c :: s.before, rest := rest, col := (s.col + 1) % 2 ^ 32 }
  | lineBreak (c : UInt8) (rest : List UInt8) : s.rest = c :: rest → Text.IsBreak c →
      (c = carriageReturn → rest.head? ≠ some lineFeed) →
      Advances s { s with before := c :: s.before, rest := rest, line := (s.line + 1) % 2 ^ 32, col := 1 }
  | pair (rest : List UInt8) : s.rest = carriageReturn :: lineFeed :: rest →
      Advances s { s with
        before := lineFeed :: carriageReturn :: s.before, rest := rest, line := (s.line + 1) % 2 ^ 32, col := 1 }

theorem advances (h : s.rest ≠ []) : s.Advances s.advance := by
  rcases hrest : s.rest with _ | ⟨c, rest⟩
  · exact absurd hrest h
  rw [advance, hrest]
  dsimp only
  split
  · rename_i hfeed
    refine .lineBreak c rest hrest (.inl hfeed) fun hreturn => ?_
    rw [hfeed] at hreturn
    exact absurd hreturn (by decide)
  split
  · rename_i hreturn
    split
    · exact .lineBreak c [] hrest (.inr hreturn) fun _ => nofun
    · split
      · rename_i d rest hfeed
        subst hfeed hreturn
        exact .pair rest hrest
      · rename_i d rest hfeed
        exact .lineBreak c (d :: rest) hrest (.inr hreturn) fun _ hhead => hfeed (Option.some.inj hhead)
  · rename_i hfeed hreturn
    exact .inside c rest hrest fun hbreak => hbreak.elim hfeed hreturn

theorem pos_advance (h : s.rest ≠ []) : s.pos < s.advance.pos := by
  generalize s.advance = s', advances h = hadvances
  cases hadvances <;> simp only [Scanner.pos, List.length_cons] <;> omega

theorem Located.advances (h : s.Located) (hadvances : s.Advances s') : s'.Located := by
  have hline := h.line
  cases hadvances with
  | inside c rest hrest hinside =>
    refine ⟨?_, ?_, ?_⟩
    · rw [List.reverse_cons, Text.line_concat hinside, hline]
    · rw [List.reverse_cons, Text.column_concat hinside, h.col]
      exact Nat.mod_add_mod _ _ _
    · rintro ⟨hreturn, -⟩
      exact hinside (.inr (Option.some.inj hreturn))
  | lineBreak c rest hrest hbreak hwhole =>
    have hbreaks : Text.Breaks s.before.reverse.getLast? c := by
      rcases hbreak with rfl | rfl
      · exact h.breaks (by rw [hrest]; rfl)
      · exact .inl rfl
    refine ⟨?_, ?_, ?_⟩
    · rw [List.reverse_cons, Text.line_concat_break hbreaks, hline]
      exact Nat.mod_add_mod _ _ _
    · rw [List.reverse_cons]
      exact (congrArg (· % 2 ^ 32) (Text.column_concat_break hbreak)).symm
    · rintro ⟨hreturn, hfeed⟩
      exact hwhole (Option.some.inj hreturn) hfeed
  | pair rest hrest =>
    have hpair : (lineFeed :: carriageReturn :: s.before).reverse = s.before.reverse ++ [0x0d, 0x0a] := by
      simp [lineFeed, carriageReturn]
    refine ⟨?_, ?_, ?_⟩
    · rw [hpair, Text.line_concat_pair, hline]
      exact Nat.mod_add_mod _ _ _
    · rw [hpair]
      exact (congrArg (· % 2 ^ 32) Text.column_concat_pair).symm
    · rintro ⟨hreturn, -⟩
      exact absurd (Option.some.inj hreturn) (by decide)

theorem reads_advance (s : Scanner) : s.Reads s.advance := by
  by_cases hrest : s.rest = []
  · rw [advance_nil hrest]
    exact .refl s
  have hadvances := advances hrest
  refine ⟨?_, Nat.le_of_lt (pos_advance hrest), fun h => h.advances hadvances, [], ?_, nofun⟩
  · generalize s.advance = s' at hadvances
    cases hadvances with
    | inside c rest h => simp [Scanner.source, h]
    | lineBreak c rest h => simp [Scanner.source, h]
    | pair rest h => simp [Scanner.source, h]
  · generalize s.advance = s' at hadvances
    cases hadvances <;> exact (List.append_nil _).symm

theorem reports_advance (s : Scanner) : s.advance.reports = s.reports := by
  by_cases hrest : s.rest = []
  · rw [advance_nil hrest]
  have hadvances := advances hrest
  generalize s.advance = s' at hadvances
  cases hadvances <;> rfl

theorem reads_advanceN (n : Nat) (s : Scanner) : s.Reads (s.advanceN n) := by
  induction n generalizing s with
  | zero => exact .refl s
  | succ n ih => exact (reads_advance s).trans (ih s.advance)

theorem reports_advanceN (n : Nat) (s : Scanner) : (s.advanceN n).reports = s.reports := by
  induction n generalizing s with
  | zero => rfl
  | succ n ih => exact (ih s.advance).trans (reports_advance s)

theorem reads_advanceLoop (cond : Scanner → Bool) (fuel : Nat) (s : Scanner) :
    s.Reads (s.advanceLoop cond fuel) := by
  induction fuel generalizing s with
  | zero => exact .refl s
  | succ fuel ih =>
    rw [advanceLoop]
    split
    · exact (reads_advance s).trans (ih s.advance)
    · exact .refl s

theorem reads_advanceWhile (cond : Scanner → Bool) (s : Scanner) : s.Reads (s.advanceWhile cond) :=
  reads_advanceLoop cond s.rest.length s

theorem peek_of_nil (h : s.rest = []) : s.peek = 0 := by rw [peek, h]; rfl

theorem rest_ne_nil (h : s.peek ≠ 0) : s.rest ≠ [] := fun hnil => h (peek_of_nil hnil)

theorem pos_advanceWhile {cond : Scanner → Bool} (hcond : cond s = true) (h : s.rest ≠ []) :
    s.pos < (s.advanceWhile cond).pos := by
  obtain ⟨fuel, hfuel⟩ : ∃ fuel, s.rest.length = fuel + 1 :=
    ⟨_, (Nat.succ_pred_eq_of_pos (List.length_pos_of_ne_nil h)).symm⟩
  rw [advanceWhile, hfuel, advanceLoop, if_pos hcond]
  exact Nat.lt_of_lt_of_le (pos_advance h) (reads_advanceLoop cond fuel s.advance).pos

theorem advanceWhile_eq_or (cond : Scanner → Bool) (s : Scanner) :
    s.advanceWhile cond = s ∨ s.pos < (s.advanceWhile cond).pos := by
  by_cases hrest : s.rest = []
  · left
    rw [advanceWhile, hrest]
    rfl
  by_cases hcond : cond s = true
  · exact .inr (pos_advanceWhile hcond hrest)
  · left
    rw [advanceWhile]
    cases s.rest.length with
    | zero => rfl
    | succ n => rw [advanceLoop, if_neg hcond]

/-! ## Spans on the way -/

/-- The spans of what the scanner has passed, end to end and none of them empty. -/
inductive Covers : Scanner → List Span → Scanner → Prop
  | nil (s : Scanner) : Covers s [] s
  | cons {s s' s'' : Scanner} {spans : List Span} : s.Reads s' → s.pos < s'.pos → Covers s' spans s'' →
      Covers s (s'.makeSpan s :: spans) s''

theorem Covers.reads (h : s.Covers spans s') : s.Reads s' := by
  induction h with
  | nil s => exact .refl s
  | cons hreads _ _ ih => exact hreads.trans ih

theorem Covers.single (h : s.Reads s') (hpos : s.pos < s'.pos) : s.Covers [s'.makeSpan s] s' :=
  .cons h hpos (.nil s')

theorem Covers.append (h : s.Covers spans s') (h' : s'.Covers spans' s'') :
    s.Covers (spans ++ spans') s'' := by
  induction h with
  | nil s => exact h'
  | cons hreads hpos _ ih => exact .cons hreads hpos (ih h')

structure Positioned (source : List UInt8) (span : Span) : Prop where
  line : span.startLine = Text.line (source.take span.off)
  col : span.startCol = Text.column (source.take span.off)

theorem Located.positioned (h : s.Located) (hsmall : s.source.length < 2 ^ 32)
    (hline : Text.line s.before.reverse < 2 ^ 32) (hcol : Text.column s.before.reverse < 2 ^ 32) :
    Positioned s.source (s'.makeSpan s) := by
  have hlength := s.length_source
  have hoff : (s'.makeSpan s).off = s.pos := Nat.mod_eq_of_lt (by omega)
  refine ⟨?_, ?_⟩
  · rw [hoff, source_take]
    exact h.line.trans (Nat.mod_eq_of_lt hline)
  · rw [hoff, source_take]
    exact h.col.trans (Nat.mod_eq_of_lt hcol)

theorem fits_of_rest (hsmall : s.source.length < 2 ^ 32) (hrest : s.pos < s.source.length) :
    Text.line s.before.reverse < 2 ^ 32 ∧ Text.column s.before.reverse < 2 ^ 32 := by
  have hline := Text.line_le s.before.reverse
  have hcol := Text.column_le s.before.reverse
  rw [List.length_reverse] at hline hcol
  have hpos : s.before.length = s.pos := rfl
  omega

theorem Covers.positioned (h : s.Covers spans s') (hloc : s.Located) (hsmall : s.source.length < 2 ^ 32) :
    ∀ span ∈ spans, Positioned s.source span := by
  induction h with
  | nil s => exact nofun
  | @cons s s' s'' spans hreads hpos hcovers ih =>
    intro span hspan
    rcases List.mem_cons.mp hspan with rfl | hspan
    · have hlength := hreads.length_rest
      have hsource := s.length_source
      obtain ⟨hline, hcol⟩ := fits_of_rest hsmall (by omega)
      exact hloc.positioned hsmall hline hcol
    · rw [← hreads.source] at hsmall ⊢
      exact ih (hreads.located hloc) hsmall span hspan

theorem Covers.tiles (h : s.Covers spans s') (hsmall : s.source.length < 2 ^ 32) :
    Text.Tiles Span.off Span.len s.pos spans s'.pos := by
  induction h with
  | nil s => exact rfl
  | @cons s s' s'' spans hreads hpos hcovers ih =>
    have hsource := s.length_source
    have hlength := hreads.length_rest
    have hoff : (s'.makeSpan s).off = s.pos := Nat.mod_eq_of_lt (by omega)
    have hlen : (s'.makeSpan s).len = s'.pos - s.pos := Nat.mod_eq_of_lt (by omega)
    refine ⟨hoff, ?_⟩
    rw [hlen, Nat.add_sub_cancel' (Nat.le_of_lt hpos)]
    exact ih (by rw [hreads.source]; exact hsmall)

/-! ## Trivia -/

def triviaSpans (trivia : List Trivia) : List Span := trivia.map Trivia.span

theorem skipWhitespace_covers (s : Scanner) :
    s.Covers (triviaSpans s.skipWhitespace.1) s.skipWhitespace.2 := by
  rw [skipWhitespace]
  split
  · rename_i hpos
    exact .single (reads_advanceWhile _ s) hpos
  · rename_i hpos
    rcases advanceWhile_eq_or (fun s => isWhitespace s.peek) s with heq | hmoved
    · dsimp only
      rw [heq]
      exact .nil s
    · exact absurd hmoved hpos

def Passes (s : Scanner) (trivia : Trivia) (s' : Scanner) : Prop :=
  s.Reads s' ∧ s.pos < s'.pos ∧ trivia.span = s'.makeSpan s

theorem Passes.covers {trivia : Trivia} {more : List Span} (h : s.Passes trivia s')
    (hmore : s'.Covers more s'') : s.Covers (trivia.span :: more) s'' := by
  rw [h.2.2]
  exact .cons h.1 h.2.1 hmore

theorem skipNewline_passes {trivia : Trivia} (h : s.skipNewline = some (trivia, s')) :
    s.Passes trivia s' := by
  rw [skipNewline] at h
  split at h
  · nomatch h
  · rename_i hnewline
    cases h
    have hpeek : s.peek ≠ 0 := fun hzero => hnewline (by rw [hzero]; rfl)
    exact ⟨reads_advance s, pos_advance (rest_ne_nil hpeek), rfl⟩

theorem skipLineComment_passes {trivia : Trivia} (h : s.skipLineComment = some (trivia, s')) :
    s.Passes trivia s' := by
  rw [skipLineComment] at h
  split at h
  · nomatch h
  · rename_i hslash
    cases h
    have hpeek : s.peek ≠ 0 := by
      intro hzero
      rw [hzero] at hslash
      exact hslash rfl
    have hreads := (reads_advance s.advance).trans (reads_advanceWhile
      (fun s => s.peek != 0 && !isNewline s.peek) s.advance.advance)
    exact ⟨(reads_advance s).trans hreads, Nat.lt_of_lt_of_le (pos_advance (rest_ne_nil hpeek)) hreads.pos,
      rfl⟩

theorem skipBlockComment_passes {trivia : Trivia} (h : s.skipBlockComment = some (trivia, s')) :
    s.Passes trivia s' := by
  rw [skipBlockComment] at h
  split at h
  · nomatch h
  · rename_i hslash
    have hpeek : s.peek ≠ 0 := by
      intro hzero
      rw [hzero] at hslash
      exact hslash rfl
    have hreads := (reads_advance s.advance).trans (reads_advanceWhile
      (fun s => s.peek != 0 && !(s.peek == '*'.toUInt8 && s.peekAt 1 == '/'.toUInt8)) s.advance.advance)
    have hpos := pos_advance (rest_ne_nil hpeek)
    dsimp only at h
    split at h
    · cases h
      have hclosed := hreads.trans ((reads_advance _).trans (reads_advance _))
      exact ⟨(reads_advance s).trans hclosed, Nat.lt_of_lt_of_le hpos hclosed.pos, rfl⟩
    · cases h
      exact ⟨((reads_advance s).trans hreads).trans (reads_report _ _ _ _), Nat.lt_of_lt_of_le hpos hreads.pos,
        rfl⟩

theorem triviaSpans_append (trivia more : List Trivia) :
    triviaSpans (trivia ++ more) = triviaSpans trivia ++ triviaSpans more := List.map_append

theorem passes_of_orElse {trivia : Trivia}
    (h : (s.skipNewline <|> s.skipLineComment <|> s.skipBlockComment) = some (trivia, s')) :
    s.Passes trivia s' := by
  rcases Option.or_eq_some_iff.mp (Option.orElse_eq_or.symm.trans h) with hnewline | ⟨-, h⟩
  · exact skipNewline_passes hnewline
  · rcases Option.or_eq_some_iff.mp (Option.orElse_eq_or.symm.trans h) with hline | ⟨-, hblock⟩
    · exact skipLineComment_passes hline
    · exact skipBlockComment_passes hblock

theorem leadingLoop_covers (fuel : Nat) (s : Scanner) :
    s.Covers (triviaSpans (s.leadingLoop fuel).1) (s.leadingLoop fuel).2 := by
  induction fuel generalizing s with
  | zero => exact .nil s
  | succ fuel ih =>
    have hblank := s.skipWhitespace_covers
    rw [leadingLoop]
    split
    rename_i blank s' hskip
    rw [hskip] at hblank
    split
    · rename_i trivia s'' hsome
      rw [triviaSpans_append]
      exact hblank.append ((passes_of_orElse hsome).covers (ih s''))
    · exact hblank

theorem trailingLoop_covers (fuel : Nat) (s : Scanner) :
    s.Covers (triviaSpans (s.trailingLoop fuel).1) (s.trailingLoop fuel).2 := by
  induction fuel generalizing s with
  | zero => exact .nil s
  | succ fuel ih =>
    have hblank := s.skipWhitespace_covers
    rw [trailingLoop]
    split
    rename_i blank s' hskip
    rw [hskip] at hblank
    split
    · rename_i trivia s'' hsome
      have hpasses : s'.Passes trivia s'' := by
        rcases Option.or_eq_some_iff.mp (Option.orElse_eq_or.symm.trans hsome) with hline | ⟨-, hblock⟩
        · exact skipLineComment_passes hline
        · exact skipBlockComment_passes hblock
      rw [triviaSpans_append]
      exact hblank.append (hpasses.covers (ih s''))
    · split
      · rename_i trivia s'' hsome
        rw [triviaSpans_append]
        exact hblank.append ((skipNewline_passes hsome).covers (.nil s''))
      · exact hblank

end Bebop.Compiler.Scanner
