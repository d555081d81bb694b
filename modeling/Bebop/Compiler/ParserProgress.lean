import Bebop.Compiler.Parser

/-!
# Bebop — the parser in its stream

What the parts of the parser keep: the cursor is at a token of a stream whose last one is
the end of the file, and it only goes forward (`progress`). The parser looks back at a
token only when one has been read, so most parts need the cursor behind the first.
-/

namespace Bebop.Compiler

open Fallible

namespace Parser

/-- The cursor is at a token, the last token is the end of the file, and no error is fatal. -/
structure Sound (p : Parser) : Prop where
  inside : p.current < p.stream.length
  last : ∃ tok, p.stream[p.stream.length - 1]? = some tok ∧ tok.kind = .eof
  running : p.fatal = false

/-- The same stream, at the same token or a later one. -/
structure Follows (p p' : Parser) : Prop where
  stream : p'.stream = p.stream
  current : p.current ≤ p'.current

def At (p : Parser) (kind : TokenKind) : Prop := ∃ tok, p.stream[p.current]? = some tok ∧ tok.kind = kind

/-- What the parts of the parser keep that need so many tokens before the cursor. -/
def progress (n : Nat) : Progress Parser where
  inv p := p.Sound ∧ n ≤ p.current
  le := Follows
  rank := Parser.current
  limit p := p.stream.length
  refl _ := ⟨rfl, Nat.le_refl _⟩
  trans h h' := ⟨h'.stream.trans h.stream, Nat.le_trans h.current h'.current⟩
  rank_le h := h.current
  limit_eq h := by rw [h.stream]
  rank_lt h := h.1.inside

variable {p p' : Parser} {n : Nat} {α β γ : Type}

def next (p : Parser) : Parser := { p with current := p.current + 1 }

theorem Follows.next (p : Parser) : Follows p p.next := ⟨rfl, Nat.le_succ _⟩

theorem Sound.token (h : p.Sound) : ∃ tok, p.stream[p.current]? = some tok := by
  have hinside := h.inside
  exact ⟨p.stream[p.current], List.getElem?_eq_getElem hinside⟩

theorem Sound.next (h : p.Sound) (hahead : ¬p.At .eof) : p.next.Sound := by
  obtain ⟨tok, hlast, heof⟩ := h.last
  refine ⟨?_, h.last, h.running⟩
  show p.current + 1 < p.stream.length
  have hinside := h.inside
  by_contra hnot
  have hcurrent : p.current = p.stream.length - 1 := by omega
  exact hahead ⟨tok, by rw [hcurrent]; exact hlast, heof⟩

theorem At.unique {kind kind' : TokenKind} (h : p.At kind) (h' : p.At kind') : kind = kind' := by
  obtain ⟨tok, htok, rfl⟩ := h
  obtain ⟨tok', htok', rfl⟩ := h'
  rw [htok] at htok'
  rw [Option.some.inj htok']

theorem Follows.at_iff (hle : Follows p p') (hstay : ¬p.current < p'.current) (kind : TokenKind) :
    p'.At kind ↔ p.At kind := by
  have hcurrent : p'.current = p.current := Nat.le_antisymm (Nat.le_of_not_lt hstay) hle.current
  unfold At
  rw [hle.stream, hcurrent]

/-! ## Reading and passing a token -/

theorem wp_tokenAt {Q : Token → Parser → Prop} {i : Nat} (hi : i < p.stream.length) (h : ∀ tok, Q tok p) :
    wp (tokenAt i) Q p := by
  refine ⟨p.stream[i], p, ?_, h _⟩
  unfold tokenAt
  rw [List.getElem?_eq_getElem hi]

theorem wp_currentToken {Q : Token → Parser → Prop} (hp : p.Sound)
    (h : ∀ tok, p.stream[p.current]? = some tok → Q tok p) : wp currentToken Q p := by
  obtain ⟨tok, htok⟩ := hp.token
  refine ⟨tok, p, ?_, h tok htok⟩
  show tokenAt p.current p = _
  unfold tokenAt
  rw [htok]

theorem wp_previousToken {Q : Token → Parser → Prop} (hp : p.Sound) (hstarted : 1 ≤ p.current)
    (h : ∀ tok, Q tok p) : wp previousToken Q p := by
  unfold previousToken
  refine wp_bind (wp_get ?_)
  rw [if_neg (by omega)]
  exact wp_tokenAt (by have := hp.inside; omega) h

theorem wp_check {Q : Bool → Parser → Prop} {kind : TokenKind} (hp : p.Sound)
    (hat : p.At kind → Q true p) (hnot : ¬p.At kind → Q false p) : wp (check kind) Q p := by
  unfold check
  refine wp_bind (wp_currentToken hp fun tok htok => wp_pure ?_)
  by_cases hkind : tok.kind = kind
  · rw [decide_eq_true hkind]
    exact hat ⟨tok, htok, hkind⟩
  · rw [decide_eq_false hkind]
    refine hnot fun ⟨tok', htok', hkind'⟩ => hkind ?_
    rw [htok] at htok'
    rw [Option.some.inj htok', hkind']

theorem wp_look {Q : Bool → Parser → Prop} {kind : TokenKind} (hp : p.Sound)
    (h : ∀ b, (b = true → p.At kind) → Q b p) : wp (check kind) Q p :=
  wp_check hp (fun hat => h true fun _ => hat) fun _ => h false nofun

theorem wp_atEnd {Q : Bool → Parser → Prop} (hp : p.Sound) (hat : p.At .eof → Q true p)
    (hnot : ¬p.At .eof → Q false p) : wp atEnd Q p := wp_check hp hat hnot

theorem wp_advance {Q : Unit → Parser → Prop} (hp : p.Sound) (hat : p.At .eof → Q () p)
    (hnot : ¬p.At .eof → p.next.Sound → Q () p.next) : wp advance Q p := by
  unfold advance
  refine wp_bind (wp_atEnd hp (fun h => ?_) fun h => ?_)
  · exact wp_pure (hat h)
  · exact wp_modify (hnot h (hp.next h))

theorem keeps_modify {g : Parser → Parser} (hstream : ∀ p, (g p).stream = p.stream)
    (hcurrent : ∀ p, (g p).current = p.current) (hfatal : ∀ p, (g p).fatal = p.fatal) :
    Keeps (progress n) (modify g : Parse Unit) := by
  refine Keeps.modify fun p ⟨hp, hn⟩ => ⟨⟨⟨?_, ?_, ?_⟩, ?_⟩, ⟨hstream p, Nat.le_of_eq (hcurrent p).symm⟩⟩
  · rw [hstream, hcurrent]
    exact hp.inside
  · rw [hstream]
    exact hp.last
  · rw [hfatal]
    exact hp.running
  · rw [hcurrent]
    exact hn

instance : Keeps (progress n) currentToken :=
  ⟨fun p hp => wp_currentToken hp.1 fun _ _ => ⟨hp, (progress n).refl p⟩⟩

instance : Keeps (progress 1) previousToken :=
  ⟨fun p hp => wp_previousToken hp.1 hp.2 fun _ => ⟨hp, (progress 1).refl p⟩⟩

instance (kind : TokenKind) : Keeps (progress n) (check kind) := by
  unfold check
  infer_instance

instance : Keeps (progress n) atEnd := by
  unfold atEnd
  infer_instance

instance : Keeps (progress n) advance := by
  refine ⟨fun p hp => wp_advance hp.1 (fun _ => ⟨hp, (progress n).refl p⟩) fun _ hnext => ?_⟩
  exact ⟨⟨hnext, Nat.le_succ_of_le hp.2⟩, Follows.next p⟩

instance (i : Nat) : Keeps (progress n) (peek i) := by
  refine ⟨fun p hp => ?_⟩
  unfold peek
  have hinside := hp.1.inside
  refine wp_bind (wp_get (wp_ite (fun h => ?_) fun h => ?_))
  · exact wp_tokenAt (by omega) fun _ => ⟨hp, (progress n).refl p⟩
  · exact wp_tokenAt (by omega) fun _ => ⟨hp, (progress n).refl p⟩

/-! ## Errors and checks -/

instance (report : Report) : Keeps (progress n) (addReport report) :=
  keeps_modify (fun _ => rfl) (fun _ => rfl) fun _ => rfl

instance (reports : List Report) : Keeps (progress n) (addReports reports) :=
  keeps_modify (fun _ => rfl) (fun _ => rfl) fun _ => rfl

theorem wp_parseErrorAt {Q : Unit → Parser → Prop} {span : Span} {code : Nat} {message : String} (hp : p.Sound)
    (h : ∀ p', p'.Sound → p'.stream = p.stream → p'.current = p.current → p'.panicMode = true → Q () p') :
    wp (parseErrorAt span code message) Q p := by
  refine wp_modify ?_
  split
  next hquiet =>
    rw [hp.running, Bool.or_false] at hquiet
    exact h p hp rfl rfl hquiet
  next => exact h _ ⟨hp.inside, hp.last, hp.running⟩ rfl rfl rfl

instance (span : Span) (code : Nat) (message : String) : Keeps (progress n) (parseErrorAt span code message) := by
  refine ⟨fun p hp => wp_parseErrorAt hp.1 fun p' hp' hstream hcurrent _ => ?_⟩
  exact ⟨⟨hp', hcurrent ▸ hp.2⟩, ⟨hstream, Nat.le_of_eq hcurrent.symm⟩⟩

theorem wp_errorCurrent {Q : Unit → Parser → Prop} {code : Nat} {message : String} (hp : p.Sound)
    (h : ∀ p', p'.Sound → p'.stream = p.stream → p'.current = p.current → p'.panicMode = true → Q () p') :
    wp (errorCurrent code message) Q p :=
  wp_bind (wp_currentToken hp fun _ _ => wp_parseErrorAt hp h)

instance (code : Nat) (message : String) : Keeps (progress n) (errorCurrent code message) := by
  unfold errorCurrent
  infer_instance

instance (code : Nat) (message : String) : Keeps (progress 1) (errorPrevious code message) := by
  unfold errorPrevious
  infer_instance

instance (span : Span) (code : Nat) (message : String) : Keeps (progress n) (warning span code message) := by
  unfold warning
  infer_instance

instance : Keeps (progress n) clearPanic := keeps_modify (fun _ => rfl) (fun _ => rfl) fun _ => rfl

instance (name : Text) (kind : DefKind) : Keeps (progress n) (enterDef name kind) :=
  keeps_modify (fun _ => rfl) (fun _ => rfl) fun _ => rfl

instance : Keeps (progress n) exitDef := keeps_modify (fun _ => rfl) (fun _ => rfl) fun _ => rfl

instance (name : Text) (span : Span) : Keeps (progress n) (checkReservedName name span) := by
  unfold checkReservedName
  infer_instance

instance (name : Text) (span : Span) : Keeps (progress n) (checkDuplicateName name span) := by
  unfold checkDuplicateName
  have hadd : Keeps (progress n) (modify fun p =>
      { p with sema := { p.sema with nameScope := p.sema.nameScope ++ [(name, span)] } } : Parse Unit) :=
    keeps_modify (fun _ => rfl) (fun _ => rfl) fun _ => rfl
  infer_instance

instance (index : Nat) (span : Span) : Keeps (progress n) (checkFieldIndex index span) := by
  unfold checkFieldIndex
  have hadd : Keeps (progress n) (modify fun p =>
      { p with sema := { p.sema with seenIndices := p.sema.seenIndices ++ [(index, span)] } } : Parse Unit) :=
    keeps_modify (fun _ => rfl) (fun _ => rfl) fun _ => rfl
  infer_instance

instance (keyType : Ty) : Keeps (progress n) (checkMapKeyType keyType) := by
  unfold checkMapKeyType
  split
  · infer_instance
  · infer_instance

instance (type : Ty) : Keeps (progress n) (checkSelfReference type) := by
  unfold checkSelfReference
  have hcheck (p : Parser) : Keeps (progress n) (match p.sema.currentDef, type with
      | some (name, .struct), .defined span refName _ =>
        if refName = name then
          addReport (errorAt 116 span ("Struct " ++ quote name ++ " cannot contain itself directly") none)
        else pure ()
      | _, _ => pure () : Parse Unit) := by
    split
    · infer_instance
    · infer_instance
  infer_instance

/-! ## Passing a token of a kind -/

theorem wp_matchToken {Q : Bool → Parser → Prop} {kind : TokenKind} (hkind : kind ≠ .eof) (hp : p.Sound)
    (hpass : p.next.Sound → Q true p.next) (hnot : ¬p.At kind → Q false p) : wp (matchToken kind) Q p := by
  unfold matchToken
  refine wp_bind (wp_check hp (fun hat => ?_) fun hnone => ?_)
  · exact wp_bind (wp_advance hp (fun heof => absurd (hat.unique heof) hkind) fun _ hnext => wp_pure (hpass hnext))
  · exact wp_pure (hnot hnone)

theorem matchToken_gains {kind : TokenKind} (hkind : kind ≠ .eof) :
    Gains (progress n) (matchToken kind) fun r _ => r = true := by
  refine ⟨fun p hp => wp_matchToken hkind hp.1 (fun hnext => ?_) fun _ => ?_⟩
  · exact ⟨⟨hnext, Nat.le_succ_of_le hp.2⟩, Follows.next p, fun _ => Nat.lt_succ_self _⟩
  · exact ⟨hp, (progress n).refl p, nofun⟩

instance (kind : TokenKind) : Keeps (progress n) (matchToken kind) := by
  unfold matchToken
  infer_instance

instance (kind : TokenKind) (message : String) : Keeps (progress n) (consume kind message) := by
  unfold consume
  infer_instance

instance (kind : TokenKind) (message : String) : Keeps (progress 1) (consumeAfter kind message) := by
  unfold consumeAfter
  infer_instance

instance (message : String) : Keeps (progress n) (consumeName message) := by
  unfold consumeName
  infer_instance

theorem advance_passes (hp : p.Sound) (hahead : ¬p.At .eof) :
    wp advance (fun _ p' => p'.Sound ∧ Follows p p' ∧ p.current < p'.current) p :=
  wp_advance hp (fun heof => absurd heof hahead) fun _ hnext => ⟨hnext, Follows.next p, Nat.lt_succ_self _⟩

theorem At.ne_eof {tok : Token} (htok : p.stream[p.current]? = some tok) (hkind : tok.kind ≠ .eof) : ¬p.At .eof := by
  rintro ⟨tok', htok', heof⟩
  rw [htok] at htok'
  rw [Option.some.inj htok'] at hkind
  exact hkind heof

theorem runAdvance_passes {g : Unit → Attempt α} [hg : ∀ a, Keeps (progress n) (g a).run]
    (hp : (progress n).inv p) (hahead : ¬p.At .eof) :
    wp (liftM advance >>= g).run (fun _ p' => (progress n).inv p' ∧ Follows p p' ∧ p.current < p'.current) p := by
  refine wp_runLift (wp_mono (advance_passes hp.1 hahead) fun a p₁ ⟨hp₁, hle₁, hlt₁⟩ => ?_)
  refine (hg a).wp ⟨hp₁, Nat.le_trans hp.2 hle₁.current⟩ fun _ p₂ hp₂ hle₂ => ?_
  exact ⟨hp₂, (progress n).trans hle₁ hle₂, Nat.lt_of_lt_of_le hlt₁ hle₂.current⟩

/-- `consume`, or with the error of `consumeAfter`. -/
theorem checked_gains {kind : TokenKind} {fails : Parse Unit} [Keeps (progress n) fails] (hkind : kind ≠ .eof) :
    Gains (progress n) (do
      if ← check kind then
        advance
        return true
      else
        fails
        return false) fun r _ => r = true := by
  have hnone : Gains (progress n) (do fails; return false) fun r _ => r = true :=
    Gains.after fun _ => Gains.pure fun _ => Bool.false_ne_true
  refine ⟨fun p hp => wp_bind (wp_check hp.1 (fun hat => ?_) fun _ => hnone.runs p hp)⟩
  refine wp_bind (wp_mono (advance_passes hp.1 fun heof => hkind (hat.unique heof)) ?_)
  exact fun _ p' ⟨hp', hle, hlt⟩ => wp_pure ⟨⟨hp', Nat.le_trans hp.2 hle.current⟩, hle, fun _ => hlt⟩

theorem consume_gains {kind : TokenKind} {message : String} (hkind : kind ≠ .eof) :
    Gains (progress n) (consume kind message) fun r _ => r = true := checked_gains hkind

theorem consumeAfter_gains {kind : TokenKind} {message : String} (hkind : kind ≠ .eof) :
    Gains (progress 1) (consumeAfter kind message) fun r _ => r = true := checked_gains hkind

theorem consumeName_gains {message : String} :
    Gains (progress n) (consumeName message) fun r p' => r = true ∨ p'.panicMode = false := by
  refine ⟨fun p hp => wp_bind (wp_currentToken hp.1 fun tok htok => wp_ite (fun hname => ?_) fun _ => ?_)⟩
  · have hahead : ¬p.At .eof := by
      refine At.ne_eof htok fun heof => ?_
      rw [heof] at hname
      exact absurd hname (by decide)
    refine wp_bind (wp_mono (advance_passes hp.1 hahead) ?_)
    exact fun _ p' ⟨hp', hle, hlt⟩ => wp_pure ⟨⟨hp', Nat.le_trans hp.2 hle.current⟩, hle, fun _ => hlt⟩
  · refine wp_bind (wp_errorCurrent hp.1 fun p' hp' hstream hcurrent hpanic => wp_pure ?_)
    refine ⟨⟨hp', hcurrent ▸ hp.2⟩, ⟨hstream, Nat.le_of_eq hcurrent.symm⟩, ?_⟩
    rintro (hr | hcalm)
    · exact nomatch hr
    · rw [hpanic] at hcalm
      exact nomatch hcalm

instance (test : Parse Bool) [Keeps (progress n) test] : Keeps (progress n) (expect test).run := by
  unfold expect
  infer_instance

theorem expect_gains {test : Parse Bool} {so : Bool → Parser → Prop} (h : Gains (progress n) test so) :
    Gains (progress n) (expect test).run fun r p' => so r.isSome p' := by
  refine ⟨fun p hp => ?_⟩
  unfold expect
  show wp (OptionT.lift test >>= _).run _ p
  rw [OptionT.run_bind_lift]
  refine wp_bind (h.wp hp fun r p' hp' hle hlt => ?_)
  cases r with
  | true => exact wp_pure ⟨hp', hle, hlt⟩
  | false => exact wp_pure ⟨hp', hle, hlt⟩

theorem wp_expect {test : Parse Bool} {g : Unit → Attempt α} {Q : Option α → Parser → Prop}
    (h : wp test (fun r p' => (r = true → wp (g ()).run Q p') ∧ (r = false → Q none p')) p) :
    wp (expect test >>= g).run Q p := by
  refine wp_runBind (wp_runLift (wp_mono h fun r p' ⟨htrue, hfalse⟩ => ?_))
  cases r with
  | true => exact wp_pure ⟨fun _ _ => htrue rfl, nofun⟩
  | false => exact wp_pure ⟨nofun, fun _ => hfalse rfl⟩

theorem wp_expectGains {test : Parse Bool} {g : Unit → Attempt α} {Q : Option α → Parser → Prop}
    (h : Gains (progress n) test fun r _ => r = true) (hp : (progress n).inv p)
    (hpass : ∀ p', (progress n).inv p' → Follows p p' → p.current < p'.current → wp (g ()).run Q p')
    (hnone : ∀ p', (progress n).inv p' → Follows p p' → Q none p') : wp (expect test >>= g).run Q p :=
  wp_expect (h.wp hp fun _ p' hp' hle hlt => ⟨fun hr => hpass p' hp' hle (hlt hr), fun _ => hnone p' hp' hle⟩)

/-! ## Loops over the stream -/

instance : Keeps (progress n) rounds := by
  unfold rounds
  infer_instance

theorem overStream_keeps {body : β → Parse (β ⊕ γ)} (h : ∀ b, Gains (progress n) (body b) fun r _ => r.isLeft)
    (init : β) : Keeps (progress n) (overStream body init) := by
  refine ⟨fun p hp => wp_bind (wp_bind (wp_get (wp_pure ?_)))⟩
  exact wp_loop_gains h hp (Nat.lt_add_right _ (Nat.lt_succ_self _))

theorem wp_overStream_stop {body : β → Parse (β ⊕ γ)} {init : β} {Q : γ → Parser → Prop}
    (h : wp (body init) (fun r p' => ∃ c, r = .inr c ∧ Q c p') p) : wp (overStream body init) Q p := by
  refine wp_bind (wp_bind (wp_get (wp_pure (wp_bind (wp_mono h ?_)))))
  rintro _ p' ⟨c, rfl, hQ⟩
  exact wp_pure hQ

theorem wp_overStream_first {body : β → Parse (β ⊕ γ)} {init : β}
    (h : ∀ b, Gains (progress n) (body b) fun r _ => r.isLeft)
    (hfirst : wp (body init) (fun r p' => (progress n).inv p' ∧ Follows p p' ∧ p.current < p'.current) p) :
    wp (overStream body init) (fun _ p' => (progress n).inv p' ∧ Follows p p' ∧ p.current < p'.current) p := by
  refine wp_bind (wp_bind (wp_get (wp_pure (wp_bind (wp_mono hfirst ?_)))))
  rintro r p₁ ⟨hp₁, hle₁, hlt₁⟩
  cases r with
  | inr c => exact wp_pure ⟨hp₁, hle₁, hlt₁⟩
  | inl b =>
    have hlimit : p₁.stream.length = p.stream.length := by rw [hle₁.stream]
    refine wp_mono (wp_loop_gains h hp₁ ?_) fun _ p₂ ⟨hp₂, hle₂⟩ => ?_
    · show p₁.stream.length < p.stream.length + p₁.current
      omega
    · exact ⟨hp₂, (progress n).trans hle₁ hle₂, Nat.lt_of_lt_of_le hlt₁ hle₂.current⟩

/-! ## Skipping -/

/-- The program passes a token, if there is one before the end. -/
def Skips (m : Parse Unit) : Prop :=
  ∀ p : Parser, p.Sound → wp m (fun _ p' => p'.Sound ∧ Follows p p' ∧ (¬p.At .eof → p.current < p'.current)) p

theorem advanceRound_gains {b : β} (hp : p.Sound) (hn : n ≤ p.current) (hahead : ¬p.At .eof) :
    wp (do advance; return .inl b) (fun (r : β ⊕ γ) p' =>
      (progress n).inv p' ∧ Follows p p' ∧ (r.isLeft → p.current < p'.current)) p := by
  refine wp_bind (wp_mono (advance_passes hp hahead) fun _ p' ⟨hp', hle, hlt⟩ => wp_pure ?_)
  exact ⟨⟨hp', Nat.le_trans hn hle.current⟩, hle, fun _ => hlt⟩

theorem skipRound_gains (stops : TokenKind → Bool) : Gains (progress 1) (skipRound stops) fun r _ => r.isLeft := by
  refine ⟨fun p hp => ?_⟩
  have hstay : (progress 1).inv p ∧ Follows p p ∧ ((.inr () : Unit ⊕ Unit).isLeft → p.current < p.current) :=
    ⟨hp, (progress 1).refl p, nofun⟩
  unfold skipRound
  refine wp_bind (wp_atEnd hp.1 (fun _ => wp_pure hstay) fun hahead => wp_bind (wp_previousToken hp.1 hp.2 fun _ => ?_))
  refine wp_ite (fun _ => wp_pure hstay) fun _ => wp_bind (wp_currentToken hp.1 fun _ _ => ?_)
  exact wp_ite (fun _ => wp_pure hstay) fun _ => advanceRound_gains hp.1 hp.2 hahead

theorem skipUntil_skips (stops : TokenKind → Bool) : Skips (skipUntil stops) := by
  intro p hp
  have hcalm : Sound { p with panicMode := false } := ⟨hp.inside, hp.last, hp.running⟩
  refine wp_bind (wp_modify (wp_bind (wp_advance hcalm (fun heof => ?_) fun hahead hnext => ?_)))
  · -- at the end of the file the first round is the last, and looks at no token before
    refine wp_overStream_stop (wp_bind (wp_atEnd hcalm (fun _ => ?_) fun hahead => absurd heof hahead))
    exact wp_pure ⟨(), rfl, hcalm, ⟨rfl, Nat.le_refl _⟩, fun hahead => absurd heof hahead⟩
  · have hstarted : 1 ≤ (next { p with panicMode := false }).current := Nat.succ_le_succ (Nat.zero_le _)
    refine (overStream_keeps (fun _ => skipRound_gains stops) ()).wp ⟨hnext, hstarted⟩ fun _ p' hp' hle => ?_
    have hless : p.current < p'.current := hle.current
    exact ⟨hp'.1, ⟨hle.stream, Nat.le_of_lt hless⟩, fun _ => hless⟩

theorem synchronize_skips : Skips synchronize := skipUntil_skips _

theorem synchronizeInBlock_skips : Skips synchronizeInBlock := skipUntil_skips _

theorem Skips.keeps {m : Parse Unit} (h : Skips m) : Keeps (progress n) m :=
  ⟨fun p hp => wp_mono (h p hp.1) fun _ _ ⟨hp', hle, _⟩ => ⟨⟨hp', Nat.le_trans hp.2 hle.current⟩, hle⟩⟩

instance : Keeps (progress n) synchronize := synchronize_skips.keeps

instance : Keeps (progress n) synchronizeInBlock := synchronizeInBlock_skips.keeps

instance {skip : Parse Unit} [Keeps (progress n) skip] : Keeps (progress n) (recover skip) := by
  unfold recover
  infer_instance

theorem recover_passes {skip : Parse Unit} (h : Skips skip) {p₀ : Parser} (hp : p.Sound) (hle : Follows p₀ p)
    (hahead : ¬p₀.At .eof) (hcalm : p.panicMode = false → p₀.current < p.current) :
    wp (recover skip) (fun _ p' => p'.Sound ∧ Follows p₀ p' ∧ p₀.current < p'.current) p := by
  refine wp_bind (wp_get (wp_ite (fun _ => ?_) fun hpanic => ?_))
  · refine wp_mono (h p hp) fun _ p' ⟨hp', hle', hlt⟩ => ?_
    have hfollows : Follows p₀ p' := (progress 0).trans hle hle'
    refine ⟨hp', hfollows, ?_⟩
    by_cases hmoved : p₀.current < p.current
    · exact Nat.lt_of_lt_of_le hmoved hle'.current
    · -- a cursor that has not moved is not at the end of the file yet
      exact Nat.lt_of_le_of_lt hle.current (hlt fun heof => hahead ((hle.at_iff hmoved .eof).mp heof))
  · exact wp_pure ⟨hp, hle, hcalm (Bool.not_eq_true _ ▸ hpanic)⟩

/-- The cursor is at the name of an item of a decorator's body. -/
def AtBodyItem (p : Parser) : Prop :=
  ∃ tok, p.stream[p.current]? = some tok ∧ tok.kind = .identifier ∧ decoratorBodyItems.contains tok.text = true

theorem wp_isDecoratorBodyItem {Q : Bool → Parser → Prop} (hp : p.Sound)
    (h : ∀ b, (b = true → p.AtBodyItem) → Q b p) : wp isDecoratorBodyItem Q p := by
  refine wp_bind (wp_currentToken hp fun tok htok => wp_pure (h _ fun hitem => ⟨tok, htok, ?_⟩))
  simpa only [Bool.and_eq_true, decide_eq_true_eq] using hitem

theorem decoratorSkipRound_runs {depth : Nat} (hp : (progress n).inv p) :
    wp (decoratorSkipRound depth) (fun r p' => (progress n).inv p' ∧ Follows p p' ∧
      (r.isLeft ∨ (¬p.At .eof ∧ ¬p.At .rbrace ∧ ¬p.AtBodyItem) → p.current < p'.current)) p := by
  have hstay (hend : p.At .eof ∨ p.At .rbrace ∨ p.AtBodyItem) : (progress n).inv p ∧ Follows p p ∧
      ((.inr () : Nat ⊕ Unit).isLeft ∨ (¬p.At .eof ∧ ¬p.At .rbrace ∧ ¬p.AtBodyItem) → p.current < p.current) := by
    refine ⟨hp, (progress n).refl p, ?_⟩
    rintro (hr | ⟨heof, hrbrace, hitem⟩)
    · exact nomatch hr
    · rcases hend with h | h | h
      · exact absurd h heof
      · exact absurd h hrbrace
      · exact absurd h hitem
  have hpass (hahead : ¬p.At .eof) {m : Unit → Parse (Nat ⊕ Unit)} [hm : ∀ a, Keeps (progress n) (m a)] :
      wp (advance >>= m) (fun r p' => (progress n).inv p' ∧ Follows p p' ∧
        (r.isLeft ∨ (¬p.At .eof ∧ ¬p.At .rbrace ∧ ¬p.AtBodyItem) → p.current < p'.current)) p := by
    refine wp_bind (wp_mono (advance_passes hp.1 hahead) fun a p₁ ⟨hp₁, hle₁, hlt₁⟩ => ?_)
    refine (hm a).wp ⟨hp₁, Nat.le_trans hp.2 hle₁.current⟩ fun r p₂ hp₂ hle₂ => ?_
    exact ⟨hp₂, (progress n).trans hle₁ hle₂, fun _ => Nat.lt_of_lt_of_le hlt₁ hle₂.current⟩
  unfold decoratorSkipRound
  refine wp_bind (wp_atEnd hp.1 (fun heof => wp_pure (hstay (.inl heof))) fun hahead => ?_)
  refine wp_bind (wp_look hp.1 fun _ _ => wp_bind (wp_look hp.1 fun b hrbrace => wp_ite (fun hends => ?_) fun _ => ?_))
  · rw [Bool.and_eq_true] at hends
    exact wp_pure (hstay (.inr (.inl (hrbrace hends.1))))
  refine wp_bind (wp_look hp.1 fun _ _ => wp_bind (wp_look hp.1 fun _ _ => wp_ite (fun _ => hpass hahead) fun _ => ?_))
  refine wp_bind (wp_isDecoratorBodyItem hp.1 fun b hitem => wp_ite (fun hends => ?_) fun _ => hpass hahead)
  rw [Bool.and_eq_true] at hends
  exact wp_pure (hstay (.inr (.inr (hitem hends.1))))

theorem decoratorSkipRound_gains (depth : Nat) : Gains (progress n) (decoratorSkipRound depth) fun r _ => r.isLeft :=
  ⟨fun _ hp => wp_mono (decoratorSkipRound_runs hp) fun _ _ ⟨hp', hle, hlt⟩ => ⟨hp', hle, fun hr => hlt (.inl hr)⟩⟩

instance : Keeps (progress n) synchronizeInDecorator := by
  have hloop : Keeps (progress n) (overStream decoratorSkipRound 0) := overStream_keeps decoratorSkipRound_gains 0
  unfold synchronizeInDecorator
  infer_instance

theorem synchronizeInDecorator_passes (hp : (progress n).inv p) (heof : ¬p.At .eof) (hrbrace : ¬p.At .rbrace)
    (hitem : ¬p.AtBodyItem) :
    wp synchronizeInDecorator (fun _ p' => (progress n).inv p' ∧ Follows p p' ∧ p.current < p'.current) p := by
  have hcalm : (progress n).inv { p with panicMode := false } := ⟨⟨hp.1.inside, hp.1.last, hp.1.running⟩, hp.2⟩
  refine wp_bind (wp_modify (wp_mono (wp_overStream_first (n := n) decoratorSkipRound_gains ?_) ?_))
  rotate_left
  · exact fun _ p' ⟨hp', hle, hlt⟩ => ⟨hp', ⟨hle.stream, hle.current⟩, hlt⟩
  refine wp_mono (decoratorSkipRound_runs hcalm) fun _ p' ⟨hp', hle, hlt⟩ => ⟨hp', hle, hlt (.inr ⟨heof, hrbrace, hitem⟩)⟩

end Parser

end Bebop.Compiler
