import Bebop.Compiler.ParserProgress

/-!
# Bebop — what a parser has read

A part of the parser that ended with a result has passed the tokens it asked for. Reports
are only ever added (`Logs`), so that a part behind which there are no more than before met
no error on the way.
-/

namespace Bebop.Compiler.Parser

open Fallible

variable {p p' : Parser} {α β γ : Type}

/-! ## Tokens -/

/-- The token at the place of the parser, or behind it. -/
def ahead (p : Parser) (n : Nat) : Option Token := p.stream[p.current + n]?

@[simp] theorem ahead_next (p : Parser) (n : Nat) : p.next.ahead n = p.ahead (n + 1) := by
  show p.stream[p.current + 1 + n]? = p.stream[p.current + (n + 1)]?
  rw [Nat.add_assoc, Nat.add_comm 1]

theorem tokenAt_ok {i : Nat} {tok : Token} : tokenAt i p = .ok (tok, p') ↔ p.stream[i]? = some tok ∧ p' = p := by
  unfold tokenAt
  cases hread : p.stream[i]? with
  | none => exact iff_of_false nofun nofun
  | some found =>
    dsimp only
    rw [Except.ok.injEq, Prod.mk.injEq, Option.some_inj, eq_comm (a := p)]

theorem currentToken_ok {tok : Token} : currentToken p = .ok (tok, p') ↔ p.ahead 0 = some tok ∧ p' = p := tokenAt_ok

theorem previousToken_ok {tok : Token} :
    previousToken p = .ok (tok, p') ↔ p.current ≠ 0 ∧ p.stream[p.current - 1]? = some tok ∧ p' = p := by
  show (if p.current = 0 then fun _ => .error .outsideStream else tokenAt (p.current - 1)) p = _ ↔ _
  by_cases hstart : p.current = 0
  · rw [if_pos hstart]
    exact iff_of_false nofun fun h => h.1 hstart
  · rw [if_neg hstart, tokenAt_ok, ne_eq, and_iff_right hstart]

theorem previousToken_next {tok : Token} (h : p.ahead 0 = some tok) : previousToken p.next = .ok (tok, p.next) :=
  previousToken_ok.mpr ⟨Nat.succ_ne_zero _, h, rfl⟩

theorem check_ok {kind : TokenKind} {b : Bool} :
    check kind p = .ok (b, p') ↔ ∃ tok, p.ahead 0 = some tok ∧ b = decide (tok.kind = kind) ∧ p' = p := by
  unfold check
  rw [run_bind_ok]
  constructor
  · rintro ⟨tok, q, hread, hpure⟩
    obtain ⟨htok, rfl⟩ := currentToken_ok.mp hread
    obtain ⟨rfl, rfl⟩ := run_pure_ok.mp hpure
    exact ⟨tok, htok, rfl, rfl⟩
  · rintro ⟨tok, htok, rfl, rfl⟩
    exact ⟨tok, p', currentToken_ok.mpr ⟨htok, rfl⟩, rfl⟩

theorem advance_ok {tok : Token} (htok : p.ahead 0 = some tok) (hkind : tok.kind ≠ .eof) :
    advance p = .ok ((), p.next) := by
  unfold advance
  rw [run_bind_ok]
  refine ⟨false, p, check_ok.mpr ⟨tok, htok, (decide_eq_false hkind).symm, rfl⟩, rfl⟩

theorem matchToken_other {kind : TokenKind} {tok : Token} (htok : p.ahead 0 = some tok) (hne : tok.kind ≠ kind) :
    matchToken kind p = .ok (false, p) := by
  unfold matchToken
  rw [run_bind_ok]
  exact ⟨false, p, check_ok.mpr ⟨tok, htok, (decide_eq_false hne).symm, rfl⟩, rfl⟩

/-! ## Tokens that are expected -/

theorem expect_some {test : Parse Bool} {u : Unit} :
    (expect test).run p = .ok (some u, p') ↔ test p = .ok (true, p') := by
  unfold expect
  rw [runLiftBind_some]
  constructor
  · rintro ⟨b, q, htest, hrun⟩
    cases b with
    | true =>
      obtain ⟨-, rfl⟩ := runPure_some.mp hrun
      exact htest
    | false => exact absurd hrun runFailure_some
  · exact fun htest => ⟨true, p', htest, rfl⟩

theorem checked_true {kind : TokenKind} {report : Parse Unit} (hkind : kind ≠ .eof) :
    (do
      if ← check kind then
        advance
        return true
      else
        report
        return false : Parse Bool) p = .ok (true, p') ↔
      ∃ tok, p.ahead 0 = some tok ∧ tok.kind = kind ∧ p' = p.next := by
  rw [run_bind_ok]
  constructor
  · rintro ⟨b, q, hcheck, hrun⟩
    obtain ⟨tok, htok, rfl, rfl⟩ := check_ok.mp hcheck
    by_cases hat : tok.kind = kind
    · rw [decide_eq_true hat, if_pos rfl, run_bind_ok] at hrun
      obtain ⟨_, q', hadvance, hpure⟩ := hrun
      rw [advance_ok htok (hat ▸ hkind)] at hadvance
      cases hadvance
      exact ⟨tok, htok, hat, (run_pure_ok.mp hpure).2.symm⟩
    · rw [decide_eq_false hat, if_neg Bool.false_ne_true, run_bind_ok] at hrun
      obtain ⟨_, q', -, hpure⟩ := hrun
      exact absurd (run_pure_ok.mp hpure).1 Bool.false_ne_true
  · rintro ⟨tok, htok, hat, rfl⟩
    refine ⟨true, p, check_ok.mpr ⟨tok, htok, (decide_eq_true hat).symm, rfl⟩, ?_⟩
    rw [if_pos rfl, run_bind_ok]
    exact ⟨(), p.next, advance_ok htok (hat ▸ hkind), rfl⟩

theorem expectAfter_some {kind : TokenKind} {message : String} {u : Unit} (hkind : kind ≠ .eof) :
    (expect (consumeAfter kind message)).run p = .ok (some u, p') ↔
      ∃ tok, p.ahead 0 = some tok ∧ tok.kind = kind ∧ p' = p.next :=
  expect_some.trans (checked_true hkind)

theorem expectName_some {message : String} {u : Unit} : (expect (consumeName message)).run p = .ok (some u, p') ↔
    ∃ tok, p.ahead 0 = some tok ∧ isIdentOrKeyword tok.kind = true ∧ p' = p.next := by
  have hne {tok : Token} (hname : isIdentOrKeyword tok.kind = true) : tok.kind ≠ .eof := by
    intro heof
    rw [heof] at hname
    exact absurd hname (by decide)
  rw [expect_some]
  unfold consumeName
  rw [run_bind_ok]
  constructor
  · rintro ⟨tok, q, hread, hrun⟩
    obtain ⟨htok, rfl⟩ := currentToken_ok.mp hread
    cases hname : isIdentOrKeyword tok.kind with
    | true =>
      rw [hname, if_pos rfl, run_bind_ok] at hrun
      obtain ⟨_, q', hadvance, hpure⟩ := hrun
      rw [advance_ok htok (hne hname)] at hadvance
      cases hadvance
      exact ⟨tok, htok, hname, (run_pure_ok.mp hpure).2.symm⟩
    | false =>
      rw [hname, if_neg Bool.false_ne_true, run_bind_ok] at hrun
      obtain ⟨_, q', -, hpure⟩ := hrun
      exact absurd (run_pure_ok.mp hpure).1 Bool.false_ne_true
  · rintro ⟨tok, htok, hname, rfl⟩
    refine ⟨tok, p, currentToken_ok.mpr ⟨htok, rfl⟩, ?_⟩
    rw [hname, if_pos rfl, run_bind_ok]
    exact ⟨(), p.next, advance_ok htok (hne hname), rfl⟩

/-! ## Reports -/

/-- Perhaps there are more reports; if not, the parser has not begun to recover. -/
structure Adds (p p' : Parser) : Prop where
  reports : ∃ added, p'.reports = p.reports ++ added
  silent : p'.reports = p.reports → p'.panicMode = p.panicMode ∧ p'.fatal = p.fatal

theorem Adds.refl (p : Parser) : Adds p p := ⟨⟨[], (List.append_nil _).symm⟩, fun _ => ⟨rfl, rfl⟩⟩

theorem Adds.between {q : Parser} (h : Adds p q) (h' : Adds q p') (hsame : p'.reports = p.reports) :
    q.reports = p.reports ∧ p'.reports = q.reports := by
  obtain ⟨added, hadded⟩ := h.reports
  obtain ⟨added', hadded'⟩ := h'.reports
  rw [hadded', hadded, List.append_assoc] at hsame
  have hnone := List.self_eq_append_right.mp hsame.symm
  obtain ⟨rfl, rfl⟩ := List.append_eq_nil_iff.mp hnone
  rw [List.append_nil] at hadded hadded'
  exact ⟨hadded, hadded'⟩

theorem Adds.trans {q : Parser} (h : Adds p q) (h' : Adds q p') : Adds p p' := by
  refine ⟨?_, fun hsame => ?_⟩
  · obtain ⟨added, hadded⟩ := h.reports
    obtain ⟨added', hadded'⟩ := h'.reports
    exact ⟨added ++ added', by rw [hadded', hadded, List.append_assoc]⟩
  · obtain ⟨hfirst, hsecond⟩ := h.between h' hsame
    have hq := h.silent hfirst
    have hp' := h'.silent hsecond
    exact ⟨hp'.1.trans hq.1, hp'.2.trans hq.2⟩

/-- A part of the parser that only adds reports. -/
class Logs (m : Parse α) : Prop where
  logs : ∀ {p a p'}, m p = .ok (a, p') → Adds p p'

instance (a : α) : Logs (pure a : Parse α) := by
  refine ⟨fun h => ?_⟩
  obtain ⟨-, rfl⟩ := run_pure_ok.mp h
  exact .refl _

instance Logs.bind {m : Parse α} {f : α → Parse β} [hm : Logs m] [hf : ∀ a, Logs (f a)] : Logs (m >>= f) := by
  refine ⟨fun h => ?_⟩
  obtain ⟨a, q, hfirst, hsecond⟩ := run_bind_ok.mp h
  exact (hm.logs hfirst).trans ((hf a).logs hsecond)

theorem Logs.after {m : Parse α} {f : α → Parse β} [Logs m] (h : ∀ a, Logs (f a)) : Logs (m >>= f) := inferInstance

instance {c : Prop} [Decidable c] {m m' : Parse α} [hm : Logs m] [hm' : Logs m'] : Logs (if c then m else m') := by
  split
  · exact hm
  · exact hm'

instance : Logs (get : Parse Parser) := by
  refine ⟨fun h => ?_⟩
  cases h
  exact .refl _

theorem logs_modify {g : Parser → Parser} (h : ∀ p, Adds p (g p)) : Logs (modify g : Parse PUnit) := by
  refine ⟨fun {p a p'} hrun => ?_⟩
  cases hrun
  exact h p

instance (i : Nat) : Logs (tokenAt i) := ⟨fun h => (tokenAt_ok.mp h).2 ▸ .refl _⟩

instance : Logs currentToken := ⟨fun h => (currentToken_ok.mp h).2 ▸ .refl _⟩

instance : Logs previousToken := ⟨fun h => (previousToken_ok.mp h).2.2 ▸ .refl _⟩

instance (kind : TokenKind) : Logs (check kind) := by
  unfold check
  infer_instance

instance : Logs atEnd := by
  unfold atEnd
  infer_instance

instance : Logs advance := by
  have hmove : Logs (modify fun p => { p with current := p.current + 1 } : Parse PUnit) :=
    logs_modify fun p => ⟨⟨[], (List.append_nil _).symm⟩, fun _ => ⟨rfl, rfl⟩⟩
  unfold advance
  infer_instance

instance (kind : TokenKind) : Logs (matchToken kind) := by
  unfold matchToken
  infer_instance

instance (span : Span) (code : Nat) (message : String) : Logs (parseErrorAt span code message) := by
  refine logs_modify fun p => ?_
  split
  · exact .refl p
  · exact ⟨⟨_, rfl⟩, fun hsame => absurd (List.self_eq_append_right.mp hsame.symm) (List.cons_ne_nil _ _)⟩

theorem parseErrorAt_reports {span : Span} {code : Nat} {message : String} {u : Unit} (hpanic : p.panicMode = false)
    (hfatal : p.fatal = false) (h : parseErrorAt span code message p = .ok (u, p')) : p'.reports ≠ p.reports := by
  cases h
  show (if (p.panicMode || p.fatal) = true then p else _).reports ≠ _
  rw [hpanic, hfatal, if_neg (by decide)]
  exact fun hsame => absurd (List.self_eq_append_right.mp hsame.symm) (List.cons_ne_nil _ _)

instance (code : Nat) (message : String) : Logs (errorCurrent code message) := by
  unfold errorCurrent
  infer_instance

instance (code : Nat) (message : String) : Logs (errorPrevious code message) := by
  unfold errorPrevious
  infer_instance

theorem errorPrevious_reports {code : Nat} {message : String} {u : Unit} (hpanic : p.panicMode = false)
    (hfatal : p.fatal = false) (h : errorPrevious code message p = .ok (u, p')) : p'.reports ≠ p.reports := by
  obtain ⟨tok, q, hread, hreport⟩ := run_bind_ok.mp h
  obtain ⟨-, -, rfl⟩ := previousToken_ok.mp hread
  exact parseErrorAt_reports hpanic hfatal hreport

/-! ## Reports of parts that may end without a result -/

instance (a : α) : Logs (pure a : Attempt α).run := inferInstanceAs (Logs (pure (some a) : Parse (Option α)))

instance : Logs (failure : Attempt α).run := inferInstanceAs (Logs (pure none : Parse (Option α)))

instance {m : Parse α} [Logs m] : Logs (liftM m : Attempt α).run :=
  inferInstanceAs (Logs (m >>= fun a => pure (some a)))

instance {m : Parse (Option α)} [h : Logs m] : Logs (OptionT.mk m).run := h

instance Logs.runBind {x : Attempt α} {g : α → Attempt β} [Logs x.run] [hg : ∀ a, Logs (g a).run] :
    Logs (x >>= g).run := by
  rw [OptionT.run_bind]
  refine Logs.after fun r => ?_
  cases r with
  | none => exact inferInstanceAs (Logs (pure none : Parse (Option β)))
  | some a => exact hg a

theorem Logs.runAfter {x : Attempt α} {g : α → Attempt β} [Logs x.run] (h : ∀ a, Logs (g a).run) :
    Logs (x >>= g).run := inferInstance

/-! ## Reports of literals -/

instance (env : List (List UInt8 × List UInt8)) (fuel : Nat) (src result : List UInt8) (had : Bool) :
    Logs (substituteLoop env fuel src result had) := by
  induction fuel generalizing src result had with
  | zero =>
    unfold substituteLoop
    infer_instance
  | succ fuel ih =>
    cases src with
    | nil =>
      unfold substituteLoop
      infer_instance
    | cons c src =>
      unfold substituteLoop
      dsimp only
      split
      · split
        · infer_instance
        · split
          · infer_instance
          · split
            · infer_instance
            · infer_instance
      · infer_instance

instance (src : List UInt8) : Logs (substituteEnvVars src) := by
  unfold substituteEnvVars
  refine Logs.after fun p => Logs.after fun r => ?_
  obtain ⟨_ | _, _⟩ := r
  · infer_instance
  · infer_instance

instance (str : List UInt8) (expected : Option Scalar) : Logs (parseNumber str expected).run := by
  unfold parseNumber
  refine Logs.runAfter fun p => ?_
  dsimp only
  split
  · infer_instance
  · infer_instance
  · infer_instance
  · infer_instance

instance (tok : Token) (expected : Option Scalar) : Logs (stringLiteral tok expected).run := by
  unfold stringLiteral
  refine Logs.runAfter fun r => ?_
  obtain ⟨value, hadSubst⟩ := r
  refine Logs.runAfter fun p => ?_
  dsimp only
  split
  · split
    · infer_instance
    · infer_instance
  · split
    · infer_instance
    · infer_instance
  · split
    · infer_instance
    · infer_instance
  · infer_instance
  · infer_instance

instance (expected : Option Scalar) : Logs (parseLiteral expected).run := by
  have hnone : Logs (do errorCurrent 123 "Expected literal value"; failure : Attempt Literal).run := inferInstance
  unfold parseLiteral
  refine Logs.runAfter fun tok => ?_
  dsimp only
  split
  next => infer_instance
  next => infer_instance
  next => infer_instance
  next => infer_instance
  next => infer_instance
  next =>
    split
    · refine Logs.runAfter fun _ => Logs.runAfter fun p => ?_
      split
      · infer_instance
      · exact hnone
    · exact hnone
  next =>
    refine Logs.runAfter fun _ => Logs.runAfter fun numTok => ?_
    split
    · infer_instance
    · split
      · refine Logs.runAfter fun _ => ?_
        split
        · infer_instance
        · infer_instance
      · infer_instance
  next => exact hnone

end Bebop.Compiler.Parser
