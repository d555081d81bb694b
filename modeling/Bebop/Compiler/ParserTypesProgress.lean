import Bebop.Compiler.ParserProgress

/-!
# Bebop — types, literals and decorators come to their end

The parts of `ParserTypes` keep to the stream (`progress`). A type, a literal and an
operand have passed a token when there is one. The stacks of a type and of an expression
never run empty nor over.
-/

namespace Bebop.Compiler

open Fallible

namespace Parser

variable {p p' : Parser} {n : Nat} {α β γ : Type}

/-! ## Names and decorators -/

instance (message : String) (name : Text) (last : Span) : Keeps (progress 1) (dottedName message name last) := by
  refine overStream_keeps (fun b => ?_) _
  obtain ⟨name, last⟩ := b
  refine Gains.bind (matchToken_gains nofun) (fun r hr => ?_) fun r hr => ?_
  · infer_instance
  · rw [if_neg hr]
    exact Gains.pure fun _ => nofun

/-! ## Literals -/

instance (env : List (List UInt8 × List UInt8)) (fuel : Nat) (src result : List UInt8) (had : Bool) :
    Keeps (progress 1) (substituteLoop env fuel src result had) := by
  induction fuel generalizing src result had with
  | zero =>
    unfold substituteLoop
    infer_instance
  | succ fuel ih =>
    cases src with
    | nil =>
      unfold substituteLoop
      infer_instance
    | cons c src =>
      unfold substituteLoop
      dsimp only
      split
      · split
        · infer_instance
        · split
          · infer_instance
          · split
            · infer_instance
            · infer_instance
      · infer_instance

instance (src : List UInt8) : Keeps (progress 1) (substituteEnvVars src) := by
  unfold substituteEnvVars
  refine Keeps.after fun p => Keeps.after fun r => ?_
  obtain ⟨_ | _, _⟩ := r
  · exact Keeps.pure _
  · exact Keeps.pure _

instance (str : List UInt8) (expected : Option Scalar) : Keeps (progress 1) (parseNumber str expected).run := by
  unfold parseNumber
  refine Keeps.runAfter fun p => ?_
  dsimp only
  split
  · infer_instance
  · infer_instance
  · infer_instance
  · infer_instance

instance (tok : Token) (expected : Option Scalar) : Keeps (progress 1) (stringLiteral tok expected).run := by
  unfold stringLiteral
  refine Keeps.runAfter fun r => ?_
  obtain ⟨value, hadSubst⟩ := r
  refine Keeps.runAfter fun p => ?_
  dsimp only
  split
  · split
    · infer_instance
    · infer_instance
  · split
    · infer_instance
    · infer_instance
  · split
    · infer_instance
    · infer_instance
  · infer_instance
  · infer_instance

theorem parseLiteral_gains (expected : Option Scalar) :
    Gains (progress 1) (parseLiteral expected).run fun r _ => r.isSome := by
  have hnone : Gains (progress 1) (do errorCurrent 123 "Expected literal value"; failure : Attempt Literal).run
      fun r _ => r.isSome := Gains.runLift fun _ => Gains.runFailure fun _ hsome => by cases hsome
  have hkeeps := hnone.keeps
  refine ⟨fun p hp => wp_runLift (wp_currentToken hp.1 fun tok htok => ?_)⟩
  have hpass {g : Unit → Attempt Literal} [∀ a, Keeps (progress 1) (g a).run] (hkind : tok.kind ≠ .eof) :
      wp (liftM advance >>= g).run (fun r p' => (progress 1).inv p' ∧ Follows p p' ∧
        (r.isSome → p.current < p'.current)) p :=
    wp_mono (runAdvance_passes hp (At.ne_eof htok hkind)) fun _ _ h => ⟨h.1, h.2.1, fun _ => h.2.2⟩
  dsimp only
  split
  next hkind => exact hpass (by rw [hkind]; decide)
  next hkind => exact hpass (by rw [hkind]; decide)
  next hkind => exact hpass (by rw [hkind]; decide)
  next hkind => exact hpass (by rw [hkind]; decide)
  next hkind => exact hpass (by rw [hkind]; decide)
  next hkind =>
    refine wp_runIte (fun _ => ?_) fun _ => hnone.runs p hp
    refine @hpass _ (fun _ => Keeps.runAfter fun p' => ?_) (by rw [hkind]; decide)
    split
    · infer_instance
    · exact hkeeps
  next hkind =>
    refine @hpass _ (fun _ => Keeps.runAfter fun numTok => ?_) (by rw [hkind]; decide)
    split
    · infer_instance
    · split
      · refine Keeps.runAfter fun _ => ?_
        split
        · infer_instance
        · refine Keeps.runAfter fun _ => ?_
          infer_instance
      · infer_instance
  next => exact hnone.runs p hp

instance (expected : Option Scalar) : Keeps (progress 1) (parseLiteral expected).run :=
  (parseLiteral_gains expected).keeps

/-! ## Decorators -/

instance : Keeps (progress 1) argName := by
  unfold argName
  infer_instance

instance (args : List DecoratorArg) : Keeps (progress n) (argSeparator args) := by
  unfold argSeparator
  infer_instance

theorem decoratorArgsRound_gains (args : List DecoratorArg) :
    Gains (progress 1) (decoratorArgsRound args) fun r _ => r.isLeft := by
  refine Gains.after fun atParen => Gains.after fun ends => Gains.ite (fun _ => Gains.pure fun _ => nofun) fun _ => ?_
  refine Gains.after fun separated => Gains.ite (fun _ => ?_) fun _ => Gains.pure fun _ => nofun
  refine Gains.after fun name => Gains.bind (parseLiteral_gains _) (fun r _ => ?_) fun r hr => ?_
  · split
    · infer_instance
    · infer_instance
  · split
    · exact Gains.pure fun _ => nofun
    · exact absurd rfl hr

instance : Keeps (progress 1) parseDecoratorArgs := overStream_keeps decoratorArgsRound_gains []

theorem skipDecoratorRound_gains : Gains (progress n) skipDecoratorRound fun r _ => r.isLeft := by
  refine ⟨fun p hp => wp_bind (wp_currentToken hp.1 fun tok htok => wp_ite (fun _ => ?_) fun hgoes => ?_)⟩
  · exact wp_pure ⟨hp, (progress n).refl p, nofun⟩
  · refine advanceRound_gains hp.1 hp.2 (At.ne_eof htok fun heof => hgoes ?_)
    rw [heof]
    decide

instance : Keeps (progress n) skipDecorator := overStream_keeps (fun _ => skipDecoratorRound_gains) ()

instance (first : Token) : Keeps (progress 1) (decoratorName first).run := by
  unfold decoratorName
  refine Keeps.runAfter fun isDotted => ?_
  split
  · split
    · infer_instance
    · exact Keeps.runAfter fun ⟨name, _⟩ => Keeps.runPure name
  · infer_instance

instance (atSpan : Span) (first : Token) : Keeps (progress 1) (decoratorRest atSpan first).run := by
  unfold decoratorRest
  infer_instance

theorem decoratorsRound_runs {decorators : List Decorator} (hp : (progress n).inv p) :
    wp (decoratorsRound decorators) (fun r p' => (progress n).inv p' ∧ Follows p p' ∧
      (r.isLeft ∨ p.At .at → p.current < p'.current)) p := by
  refine wp_bind (wp_check hp.1 (fun hat => ?_) fun hnot => wp_pure ?_)
  · refine wp_bind (wp_mono (advance_passes hp.1 fun heof => by cases hat.unique heof) ?_)
    rintro _ p₁ ⟨hp₁, hle₁, hlt₁⟩
    have hstarted : 1 ≤ p₁.current := by omega
    refine Keeps.wp (P := progress 1) (Keeps.after fun atTok => Keeps.after fun named => ?_) ⟨hp₁, hstarted⟩
      fun r p₂ hp₂ hle₂ => ?_
    · split
      · refine Keeps.after fun first => Keeps.after fun r => ?_
        split
        · infer_instance
        · infer_instance
      · infer_instance
    · have hle := (progress n).trans hle₁ hle₂
      exact ⟨⟨hp₂.1, Nat.le_trans hp.2 hle.current⟩, hle, fun _ => Nat.lt_of_lt_of_le hlt₁ hle₂.current⟩
  · refine ⟨hp, (progress n).refl p, ?_⟩
    rintro (hr | hat)
    · cases hr
    · exact absurd hat hnot

theorem decoratorsRound_gains (decorators : List Decorator) :
    Gains (progress n) (decoratorsRound decorators) fun r _ => r.isLeft :=
  ⟨fun _ hp => wp_mono (decoratorsRound_runs hp) fun _ _ ⟨hp', hle, hlt⟩ => ⟨hp', hle, fun hr => hlt (.inl hr)⟩⟩

instance : Keeps (progress n) parseDecorators := overStream_keeps decoratorsRound_gains []

end Parser

end Bebop.Compiler
