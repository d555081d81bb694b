import Bebop.Compiler.ParserStacks

/-!
# Bebop — members and decorator definitions come to their end

A member passes its name, or leaves the parser in panic (`Enters`); either way the body goes on
behind another token (`bodyMember_passes`).
-/

namespace Bebop.Compiler

open Fallible

namespace Parser

variable {p p' : Parser} {n : Nat} {α β γ : Type}

/-! ## Members -/

instance (baseType : Scalar) (decorators : List Decorator) (members : List EnumMember) (member : EnumMember) :
    Keeps (progress n) (checkEnumMember baseType decorators members member) := by
  have hcorrupted (message : String) :
      Keeps (progress n) (modify fun p => { p with contextErrors := p.contextErrors ++ [message] } : Parse Unit) :=
    keeps_modify (fun _ => rfl) (fun _ => rfl) fun _ => rfl
  unfold checkEnumMember
  obtain ⟨least, greatest, isUnsigned⟩ := intRange baseType
  infer_instance

/-- A program that has passed a token, unless it ends without a result and in panic. -/
def Enters (attempt : Attempt α) : Prop :=
  Gains (progress 1) attempt.run fun r p' => r.isSome ∨ p'.panicMode = false

theorem Enters.keeps {attempt : Attempt α} (h : Enters attempt) : Keeps (progress 1) attempt.run := Gains.keeps h

theorem enters_name {message : String} {g : Unit → Attempt α} [∀ a, Keeps (progress 1) (g a).run] :
    Enters (expect (consumeName message) >>= g) :=
  Gains.runBind (expect_gains consumeName_gains) (fun _ _ => .inl rfl) fun _ h => h.imp_left nofun

theorem parseEnumMember_enters (decorators : List Decorator) (baseType : Scalar) (members : List EnumMember) :
    Enters (parseEnumMember decorators baseType members) := by
  refine Gains.runLift fun _ => @enters_name _ _ _ fun _ => ?_
  refine Keeps.runAfter fun name => Keeps.runAfter fun _ => Keeps.runAfter fun _ => Keeps.runAfter fun _ => ?_
  infer_instance

instance : Keeps (progress 1) fieldIndex.run := by
  unfold fieldIndex
  refine Keeps.runAfter fun _ => Keeps.runAfter fun _ => Keeps.runAfter fun tok => ?_
  split
  · infer_instance
  · infer_instance

theorem parseField_enters (parentName : Text) (parentKind : DefKind) (isMessage : Bool) :
    Enters (parseField parentName parentKind isMessage) := by
  refine Gains.runLift fun _ => @enters_name _ _ _ fun _ => ?_
  refine Keeps.runAfter fun name => Keeps.runAfter fun index => Keeps.runAfter fun _ => Keeps.runAfter fun type => ?_
  refine Keeps.runAfter fun _ => Keeps.runAfter fun _ => Keeps.runAfter fun _ => Keeps.runAfter fun _ => ?_
  infer_instance

theorem parseMethodInline_enters (service : Text) (methods : List Method) :
    Enters (parseMethodInline service methods) := by
  refine Gains.runLift fun _ => @enters_name _ _ _ fun _ => ?_
  refine Keeps.runAfter fun name => Keeps.runAfter fun _ => Keeps.runAfter fun _ => Keeps.runAfter fun _ => ?_
  refine Keeps.runAfter fun _ => Keeps.runAfter fun request => Keeps.runAfter fun _ => Keeps.runAfter fun _ => ?_
  refine Keeps.runAfter fun _ => Keeps.runAfter fun _ => Keeps.runAfter fun response => Keeps.runAfter fun _ => ?_
  refine Keeps.runAfter fun _ => Keeps.runAfter fun _ => ?_
  split
  · infer_instance
  · infer_instance

/-! ## Decorator definitions -/

instance : Keeps (progress 1) targetConstant.run := by
  unfold targetConstant
  refine Keeps.runAfter fun tok => ?_
  split
  · infer_instance
  · infer_instance

theorem targetRound_gains (result : Nat) : Gains (progress 1) (targetRound result) fun r _ => r.isLeft := by
  refine Gains.bind (matchToken_gains (by decide)) (fun r _ => ?_) fun r hr => ?_
  · refine @Keeps.ite _ _ _ _ _ _ _ _ (Keeps.after fun named => ?_) inferInstance
    refine @Keeps.ite _ _ _ _ _ _ _ _ (Keeps.after fun target => ?_) inferInstance
    split
    · infer_instance
    · infer_instance
  · rw [if_neg hr]
    exact Gains.pure fun _ => nofun

instance : Keeps (progress 1) parseTargetExpr := by
  have hloop (target : Nat) : Keeps (progress 1) (overStream targetRound target) := overStream_keeps targetRound_gains target
  unfold parseTargetExpr
  refine Keeps.after fun named => @Keeps.ite _ _ _ _ _ _ _ _ (Keeps.after fun target => ?_) inferInstance
  split
  · infer_instance
  · exact hloop _

instance (blockName : String) : Keeps (progress n) (parseLuaBlock blockName).run := by
  unfold parseLuaBlock
  infer_instance

theorem allowedValuesRound_gains (type : Option Scalar) :
    Gains (progress 1) (allowedValuesRound type) fun r _ => r.isLeft := by
  refine Gains.after fun _ => Gains.after fun _ => Gains.ite (fun _ => Gains.pure fun _ => nofun) fun _ => ?_
  refine Gains.bind (parseLiteral_gains type) (fun r _ => ?_) fun r hr => ?_
  · split
    · infer_instance
    · infer_instance
  · split
    · exact Gains.after fun _ => Gains.pure fun _ => nofun
    · exact absurd rfl hr

instance (type : Option Scalar) : Keeps (progress 1) (allowedValues type).run :=
  overStream_keeps (fun _ => allowedValuesRound_gains type) ()

instance : Keeps (progress n) paramModifier.run := by
  unfold paramModifier
  infer_instance

instance : Keeps (progress 1) paramType.run := by
  unfold paramType
  refine Keeps.runAfter fun _ => Keeps.runAfter fun tok => ?_
  split
  · infer_instance
  · split
    · infer_instance
    · infer_instance

instance (type : Option Scalar) : Keeps (progress 1) (paramDefault type).run := by
  unfold paramDefault
  refine Keeps.runAfter fun isGiven => @Keeps.runIte _ _ _ _ _ _ _ _ (Keeps.runAfter fun _ => ?_) inferInstance
  refine @Keeps.runAfter _ _ _ _ _ _ _ (Keeps.runLift (h := parseLiteral_gains type |>.keeps)) fun r => ?_
  split
  · infer_instance
  · infer_instance

instance : Keeps (progress 1) parseMacroParam.run := by
  unfold parseMacroParam
  refine Keeps.runAfter fun name => @Keeps.runIte _ _ _ _ _ _ _ _ ?_ inferInstance
  refine Keeps.runAfter fun _ => Keeps.runAfter fun _ => Keeps.runAfter fun _ => Keeps.runAfter fun type => ?_
  refine Keeps.runAfter fun _ => Keeps.runAfter fun tok => ?_
  infer_instance

instance : Keeps (progress 1) macroMultiple.run := by
  unfold macroMultiple
  infer_instance

theorem macroItem_runs {item : Token} {body : MacroBody} (hp : (progress 1).inv p)
    (hitem : p.stream[p.current]? = some item) (hahead : ¬p.At .eof) :
    wp (macroItem item body).run (fun r p' => (progress 1).inv p' ∧ Follows p p' ∧
      (p.current < p'.current ∨ (r = none ∧ ¬p'.At .eof ∧ ¬p'.AtBodyItem))) p := by
  have hpass {g : Unit → Attempt MacroBody} [∀ a, Keeps (progress 1) (g a).run] :
      wp (liftM advance >>= g).run (fun r p' => (progress 1).inv p' ∧ Follows p p' ∧
        (p.current < p'.current ∨ (r = none ∧ ¬p'.At .eof ∧ ¬p'.AtBodyItem))) p :=
    wp_mono (runAdvance_passes hp hahead) fun _ _ ⟨hp', hle, hlt⟩ => ⟨hp', hle, .inl hlt⟩
  unfold macroItem
  -- an error leaves the cursor where it is
  have hfails (message : String) (hnot : ¬p.AtBodyItem) :
      wp (do parseErrorAt item.span 143 message; failure : Attempt MacroBody).run (fun r p' =>
        (progress 1).inv p' ∧ Follows p p' ∧
          (p.current < p'.current ∨ (r = none ∧ ¬p'.At .eof ∧ ¬p'.AtBodyItem))) p := by
    refine wp_runLift (wp_parseErrorAt hp.1 fun p' hp' hstream hcurrent _ => wp_runFailure ?_)
    refine ⟨⟨hp', hcurrent ▸ hp.2⟩, ⟨hstream, Nat.le_of_eq hcurrent.symm⟩, .inr ⟨rfl, ?_, ?_⟩⟩
    · unfold At
      rw [hstream, hcurrent]
      exact hahead
    · unfold AtBodyItem
      rw [hstream, hcurrent]
      exact hnot
  have hitem' (hat : p.AtBodyItem) : item.kind = .identifier ∧ decoratorBodyItems.contains item.text = true := by
    obtain ⟨tok, htok, hat⟩ := hat
    rw [hitem] at htok
    exact Option.some.inj htok ▸ hat
  refine wp_runIte (fun hname => hfails _ fun hat => ?_) fun hname => ?_
  · rw [(hitem' hat).1] at hname
    exact absurd hname (by decide)
  refine wp_runIte (fun htargets => hpass) fun htargets => ?_
  refine wp_runIte (fun hmultiple => hpass) fun hmultiple => ?_
  refine wp_runIte (fun hparam => hpass) fun hparam => ?_
  refine wp_runIte (fun hvalidate => hpass) fun hvalidate => ?_
  refine wp_runIte (fun hexport => hpass) fun hexport => ?_
  refine hfails _ fun hat => ?_
  have hmem := (hitem' hat).2
  simp [decoratorBodyItems, htargets, hmultiple, hparam, hvalidate, hexport] at hmem

theorem macroRound_gains (body : MacroBody) : Gains (progress 1) (macroRound body) fun r _ => r.isLeft := by
  refine ⟨fun p hp => wp_bind (wp_check hp.1 (fun _ => ?_) fun hrbrace => ?_)⟩
  · exact wp_bind (wp_look hp.1 fun _ _ => wp_pure ⟨hp, (progress 1).refl p, nofun⟩)
  refine wp_bind (wp_atEnd hp.1 (fun _ => wp_pure ⟨hp, (progress 1).refl p, nofun⟩) fun hahead => ?_)
  refine wp_bind (wp_currentToken hp.1 fun item hitem => wp_bind (wp_mono (macroItem_runs hp hitem hahead) ?_))
  rintro r p₁ ⟨hp₁, hle₁, hpassed⟩
  cases r with
  | some body =>
    exact wp_pure ⟨hp₁, hle₁, fun _ => hpassed.resolve_right nofun⟩
  | none =>
    by_cases hmoved : p.current < p₁.current
    · refine wp_bind (wp_keeps hp₁ fun _ p₂ hp₂ hle₂ => wp_pure ⟨hp₂, (progress 1).trans hle₁ hle₂, fun _ => ?_⟩)
      exact Nat.lt_of_lt_of_le hmoved hle₂.current
    · -- the skipping passes what is no item
      obtain ⟨_, heof, hnot⟩ := hpassed.resolve_left hmoved
      have hrbrace₁ : ¬p₁.At .rbrace := fun hat => hrbrace ((hle₁.at_iff hmoved .rbrace).mp hat)
      refine wp_bind (wp_mono (synchronizeInDecorator_passes hp₁ heof hrbrace₁ hnot) ?_)
      intro _ p₂ ⟨hp₂, hle₂, hlt₂⟩
      exact wp_pure ⟨hp₂, (progress 1).trans hle₁ hle₂, fun _ => Nat.lt_of_le_of_lt hle₁.current hlt₂⟩

instance : Keeps (progress 1) macroBody := overStream_keeps macroRound_gains _

instance (name : Text) : Keeps (progress n) (findDefinition name) := by
  unfold findDefinition
  infer_instance

instance (d : Def) : Keeps (progress n) (addDefinition d) := keeps_modify (fun _ => rfl) (fun _ => rfl) fun _ => rfl

instance : Keeps (progress 1) macroHead.run := by
  unfold macroHead
  refine Keeps.runAfter fun keyword => @Keeps.runIte _ _ _ _ _ _ _ _ inferInstance ?_
  refine @Keeps.runIte _ _ _ _ _ _ _ _ inferInstance ?_
  refine Keeps.runAfter fun _ => Keeps.runAfter fun _ => Keeps.runAfter fun _ => Keeps.runAfter fun name => ?_
  have hfind : Keeps (progress 1) (findDefinition name.text) := inferInstance
  refine @Keeps.runAfter _ _ _ _ _ _ _ (Keeps.runLift (h := hfind)) fun r => ?_
  split
  · infer_instance
  · infer_instance

theorem parseMacroDecorator_passes (hp : p.Sound) (hahead : ¬p.At .eof) :
    wp parseMacroDecorator (fun _ p' => (progress 1).inv p' ∧ Follows p p' ∧ p.current < p'.current) p := by
  refine wp_bind (wp_mono (advance_passes hp hahead) fun _ p₁ hpassed => ?_)
  obtain ⟨hp₁, hle₁, hlt₁⟩ := hpassed
  have hinv₁ : (progress 1).inv p₁ := ⟨hp₁, Nat.le_trans (Nat.succ_le_succ (Nat.zero_le _)) hlt₁⟩
  refine Keeps.wp (P := progress 1) (Keeps.after fun hash => Keeps.after fun r => ?_) hinv₁ fun _ p₂ hp₂ hle₂ => ?_
  · split
    · infer_instance
    · infer_instance
  · exact ⟨hp₂, (progress 1).trans hle₁ hle₂, Nat.lt_of_lt_of_le hlt₁ hle₂.current⟩

end Parser

end Bebop.Compiler
