import Bebop.Compiler.ParserTypesProgress

/-!
# Bebop — the stacks of a type and of an expression

The two loops of the parser that keep a stack of their own come to their end, with no pop
of an empty stack and no push on a full one. A round that passes no token makes the stack
shorter, or brings its top nearer to its end (`typeMeasure`, `exprMeasure`).
-/

namespace Bebop.Compiler

open Fallible

def TypeFrame.Waits (frame : TypeFrame) : Prop :=
  frame.state = .mapKey ∨ (frame.state = .mapValue ∧ frame.mapKey.isSome)

/-- A frame on top: at its beginning, or with a result. -/
def TypeFrame.Ready (frame : TypeFrame) : Prop :=
  frame.state = .base ∨ (frame.result.isSome ∧ (frame.state = .mapValue → frame.mapKey.isSome))

def TypeState.weight : TypeState → Nat
  | .arraySuffix => 2
  | .done => 1
  | _ => 0

namespace Parser

variable {p p' : Parser} {n start : Nat} {α β γ : Type}

/-- A stack of a type that began at a place of the stream. -/
structure TypeStack (start : Nat) (stack : List TypeFrame) (p : Parser) : Prop where
  shape : ∃ frame below, stack = frame :: below ∧ frame.Ready ∧ (∀ waiting ∈ below, waiting.Waits) ∧
    (frame.state = .base ∨ start < p.current)

def typeMeasure (stack : List TypeFrame) (p : Parser) : Nat :=
  4 * (p.stream.length - p.current) + 2 * stack.length + (stack.head?.map (·.state.weight)).getD 0

structure TypeRound (start : Nat) (p : Parser) (stack : List TypeFrame) (r : Option (List TypeFrame ⊕ Ty))
    (p' : Parser) : Prop where
  inv : (progress 1).inv p'
  le : Follows p p'
  goes : ∀ stack', r = some (.inl stack') → TypeStack start stack' p' ∧ typeMeasure stack' p' < typeMeasure stack p
  ends : ∀ type, r = some (.inr type) → start < p'.current

variable {frame : TypeFrame} {below : List TypeFrame}

theorem TypeRound.none {stack : List TypeFrame} (hp' : (progress 1).inv p') (hle : Follows p p') :
    TypeRound start p stack none p' := ⟨hp', hle, nofun, nofun⟩

theorem TypeRound.passes {top : TypeFrame} {rest : List TypeFrame} (hp' : (progress 1).inv p') (hle : Follows p p')
    (hlt : p.current < p'.current) (hstart : start ≤ p.current) (hready : top.Ready)
    (hwaits : ∀ waiting ∈ rest, waiting.Waits)
    (hlength : 2 * rest.length + top.state.weight ≤ 2 * below.length + 3) :
    TypeRound start p (frame :: below) (some (.inl (top :: rest))) p' := by
  refine ⟨hp', hle, ?_, nofun⟩
  rintro _ ⟨rfl⟩
  refine ⟨⟨top, rest, rfl, hready, hwaits, .inr (Nat.lt_of_le_of_lt hstart hlt)⟩, ?_⟩
  have hinside := hp'.1.inside
  rw [hle.stream] at hinside
  simp only [typeMeasure, hle.stream, List.length_cons, List.head?_cons, Option.map_some, Option.getD_some]
  omega

theorem wp_innerFrame {Q : TypeFrame → Parser → Prop} {depth : Nat} (hp : p.Sound)
    (h : ∀ frame : TypeFrame, frame.state = .base → Q frame p) : wp (innerFrame depth) Q p :=
  wp_bind (wp_currentToken hp fun _ _ => wp_pure (h _ rfl))

theorem wp_push {δ : Type} {Q : List δ → Parser → Prop} {capacity : Nat} {top : δ} {stack : List δ}
    (hroom : stack.length < capacity) (h : Q (top :: stack) p) : wp (push capacity top stack) Q p := by
  unfold push
  rw [if_pos hroom]
  exact wp_pure h

theorem typeName_passes (hp : (progress 1).inv p) (hahead : ¬p.At .eof) :
    wp typeName.run (fun _ p' => (progress 1).inv p' ∧ Follows p p' ∧ p.current < p'.current) p := by
  refine wp_runLift (wp_currentToken hp.1 fun tok _ => ?_)
  dsimp only
  split
  · exact runAdvance_passes hp hahead
  · refine @runAdvance_passes _ _ _ _ (fun _ => Keeps.runAfter fun isDotted => ?_) hp hahead
    split
    · split
      · infer_instance
      · refine Keeps.runAfter fun found => ?_
        obtain ⟨name, last⟩ := found
        exact Keeps.runPure _
    · infer_instance

theorem typeBase_runs (hp : (progress 1).inv p) (hstart : start ≤ p.current)
    (hbelow : ∀ waiting ∈ below, waiting.Waits) :
    wp (typeBase frame below).run (fun r p' => TypeRound start p (frame :: below) (r.map .inl) p') p := by
  refine wp_runLift (wp_currentToken hp.1 fun tok htok => ?_)
  split
  next hkind =>
    refine wp_runLift (wp_mono (advance_passes hp.1 (At.ne_eof htok (hkind ▸ nofun))) ?_)
    intro _ p₁ ⟨hp₁, hle₁, hlt₁⟩
    have hinv₁ : (progress 1).inv p₁ := ⟨hp₁, Nat.le_trans hp.2 hle₁.current⟩
    refine wp_expectGains (consumeAfter_gains (by decide)) hinv₁ (fun p₂ hp₂ hle₂ _ => ?_) fun p₂ hp₂ hle₂ => ?_
    rotate_left
    · exact .none hp₂ ((progress 1).trans hle₁ hle₂)
    have hle := (progress 1).trans hle₁ hle₂
    refine wp_runIte (fun _ => ?_) fun hroom => ?_
    · exact wp_runFails hp₂ fun p₃ hp₃ hle₃ => .none hp₃ ((progress 1).trans hle hle₃)
    · refine wp_runLift (wp_innerFrame hp₂.1 fun inner hinner => wp_runLiftEnd (wp_push (by simpa using hroom) ?_))
      refine .passes hp₂ hle (Nat.lt_of_lt_of_le hlt₁ hle₂.current) hstart (.inl hinner) ?_ ?_
      · intro waiting hmem
        rcases List.mem_cons.mp hmem with rfl | hmem
        · exact .inl rfl
        · exact hbelow waiting hmem
      · rw [hinner, List.length_cons]
        exact Nat.le_succ _
  next => exact wp_runFails hp fun p₁ hp₁ hle₁ => .none hp₁ hle₁
  next hkind =>
    refine wp_runBind (wp_mono (typeName_passes hp (At.ne_eof htok (hkind ▸ nofun))) ?_)
    intro r p₁ ⟨hp₁, hle₁, hlt₁⟩
    constructor
    · rintro type rfl
      exact wp_runPure (.passes hp₁ hle₁ hlt₁ hstart (.inr ⟨rfl, nofun⟩) hbelow (by simp [TypeState.weight]))
    · rintro rfl
      exact .none hp₁ hle₁
  next => exact wp_runFails hp fun p₁ hp₁ hle₁ => .none hp₁ hle₁

theorem typeSuffix_runs {element : Ty} (hp : (progress 1).inv p) (hstate : frame.state = .arraySuffix)
    (hresult : frame.result.isSome) (hpassed : start < p.current) (hbelow : ∀ waiting ∈ below, waiting.Waits) :
    wp (typeSuffix frame element below).run (fun r p' => TypeRound start p (frame :: below) (r.map .inl) p') p := by
  have hstart : start ≤ p.current := Nat.le_of_lt hpassed
  refine wp_runLift (wp_matchToken nofun hp.1 (fun hnext => ?_) fun _ => ?_)
  · have hp₁ : (progress 1).inv p.next := ⟨hnext, Nat.le_succ_of_le hp.2⟩
    have hle₁ : Follows p p.next := Follows.next p
    -- the frame with a new result, at any later place
    have hagain {p₂ : Parser} (hp₂ : (progress 1).inv p₂) (hle₂ : Follows p.next p₂) (depth : Nat) (type : Ty) :
        TypeRound start p (frame :: below)
          (some (.inl ({ frame with depth := depth, result := some type } :: below))) p₂ := by
      refine .passes hp₂ ((progress 1).trans hle₁ hle₂) (Nat.lt_of_lt_of_le (Nat.lt_succ_self _) hle₂.current) hstart
        (.inr ⟨rfl, fun hmap => ?_⟩) hbelow ?_
      · rw [hstate] at hmap
        exact nomatch hmap
      · show 2 * below.length + frame.state.weight ≤ _
        rw [hstate]
        exact Nat.add_le_add_left (by decide) _
    have hfails {p₂ : Parser} (hp₂ : (progress 1).inv p₂) (hle₂ : Follows p.next p₂) :
        TypeRound start p (frame :: below) none p₂ := .none hp₂ ((progress 1).trans hle₁ hle₂)
    -- the closing bracket
    have hcloses {p₂ : Parser} (hp₂ : (progress 1).inv p₂) (hle₂ : Follows p.next p₂) (message : String)
        (type : Span → Ty) :
        wp (do
          expect (consume .rbracket message)
          let span := spanFromTokens frame.startTok (← previousToken).span
          return { frame with depth := frame.depth + 1, result := some (type span) } :: below :
            Attempt (List TypeFrame)).run (fun r p' => TypeRound start p (frame :: below) (r.map .inl) p') p₂ := by
      refine wp_expectGains (consume_gains (by decide)) hp₂ (fun p₃ hp₃ hle₃ _ => ?_) fun p₃ hp₃ hle₃ => ?_
      · have hle := (progress 1).trans hle₂ hle₃
        exact wp_runLift (wp_previousToken hp₃.1 hp₃.2 fun _ => wp_runPure (hagain hp₃ hle _ _))
      · exact hfails hp₃ ((progress 1).trans hle₂ hle₃)
    rw [if_pos rfl]
    refine wp_runIte (fun _ => wp_runFails hp₁ fun p₂ hp₂ hle₂ => hfails hp₂ hle₂) fun _ => ?_
    refine wp_runLift (wp_look hnext fun isSized _ => wp_runIte (fun _ => ?_) fun _ => ?_)
    · refine wp_runLift (wp_keeps hp₁ fun _ p₂ hp₂ hle₂ => wp_runLift (wp_previousToken hp₂.1 hp₂.2 fun tok => ?_))
      dsimp only
      split
      next => exact wp_runFails hp₂ fun p₃ hp₃ hle₃ => hfails hp₃ ((progress 1).trans hle₂ hle₃)
      next size _ =>
        refine wp_runIte (fun _ => ?_) fun _ => hcloses hp₂ hle₂ _ fun span => .fixedArray span element size.toNat
        exact wp_runFails hp₂ fun p₃ hp₃ hle₃ => hfails hp₃ ((progress 1).trans hle₂ hle₃)
    · exact hcloses hp₁ ((progress 1).refl _) _ fun span => .array span element
  · rw [if_neg Bool.false_ne_true]
    refine wp_runPure ⟨hp, (progress 1).refl p, ?_, nofun⟩
    rintro _ ⟨rfl⟩
    refine ⟨⟨_, _, rfl, .inr ⟨hresult, nofun⟩, hbelow, .inr hpassed⟩, ?_⟩
    simp only [typeMeasure, List.length_cons, List.head?_cons, Option.map_some, Option.getD_some, hstate,
      TypeState.weight]
    omega

theorem typeStep_runs (hp : (progress 1).inv p) (hstart : start ≤ p.current)
    (hstack : TypeStack start (frame :: below) p) :
    wp (typeStep frame below).run (TypeRound start p (frame :: below)) p := by
  obtain ⟨_, _, ⟨rfl, rfl⟩, hready, hbelow, hpassed⟩ := hstack
  have hfails {p₁ : Parser} (hp₁ : (progress 1).inv p₁) (hle₁ : Follows p p₁) :
      TypeRound start p (frame :: below) none p₁ := .none hp₁ hle₁
  unfold typeStep
  refine wp_runIte (fun _ => wp_runFails hp fun p₁ hp₁ hle₁ => hfails hp₁ hle₁) fun _ => ?_
  split
  next hbase _ =>
    refine wp_runBind (wp_mono (typeBase_runs hp hstart hbelow) fun r p₁ hr => ⟨?_, ?_⟩)
    · rintro stack rfl
      exact wp_runPure hr
    · rintro rfl
      exact hr
  next key hstate _ =>
    refine wp_runLift (wp_keeps (P := progress 1) hp fun _ p₁ hp₁ hle₁ => ?_)
    refine wp_expectGains (consume_gains (by decide)) hp₁ (fun p₂ hp₂ hle₂ hlt₂ => ?_) fun p₂ hp₂ hle₂ => ?_
    · have hle := (progress 1).trans hle₁ hle₂
      have hlt : p.current < p₂.current := Nat.lt_of_le_of_lt hle₁.current hlt₂
      refine wp_runIte (fun _ => wp_runFails hp₂ fun p₃ hp₃ hle₃ => hfails hp₃ ((progress 1).trans hle hle₃)) fun hroom => ?_
      refine wp_runLift (wp_innerFrame hp₂.1 fun inner hinner => wp_runLift (wp_push (by simpa using hroom) ?_))
      refine wp_runPure (.passes hp₂ hle hlt hstart (.inl hinner) ?_ ?_)
      · intro waiting hmem
        rcases List.mem_cons.mp hmem with rfl | hmem
        · exact .inr ⟨rfl, rfl⟩
        · exact hbelow waiting hmem
      · rw [hinner, List.length_cons]
        exact Nat.le_succ _
    · exact hfails hp₂ ((progress 1).trans hle₁ hle₂)
  next value hstate hresult =>
    have hwaited := hready.resolve_left (hstate ▸ nofun)
    obtain ⟨key, hkey⟩ := Option.isSome_iff_exists.mp (hwaited.2 hstate)
    split
    next hnone =>
      rw [hkey] at hnone
      exact nomatch hnone
    next key _ =>
      refine wp_expectGains (consumeAfter_gains (by decide)) hp (fun p₁ hp₁ hle₁ hlt₁ => ?_)
        fun p₁ hp₁ hle₁ => hfails hp₁ hle₁
      refine wp_runLift (wp_previousToken hp₁.1 hp₁.2 fun tok => wp_runPure ?_)
      exact .passes hp₁ hle₁ hlt₁ hstart (.inr ⟨rfl, nofun⟩) hbelow (by simp [TypeState.weight])
  next element hstate hresult =>
    have hpast : start < p.current := hpassed.resolve_left (hstate ▸ nofun)
    refine wp_runBind (wp_mono (typeSuffix_runs hp hstate (hresult ▸ rfl) hpast hbelow) fun r p₁ hr => ⟨?_, ?_⟩)
    · rintro stack rfl
      exact wp_runPure hr
    · rintro rfl
      exact hr
  next result hstate hresult =>
    have hpast : start < p.current := hpassed.resolve_left (hstate ▸ nofun)
    split
    next => exact wp_runPure ⟨hp, (progress 1).refl p, nofun, fun _ _ => hpast⟩
    next waiting below =>
      refine wp_runPure ⟨hp, (progress 1).refl p, ?_, nofun⟩
      rintro _ ⟨rfl⟩
      have hwaits := hbelow waiting List.mem_cons_self
      refine ⟨⟨_, _, rfl, .inr ⟨rfl, fun hvalue => ?_⟩, fun other hmem => ?_, .inr hpast⟩, ?_⟩
      · rcases hwaits with hkey | hvalue'
        · exact absurd (hkey.symm.trans hvalue) nofun
        · exact hvalue'.2
      · exact hbelow other (List.mem_cons_of_mem _ hmem)
      · have hweight : waiting.state.weight = 0 := by
          rcases hwaits with hkey | ⟨hvalue, _⟩
          · rw [hkey]
            rfl
          · rw [hvalue]
            rfl
        simp only [typeMeasure, List.length_cons, List.head?_cons, Option.map_some, Option.getD_some, hweight]
        omega
  next hnone hbase =>
    rcases hready with h | ⟨hsome, _⟩
    · exact absurd h hbase
    · rw [hnone] at hsome
      exact nomatch hsome

theorem parseType_gains : Gains (progress 1) parseType.run fun r _ => r.isSome := by
  refine ⟨fun p hp => wp_bind (wp_currentToken hp.1 fun tok _ => wp_bind (wp_bind (wp_get (wp_pure ?_))))⟩
  refine wp_loop (fun stack p' => (progress 1).inv p' ∧ Follows p p' ∧ TypeStack p.current stack p') typeMeasure
    (fun stack p₁ ⟨hp₁, hle₁, hstack⟩ => ?_) ⟨hp, (progress 1).refl p, ?_⟩ ?_
  · obtain ⟨frame, below, rfl, hrest⟩ := hstack
    refine wp_bind (wp_mono (typeStep_runs hp₁ hle₁.current ⟨frame, below, rfl, hrest⟩) fun r p₂ hr => ?_)
    have hle := (progress 1).trans hle₁ hr.le
    obtain _ | stack | type := r
    · exact wp_pure ⟨nofun, fun _ h => Sum.inr.inj h ▸ ⟨hr.inv, hle, nofun⟩⟩
    · refine wp_pure ⟨fun _ h => ?_, nofun⟩
      obtain ⟨hstack, hless⟩ := hr.goes stack rfl
      exact Sum.inl.inj h ▸ ⟨⟨hr.inv, hle, hstack⟩, hless⟩
    · exact wp_pure ⟨nofun, fun _ h => Sum.inr.inj h ▸ ⟨hr.inv, hle, fun _ => hr.ends type rfl⟩⟩
  · exact ⟨_, [], rfl, .inl rfl, nofun, .inl rfl⟩
  · show 4 * (p.stream.length - p.current) + 2 * 1 + 0 < 8 * (p.stream.length + 1)
    omega

instance : Keeps (progress 1) parseType.run := parseType_gains.keeps

/-! ## Expressions -/

/-- What the stacks of frames and the state of an expression still allow. -/
def exprMeasure : ExprState × List ExprFrame → Parser → Nat
  | (state, stack), p =>
    4 * (p.stream.length - p.current) + 2 * stack.length + (if state = .operator then 1 else 0)

structure ExprRound (stack : ExprState × List ExprFrame) (p : Parser)
    (r : Option ((ExprState × List ExprFrame) ⊕ BitVec 64)) (p' : Parser) : Prop where
  inv : (progress 1).inv p'
  le : Follows p p'
  goes : ∀ stack', r = some (.inl stack') → stack'.2 ≠ [] ∧ exprMeasure stack' p' < exprMeasure stack p

variable {members : List EnumMember} {top : ExprFrame} {outer : List ExprFrame}

theorem ExprRound.none {stack : ExprState × List ExprFrame} (hp' : (progress 1).inv p') (hle : Follows p p') :
    ExprRound stack p none p' := ⟨hp', hle, nofun⟩

theorem ExprRound.passes {state state' : ExprState} {stack stack' : List ExprFrame} (hp' : (progress 1).inv p')
    (hle : Follows p p') (hlt : p.current < p'.current) (hne : stack' ≠ []) (hlength : stack'.length ≤ stack.length + 1) :
    ExprRound (state, stack) p (some (.inl (state', stack'))) p' := by
  refine ⟨hp', hle, ?_⟩
  rintro _ ⟨rfl⟩
  have hinside := hp'.1.inside
  rw [hle.stream] at hinside
  refine ⟨hne, ?_⟩
  simp only [exprMeasure, hle.stream]
  split <;> split <;> omega

theorem exprOperand_gains : Gains (progress 1) (exprOperand members).run fun r _ => r.isSome := by
  refine ⟨fun p hp => wp_runLift (wp_check hp.1 (fun hat => ?_) fun _ => ?_)⟩
  · refine wp_mono (@runAdvance_passes _ _ _ _ (fun _ => Keeps.runAfter fun tok => ?_) hp
      fun heof => nomatch hat.unique heof) fun _ _ ⟨hp', hle, hlt⟩ => ⟨hp', hle, fun _ => hlt⟩
    split
    · infer_instance
    · infer_instance
  refine wp_runLift (wp_check hp.1 (fun hat => ?_) fun _ => ?_)
  · refine wp_mono (@runAdvance_passes _ _ _ _ (fun _ => Keeps.runAfter fun tok => ?_) hp
      fun heof => nomatch hat.unique heof) fun _ _ ⟨hp', hle, hlt⟩ => ⟨hp', hle, fun _ => hlt⟩
    split
    · infer_instance
    · refine Keeps.runAfter fun p => ?_
      split
      · infer_instance
      · infer_instance
  · exact wp_runFails hp fun p' hp' hle => ⟨hp', hle, nofun⟩

theorem pushValue_runs {Q : Option ExprFrame → Parser → Prop} {frame : ExprFrame} {value : BitVec 64}
    (hp : (progress 1).inv p) (hpost : ∀ r p', (progress 1).inv p' → Follows p p' → Q r p') :
    wp (pushValue frame value).run Q p := by
  refine wp_runIte (fun _ => wp_runFails hp fun p' hp' hle => hpost none p' hp' hle) fun hroom => ?_
  exact wp_runLift (wp_push (Nat.lt_of_not_le hroom) (wp_runPure (hpost _ p hp ((progress 1).refl p))))

theorem exprOperandStep_runs (hp : (progress 1).inv p) :
    wp (exprOperandStep members top outer).run (fun r p' => ExprRound (.operand, top :: outer) p (r.map .inl) p') p := by
  refine wp_runLift (wp_keeps (P := progress 1) hp fun isNegative p₁ hp₁ hle₁ => ?_)
  dsimp only
  refine wp_runLift (wp_matchToken nofun hp₁.1 (fun hnext => ?_) fun _ => ?_)
  · have hp₂ : (progress 1).inv p₁.next := ⟨hnext, Nat.le_succ_of_le hp₁.2⟩
    have hle₂ : Follows p p₁.next := (progress 1).trans hle₁ (Follows.next p₁)
    have hlt₂ : p.current < p₁.next.current := Nat.lt_of_le_of_lt hle₁.current (Nat.lt_succ_self _)
    rw [if_pos rfl]
    refine wp_runIte (fun _ => ?_) fun hroom => ?_
    · exact wp_runFails hp₂ fun p₃ hp₃ hle₃ => .none hp₃ ((progress 1).trans hle₂ hle₃)
    · refine wp_runLift (wp_push (by simpa using hroom) (wp_runPure ?_))
      exact .passes hp₂ hle₂ hlt₂ (List.cons_ne_nil _ _) (Nat.le_refl _)
  · rw [if_neg Bool.false_ne_true]
    refine wp_runBind (exprOperand_gains.wp hp₁ fun r p₂ hp₂ hle₂ hlt₂ => ⟨?_, fun _ => ?_⟩)
    · rintro value rfl
      have hle := (progress 1).trans hle₁ hle₂
      have hlt : p.current < p₂.current := Nat.lt_of_le_of_lt hle₁.current (hlt₂ rfl)
      refine wp_runBind (pushValue_runs hp₂ fun r p₃ hp₃ hle₃ => ⟨?_, fun _ => ?_⟩)
      · rintro frame rfl
        refine wp_runPure (.passes hp₃ ((progress 1).trans hle hle₃) (Nat.lt_of_lt_of_le hlt hle₃.current)
          (List.cons_ne_nil _ _) (Nat.le_succ _))
      · exact .none hp₃ ((progress 1).trans hle hle₃)
    · exact .none hp₂ ((progress 1).trans hle₁ hle₂)

instance : Keeps (progress n) exprOperator := by
  unfold exprOperator
  infer_instance

theorem wp_exprOperator {Q : Option ExprOp → Parser → Prop} (hp : p.Sound)
    (h : ∀ op, (op.isSome → ¬p.At .eof) → Q op p) : wp exprOperator Q p := by
  have hother {kind : TokenKind} (hat : p.At kind) (hkind : kind ≠ .eof) : ¬p.At .eof :=
    fun heof => hkind (hat.unique heof)
  refine wp_bind (wp_check hp (fun hat => wp_pure (h _ fun _ => hother hat nofun)) fun _ => ?_)
  refine wp_bind (wp_check hp (fun hat => wp_pure (h _ fun _ => hother hat nofun)) fun _ => ?_)
  have hinside := hp.inside
  refine wp_bind (wp_bind (wp_get ?_))
  have hpeek : wp (if p.current + 1 ≥ p.stream.length then tokenAt (p.stream.length - 1) else tokenAt (p.current + 1))
      (fun _ p' => p' = p) p := by
    refine wp_ite (fun _ => ?_) fun _ => ?_
    · exact wp_tokenAt (by omega) fun _ => rfl
    · exact wp_tokenAt (by omega) fun _ => rfl
  refine wp_mono hpeek ?_
  rintro next _ rfl
  refine wp_bind (wp_check hp (fun hat => wp_ite (fun _ => ?_) fun _ => ?_) fun _ => ?_)
  · exact wp_pure (h _ fun _ => hother hat nofun)
  · exact wp_pure (h _ nofun)
  · exact wp_ite (fun hfalse => absurd hfalse Bool.false_ne_true) fun _ => wp_pure (h _ nofun)

theorem exprClose_runs (hp : (progress 1).inv p) :
    wp (exprClose top outer).run (ExprRound (.operator, top :: outer) p) p := by
  unfold exprClose
  split
  next => exact wp_runFails hp fun p' hp' hle => .none hp' hle
  next _ values _ =>
    dsimp only
    split
    next => exact wp_runPure ⟨hp, (progress 1).refl p, nofun⟩
    next frame below =>
      refine wp_runLift (wp_keeps (P := progress 1) hp fun _ p₁ hp₁ hle₁ => ?_)
      refine wp_runBind (pushValue_runs hp₁ fun r p₂ hp₂ hle₂ => ⟨?_, fun _ => ?_⟩)
      · rintro frame' rfl
        refine wp_runPure ⟨hp₂, (progress 1).trans hle₁ hle₂, ?_⟩
        rintro _ ⟨rfl⟩
        refine ⟨List.cons_ne_nil _ _, ?_⟩
        have hcurrent := ((progress 1).trans hle₁ hle₂).current
        simp only [exprMeasure, ((progress 1).trans hle₁ hle₂).stream, List.length_cons]
        omega
      · exact .none hp₂ ((progress 1).trans hle₁ hle₂)

theorem exprOperatorStep_runs (hp : (progress 1).inv p) :
    wp (exprOperatorStep top outer).run (ExprRound (.operator, top :: outer) p) p := by
  refine wp_runLift (wp_exprOperator hp.1 fun op hahead => ?_)
  split
  next => exact exprClose_runs hp
  next op =>
    split
    next => exact wp_runFails hp fun p' hp' hle => .none hp' hle
    next ops values _ =>
      refine wp_runIte (fun _ => wp_runFails hp fun p' hp' hle => .none hp' hle) fun hroom => ?_
      refine wp_runLift (wp_push (Nat.lt_of_not_le hroom) ?_)
      have hgoes {p' : Parser} (hp' : (progress 1).inv p') (hle : Follows p p') (hlt : p.current < p'.current) :
          ExprRound (.operator, top :: outer) p
            (some (.inl (.operand, { top with values := values, ops := op :: ops } :: outer))) p' :=
        .passes hp' hle hlt (List.cons_ne_nil _ _) (Nat.le_succ _)
      refine wp_runIte (fun _ => ?_) fun _ => ?_
      · refine wp_runLift (wp_mono (advance_passes hp.1 (hahead rfl)) fun _ p₁ ⟨hp₁, hle₁, hlt₁⟩ => ?_)
        have hinv₁ : (progress 1).inv p₁ := ⟨hp₁, Nat.le_trans hp.2 hle₁.current⟩
        refine wp_runLift (wp_keeps hinv₁ fun _ p₂ hp₂ hle₂ => wp_runPure ?_)
        exact hgoes hp₂ ((progress 1).trans hle₁ hle₂) (Nat.lt_of_lt_of_le hlt₁ hle₂.current)
      · refine wp_runLift (wp_mono (advance_passes hp.1 (hahead rfl)) fun _ p₁ ⟨hp₁, hle₁, hlt₁⟩ => ?_)
        exact wp_runPure (hgoes ⟨hp₁, Nat.le_trans hp.2 hle₁.current⟩ hle₁ hlt₁)

instance : Keeps (progress 1) (parseExpression members) := by
  refine ⟨fun p hp => wp_bind (wp_bind (wp_get (wp_pure ?_)))⟩
  refine wp_loop (fun stack p' => (progress 1).inv p' ∧ Follows p p' ∧ stack.2 ≠ []) exprMeasure
    (fun stack p₁ ⟨hp₁, hle₁, hstack⟩ => ?_) ⟨hp, (progress 1).refl p, List.cons_ne_nil _ _⟩ ?_
  · obtain ⟨state, stack⟩ := stack
    obtain _ | ⟨top, outer⟩ := stack
    · exact absurd rfl hstack
    cases state with
    | operand =>
      refine wp_bind (wp_mono (exprOperandStep_runs hp₁) fun r p₂ hr => ?_)
      have hle := (progress 1).trans hle₁ hr.le
      cases r with
      | none => exact wp_pure ⟨nofun, fun _ _ => ⟨hr.inv, hle⟩⟩
      | some stack' =>
        refine wp_pure ⟨fun _ h => ?_, nofun⟩
        obtain ⟨hne, hless⟩ := hr.goes stack' rfl
        exact Sum.inl.inj h ▸ ⟨⟨hr.inv, hle, hne⟩, hless⟩
    | operator =>
      refine wp_bind (wp_mono (exprOperatorStep_runs hp₁) fun r p₂ hr => ?_)
      have hle := (progress 1).trans hle₁ hr.le
      cases r with
      | none => exact wp_pure ⟨nofun, fun _ _ => ⟨hr.inv, hle⟩⟩
      | some stack' =>
        refine wp_pure ⟨fun stack'' h => ?_, fun _ _ => ⟨hr.inv, hle⟩⟩
        obtain ⟨hne, hless⟩ := hr.goes stack'' (congrArg some h)
        exact ⟨⟨hr.inv, hle, hne⟩, hless⟩
  · show 4 * (p.stream.length - p.current) + 2 * 1 + 0 < 8 * (p.stream.length + 1)
    omega

end Parser

end Bebop.Compiler
