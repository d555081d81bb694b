import Bebop.Compiler.ParserMembersProgress

/-!
# Bebop — the parser comes to the end of its stream

A round of `bebop__parse_file` that passes no token takes a frame off the stack or brings
its top frame nearer to one that does (`stackMeasure`). Below the top there are only
definitions in whose bodies others may begin (`StackShape`).
-/

namespace Bebop.Compiler

open Fallible

inductive ParseState.TakesNested : ParseState → Prop
  | struct (d : OpenDef) (isMutable : Bool) (fields : List Field) : TakesNested (.structBody d isMutable fields)
  | message (d : OpenDef) (fields : List Field) : TakesNested (.messageBody d fields)
  | union (d : OpenDef) (branches : List Branch) : TakesNested (.unionBody d branches)

def ParseState.weight : ParseState → Nat
  | .file => 6
  | .import => 5
  | .edition => 5
  | .package => 5
  | .definition => 4
  | .enumStart => 3
  | .structStart => 3
  | .messageStart => 3
  | .unionStart => 3
  | .serviceStart => 3
  | .constStart => 3
  | .unionBranch _ _ => 6
  | _ => 7

/-- When a state is the top one's: a definition begins at a token, and its body behind one. -/
def ParseState.Ready (p : Parser) : ParseState → Prop
  | .file => True
  | .enumBody _ _ _ => 1 ≤ p.current
  | .structBody _ _ _ => 1 ≤ p.current
  | .messageBody _ _ => 1 ≤ p.current
  | .unionBody _ _ => 1 ≤ p.current
  | .unionBranch _ _ => 1 ≤ p.current ∧ ¬p.At .eof
  | .serviceBody _ _ _ => 1 ≤ p.current
  | _ => ¬p.At .eof

/-- A nested definition is one in the body of the frame below. -/
def StackShape : List Frame → Prop
  | [] => True
  | frame :: below =>
    (frame.nested = true → below ≠ []) ∧ (∀ outer ∈ below.head?, outer.state.TakesNested) ∧ StackShape below

namespace Parser

variable {p p' : Parser} {n : Nat} {α β γ : Type}

/-! ## The beginnings of files and definitions -/

instance (path : Text) (span : Span) : Keeps (progress n) (addImport path span) :=
  keeps_modify (fun _ => rfl) (fun _ => rfl) fun _ => rfl

instance : Keeps (progress 1) importPath := by
  unfold importPath
  infer_instance

instance : Keeps (progress 1) editionYear := by
  have hedition : Keeps (progress 1) (modify fun p => { p with edition := 2026 } : Parse Unit) :=
    keeps_modify (fun _ => rfl) (fun _ => rfl) fun _ => rfl
  unfold editionYear
  infer_instance

theorem packageRound_gains (b : Text × Span) : Gains (progress 1) (packageRound b) fun r _ => r.isLeft := by
  obtain ⟨name, last⟩ := b
  refine Gains.bind (matchToken_gains (by decide)) (fun r _ => ?_) fun r hr => ?_
  · infer_instance
  · rw [if_neg hr]
    exact Gains.pure fun _ => nofun

instance (keyword : Span) (first : Token) : Keeps (progress 1) (packageName keyword first) := by
  have hloop (b : Text × Span) : Keeps (progress 1) (overStream packageRound b) := overStream_keeps packageRound_gains b
  unfold packageName
  refine @Keeps.ite _ _ _ _ _ _ _ _ inferInstance (Keeps.after fun r => ?_)
  obtain ⟨name, last⟩ := r
  have hpackage : Keeps (progress 1) (modify fun p =>
      { p with package := some name, packageSpan := some (spanFromTokens keyword last), preamble := .package } :
      Parse Unit) := keeps_modify (fun _ => rfl) (fun _ => rfl) fun _ => rfl
  infer_instance

instance : Keeps (progress 1) enumBase := by
  unfold enumBase
  refine Keeps.after fun given => @Keeps.ite _ _ _ _ _ _ _ _ ?_ inferInstance
  refine Keeps.after fun named => @Keeps.ite _ _ _ _ _ _ _ _ (Keeps.after fun tok => ?_) inferInstance
  split
  · infer_instance
  · infer_instance

theorem mixinRound_gains (mixins : List Ty) : Gains (progress 1) (mixinRound mixins) fun r _ => r.isLeft := by
  refine Gains.bind parseType_gains (fun r _ => ?_) fun r hr => ?_
  · split
    · infer_instance
    · infer_instance
  · split
    · exact Gains.pure fun _ => nofun
    · exact absurd rfl hr

instance : Keeps (progress 1) serviceMixins := by
  have hloop : Keeps (progress 1) (overStream mixinRound []) := overStream_keeps mixinRound_gains []
  unfold serviceMixins
  infer_instance

/-! ## Bodies -/

theorem lookAheadRound_gains (b : Int × Bool) : Gains (progress n) (lookAheadRound b) fun r _ => r.isLeft := by
  obtain ⟨depth, afterAt⟩ := b
  refine ⟨fun p hp => wp_bind (wp_atEnd hp.1 (fun _ => wp_pure ⟨hp, (progress n).refl p, nofun⟩) fun hahead => ?_)⟩
  have hadvance (b : Int × Bool) : wp (do advance; return .inl b) (fun (r : (Int × Bool) ⊕ Bool) p' =>
      (progress n).inv p' ∧ Follows p p' ∧ (r.isLeft → p.current < p'.current)) p :=
    advanceRound_gains hp.1 hp.2 hahead
  refine wp_bind (wp_currentToken hp.1 fun tok _ => ?_)
  refine wp_ite (fun _ => hadvance _) fun _ => wp_ite (fun _ => hadvance _) fun _ => ?_
  refine wp_ite (fun _ => hadvance _) fun _ => wp_ite (fun _ => hadvance _) fun _ => ?_
  refine wp_ite (fun _ => hadvance _) fun _ => wp_ite (fun _ => hadvance _) fun _ => ?_
  exact wp_pure ⟨hp, (progress n).refl p, nofun⟩

instance : Keeps (progress n) atBodyEnd := by
  unfold atBodyEnd
  infer_instance

theorem wp_isNestedDefStart {Q : Bool → Parser → Prop} (hp : p.Sound)
    (h : ∀ r p', p'.Sound → p'.stream = p.stream → p'.current = p.current → (r = true → ¬p.At .eof) → Q r p') :
    wp isNestedDefStart Q p := by
  have hpure {r : Bool} (hr : r = true → ¬p.At .eof) : Q r p := h r p hp rfl rfl hr
  refine wp_bind (wp_currentToken hp fun tok htok => ?_)
  have hother (hkind : tok.kind ≠ .eof) : ¬p.At .eof := At.ne_eof htok hkind
  refine wp_ite (fun hkeyword => wp_pure (hpure fun _ => hother fun heof => ?_)) fun _ => ?_
  · rw [heof] at hkeyword
    exact absurd hkeyword (by decide)
  refine wp_ite (fun hmodifier => ?_) fun _ => ?_
  · have hkind : tok.kind ≠ .eof := by
      rcases hmodifier with h | h <;> rw [h] <;> decide
    refine wp_bind (wp_get (wp_ite (fun hnext => wp_bind (wp_tokenAt hnext fun _ => ?_)) fun _ => ?_))
    · exact wp_pure (hpure fun _ => hother hkind)
    · exact wp_pure (hpure nofun)
  refine wp_ite (fun hmut => wp_pure (hpure fun _ => hother (hmut ▸ nofun))) fun _ => ?_
  refine wp_ite (fun hat => ?_) fun _ => wp_pure (hpure nofun)
  have hloop : Keeps (progress 0) (overStream lookAheadRound (0, false)) := overStream_keeps lookAheadRound_gains _
  refine wp_bind (wp_get (wp_bind (hloop.wp ⟨hp, Nat.zero_le _⟩ fun found p₁ hp₁ hle₁ => wp_bind (wp_modify ?_))))
  refine wp_pure (h found _ ⟨?_, hp₁.1.last, hp₁.1.running⟩ hle₁.stream rfl fun _ => hother (hat ▸ nofun))
  show p.current < p₁.stream.length
  rw [hle₁.stream]
  exact hp.inside

theorem bodyMember_passes {member : Attempt α} (h : Enters member) (hp : (progress 1).inv p) (hahead : ¬p.At .eof) :
    wp (bodyMember member) (fun _ p' => (progress 1).inv p' ∧ Follows p p' ∧ p.current < p'.current) p := by
  refine wp_bind (h.wp hp fun r p₁ hp₁ hle₁ hlt₁ => wp_bind ?_)
  refine wp_mono (recover_passes synchronizeInBlock_skips hp₁.1 hle₁ hahead fun hcalm => hlt₁ (.inr hcalm)) ?_
  intro _ p₂ ⟨hp₂, hle₂, hlt₂⟩
  exact wp_pure ⟨⟨hp₂, Nat.le_trans hp.2 hle₂.current⟩, hle₂, hlt₂⟩

theorem wp_atBodyEnd {Q : Bool → Parser → Prop} (hp : p.Sound) (hends : Q true p) (hgoes : ¬p.At .eof → Q false p) :
    wp atBodyEnd Q p := by
  refine wp_bind (wp_check hp (fun _ => ?_) fun _ => ?_)
  · exact wp_bind (wp_look hp fun _ _ => wp_pure hends)
  · exact wp_bind (wp_atEnd hp (fun _ => wp_pure hends) fun hahead => wp_pure (hgoes hahead))

theorem inlineFieldsRound_gains (name : Text) (kind : DefKind) (fields : List Field) :
    Gains (progress 1) (inlineFieldsRound name kind fields) fun r _ => r.isLeft := by
  refine ⟨fun p hp => wp_bind (wp_atBodyEnd hp.1 (wp_pure ⟨hp, (progress 1).refl p, nofun⟩) fun hahead => ?_)⟩
  refine wp_bind (wp_mono (bodyMember_passes (parseField_enters _ _ _) hp hahead) ?_)
  exact fun _ p' ⟨hp', hle, hlt⟩ => wp_pure ⟨hp', hle, fun _ => hlt⟩

instance (kind : DefKind) (opening : Span) (name : Text) (visibility : Visibility) (body : List Field → Body) :
    Keeps (progress 1) (inlineDefinition kind opening name visibility body) := by
  have hloop : Keeps (progress 1) (inlineFields name kind) := overStream_keeps (inlineFieldsRound_gains name kind) []
  unfold inlineDefinition
  infer_instance

instance {attempt : Attempt α} [Keeps (progress 1) attempt.run] : Keeps (progress 1) (orRecover attempt).run := by
  refine Keeps.after (P := progress 1) (m := attempt.run) fun r => ?_
  split
  · infer_instance
  · infer_instance

instance (name : Token) (isMutable : Bool) (visibility : Visibility) :
    Keeps (progress 1) (branchDefinition name isMutable visibility).run := by
  unfold branchDefinition
  refine Keeps.runAfter fun isStruct => @Keeps.runIte _ _ _ _ _ _ _ _ inferInstance ?_
  refine Keeps.runAfter fun _ => Keeps.runAfter fun _ => Keeps.runAfter fun _ => Keeps.runAfter fun keyword => ?_
  infer_instance

instance (isMutable : Bool) (visibility : Visibility) : Keeps (progress 1) (branchReference isMutable visibility).run := by
  unfold branchReference
  refine Keeps.runAfter fun _ => Keeps.runAfter fun _ => Keeps.runAfter fun type => ?_
  infer_instance

instance (name : Token) (visibility : Visibility) : Keeps (progress 1) (branchType name visibility).run := by
  unfold branchType
  refine Keeps.runAfter fun isMutable => Keeps.runAfter fun _ => Keeps.runAfter fun _ => ?_
  infer_instance

instance : Keeps (progress 1) branchVisibility := by
  unfold branchVisibility
  infer_instance

theorem branchHead_enters (branches : List Branch) : Enters (branchHead branches) := by
  refine @enters_name _ _ _ fun _ => ?_
  refine Keeps.runAfter fun name => Keeps.runAfter fun _ => Keeps.runAfter fun _ => Keeps.runAfter fun tok => ?_
  split
  · infer_instance
  · refine @Keeps.runIte _ _ _ _ _ _ _ _ inferInstance ?_
    infer_instance

theorem parseBranch_passes {d : OpenDef} {branches : List Branch} {decorators : List Decorator} {first : Span}
    {p₀ : Parser} (hp : (progress 1).inv p) (hle : Follows p₀ p) (hahead : ¬p₀.At .eof) :
    wp (parseBranch d branches decorators first).run
      (fun _ p' => (progress 1).inv p' ∧ Follows p₀ p' ∧ p₀.current < p'.current) p := by
  refine wp_runLift (wp_keeps hp fun visibility p₁ hp₁ hle₁ => wp_runBind (wp_bind ?_))
  have hle₁' := (progress 1).trans hle hle₁
  refine (branchHead_enters branches).wp hp₁ fun r p₂ hp₂ hle₂ hlt₂ => ?_
  have hle₂' := (progress 1).trans hle₁' hle₂
  have hlt₂' (h : r.isSome ∨ p₂.panicMode = false) : p₀.current < p₂.current :=
    Nat.lt_of_le_of_lt hle₁'.current (hlt₂ h)
  cases r with
  | none =>
    refine wp_bind (wp_mono (recover_passes synchronizeInBlock_skips hp₂.1 hle₂' hahead fun h => hlt₂' (.inr h)) ?_)
    intro _ p₃ ⟨hp₃, hle₃, hlt₃⟩
    have hstarted : 1 ≤ p₃.current := Nat.le_trans (Nat.succ_le_succ (Nat.zero_le _)) hlt₃
    exact wp_pure ⟨nofun, fun _ => ⟨⟨hp₃, hstarted⟩, hle₃, hlt₃⟩⟩
  | some head =>
    obtain ⟨name, discriminator⟩ := head
    refine wp_pure ⟨fun a ha => ?_, nofun⟩
    obtain rfl := Option.some.inj ha
    refine Keeps.wp (P := progress 1) (Keeps.runAfter fun type => ?_) hp₂ fun _ p₃ hp₃ hle₃ => ?_
    · refine Keeps.runAfter fun _ => Keeps.runAfter fun last => ?_
      split
      · infer_instance
      · infer_instance
    · exact ⟨hp₃, (progress 1).trans hle₂' hle₃, Nat.lt_of_lt_of_le (hlt₂' (.inl rfl)) hle₃.current⟩

instance (type : Ty) : Keeps (progress 1) (checkConstType type) := by
  unfold checkConstType
  split
  · infer_instance
  · infer_instance
  · infer_instance
  · infer_instance

instance (keyword : Span) (frame : Frame) : Keeps (progress 1) (parseConst keyword frame).run := by
  unfold parseConst
  refine Keeps.runAfter fun type => Keeps.runAfter fun _ => Keeps.runAfter fun _ => Keeps.runAfter fun name => ?_
  refine Keeps.runAfter fun _ => Keeps.runAfter fun value => ?_
  infer_instance

instance (d : Def) (members : List EnumMember) : Keeps (progress n) (checkEnumComplete d members) := by
  unfold checkEnumComplete
  infer_instance

instance (branches : List Branch) : Keeps (progress 1) (checkBranches branches) := by
  unfold checkBranches
  infer_instance

instance (d : Def) (nameSpan : Span) : Keeps (progress n) (checkDuplicateDef d nameSpan) := by
  unfold checkDuplicateDef
  refine Keeps.after fun r => ?_
  split
  · infer_instance
  · infer_instance

/-! ## The stack -/

structure Running (stack : List Frame) (p : Parser) : Prop where
  sound : p.Sound
  shape : StackShape stack
  top : ∀ frame ∈ stack.head?, frame.state.Ready p
  started : stack.tail ≠ [] → 1 ≤ p.current
  ended : stack = [] → p.At .eof

def stackMeasure (stack : List Frame) (p : Parser) : Nat :=
  10 * (p.stream.length - p.current) +
    match stack with
    | [] => 0
    | frame :: below => frame.state.weight + 2 * below.length

/-- An error that ends the parse has been reported to the context. -/
structure Fatal (p : Parser) : Prop where
  inside : p.current < p.stream.length
  fatal : p.fatal = true
  reported : p.contextErrors ≠ []

/-- What a round comes to: the next one, or a fatal error. -/
def StepGoes (p : Parser) (stack stack' : List Frame) (p' : Parser) : Prop :=
  Follows p p' ∧ ((Running stack' p' ∧ stackMeasure stack' p' < stackMeasure stack p) ∨ Fatal p')

variable {frame top : Frame} {below : List Frame}

theorem weight_le (state : ParseState) : state.weight ≤ 7 := by
  cases state <;> simp [ParseState.weight]

theorem StepGoes.replaces (hrun : Running (frame :: below) p) (hp' : p'.Sound) (hle : Follows p p')
    (hnested : top.nested = frame.nested) (hready : top.state.Ready p')
    (hless : p.current < p'.current ∨ top.state.weight < frame.state.weight) :
    StepGoes p (frame :: below) (top :: below) p' := by
  refine ⟨hle, .inl ⟨⟨hp', ⟨hnested ▸ hrun.shape.1, hrun.shape.2⟩, ?_, ?_, nofun⟩, ?_⟩⟩
  · rintro _ ⟨⟩
    exact hready
  · intro hbelow
    exact Nat.le_trans (hrun.started hbelow) hle.current
  · have hinside := hp'.inside
    have hcurrent := hle.current
    have hweight := weight_le top.state
    rw [hle.stream] at hinside
    simp only [stackMeasure, hle.stream]
    rcases hless with h | h <;> omega

theorem TakesNested.ready {state : ParseState} (h : state.TakesNested) (hp : 1 ≤ p.current) : state.Ready p := by
  cases h <;> exact hp

theorem TakesNested.weight {state : ParseState} (h : state.TakesNested) : state.weight = 7 := by
  cases h <;> rfl

theorem TakesNested.addNested {state : ParseState} (h : state.TakesNested) (d : Def) :
    ∃ state', state.addNested d = some state' ∧ state'.TakesNested := by
  cases h with
  | struct => exact ⟨_, rfl, .struct _ _ _⟩
  | message => exact ⟨_, rfl, .message _ _⟩
  | union => exact ⟨_, rfl, .union _ _⟩

theorem StepGoes.pops {outer : Frame} {rest : List Frame} (hrun : Running (frame :: outer :: rest) p) (hp' : p'.Sound)
    (hle : Follows p p') (hnested : top.nested = outer.nested) (htakes : top.state.TakesNested)
    (hweight : 6 ≤ frame.state.weight) : StepGoes p (frame :: outer :: rest) (top :: rest) p' := by
  have hstarted : 1 ≤ p'.current := Nat.le_trans (hrun.started (List.cons_ne_nil _ _)) hle.current
  refine ⟨hle, .inl ⟨⟨hp', ⟨hnested ▸ hrun.shape.2.2.1, hrun.shape.2.2.2⟩, ?_, fun _ => hstarted, nofun⟩, ?_⟩⟩
  · rintro _ ⟨⟩
    exact TakesNested.ready htakes hstarted
  · have hcurrent := hle.current
    simp only [stackMeasure, hle.stream, TakesNested.weight htakes, List.length_cons]
    omega

theorem StepGoes.pushes (hrun : Running (frame :: below) p) (hp' : p'.Sound) (hstream : p'.stream = p.stream)
    (hcurrent : p'.current = p.current) (hahead : ¬p.At .eof) (hstarted : 1 ≤ p.current)
    (htakes : frame.state.TakesNested) :
    StepGoes p (frame :: below) (⟨.definition, [], false, .visDefault, true⟩ :: frame :: below) p' := by
  refine ⟨⟨hstream, Nat.le_of_eq hcurrent.symm⟩, .inl ⟨⟨hp', ?_, ?_, fun _ => hcurrent ▸ hstarted, nofun⟩, ?_⟩⟩
  · refine ⟨fun _ => List.cons_ne_nil _ _, ?_, hrun.shape⟩
    rintro _ ⟨⟩
    exact htakes
  · rintro _ ⟨⟩
    show ¬p'.At .eof
    unfold At
    rw [hstream, hcurrent]
    exact hahead
  · have hdefinition : ParseState.definition.weight = 4 := rfl
    simp only [stackMeasure, hstream, hcurrent, hdefinition, TakesNested.weight htakes, List.length_cons]
    omega

/-! ## One lemma for each state -/

theorem backToFile_goes (hrun : Running (frame :: below) p) {p₁ : Parser} (hp₁ : p₁.Sound) (hle : Follows p p₁)
    (hahead : ¬p.At .eof) (hcalm : p₁.panicMode = false → p.current < p₁.current) :
    wp (backToFile frame below) (StepGoes p (frame :: below)) p₁ := by
  refine wp_bind (wp_mono (recover_passes synchronize_skips hp₁ hle hahead hcalm) ?_)
  intro _ p₂ ⟨hp₂, hle₂, hlt₂⟩
  exact wp_pure (.replaces hrun hp₂ hle₂ rfl trivial (.inl hlt₂))

structure Stays (p p' : Parser) : Prop where
  sound : p'.Sound
  stream : p'.stream = p.stream
  current : p'.current = p.current

theorem Stays.follows (h : Stays p p') : Follows p p' := ⟨h.stream, Nat.le_of_eq h.current.symm⟩

theorem Stays.at_iff (h : Stays p p') (kind : TokenKind) : p'.At kind ↔ p.At kind :=
  h.follows.at_iff (Nat.not_lt_of_le (Nat.le_of_eq h.current)) kind

theorem Stays.trans {p'' : Parser} (h : Stays p p') (h' : Stays p' p'') : Stays p p'' :=
  ⟨h'.sound, h'.stream.trans h.stream, h'.current.trans h.current⟩

theorem reachPreamble_stays {preamble : Preamble} (hp : p.Sound) : wp (reachPreamble preamble) (fun _ => Stays p) p := by
  refine wp_modify ?_
  split
  · exact ⟨⟨hp.inside, hp.last, hp.running⟩, rfl, rfl⟩
  · exact ⟨hp, rfl, rfl⟩

theorem notAfter_stays {preamble : Preamble} {code : Nat} {message : String} (hp : p.Sound) :
    wp (notAfter preamble code message) (fun _ => Stays p) p := by
  refine wp_bind (wp_get (wp_ite (fun _ => ?_) fun _ => wp_pure ⟨hp, rfl, rfl⟩))
  exact wp_errorCurrent hp fun p' hp' hstream hcurrent _ => ⟨hp', hstream, hcurrent⟩

theorem Stays.goes {state : ParseState} (hrun : Running (frame :: below) p) (h : Stays p p')
    (hready : state.Ready p') (hweight : state.weight < frame.state.weight) :
    StepGoes p (frame :: below) ({ frame with state := state } :: below) p' :=
  .replaces hrun h.sound h.follows rfl hready (.inr hweight)

theorem wp_passing {m : Unit → Parse α} {Q : α → Parser → Prop} (hp : p.Sound) (hahead : ¬p.At .eof)
    (h : ∀ p', (progress 1).inv p' → Follows p p' → p.current < p'.current → wp (m ()) Q p') :
    wp (advance >>= m) Q p := by
  refine wp_bind (wp_mono (advance_passes hp hahead) fun _ p₁ ⟨hp₁, hle₁, hlt₁⟩ => ?_)
  exact h p₁ ⟨hp₁, Nat.le_trans (Nat.succ_le_succ (Nat.zero_le _)) hlt₁⟩ hle₁ hlt₁

theorem startState_ready {kind : TokenKind} {state : ParseState} (h : startState kind = some state) :
    kind ≠ .eof ∧ state.weight = 3 ∧ ∀ p : Parser, ¬p.At .eof → state.Ready p := by
  unfold startState at h
  split at h <;> cases h <;> exact ⟨by decide, rfl, fun _ hahead => hahead⟩

theorem wp_notADefinition {Q : Unit → Parser → Prop} {tok : Token} (hp : p.Sound)
    (h : ∀ p', p'.Sound → p'.stream = p.stream → p'.current = p.current → p'.panicMode = true → Q () p') :
    wp (notADefinition tok) Q p :=
  wp_ite (fun _ => wp_parseErrorAt hp h) fun _ => wp_errorCurrent hp h

instance (preamble : Preamble) : Keeps (progress n) (modify fun p => { p with preamble := preamble } : Parse Unit) :=
  keeps_modify (fun _ => rfl) (fun _ => rfl) fun _ => rfl

instance (nested : Bool) : Keeps (progress n) (definitionVisibility nested) := by
  refine ⟨fun p hp => ?_⟩
  have hmodifier {m : Unit → Parse Visibility} [Keeps (progress 1) (m ())] {kind : TokenKind} (hat : p.At kind)
      (hkind : kind ≠ .eof) : wp (advance >>= m) (fun _ p' => (progress n).inv p' ∧ Follows p p') p := by
    refine wp_passing hp.1 (fun heof => hkind (hat.unique heof)) fun p₁ hp₁ hle₁ _ => ?_
    refine wp_keeps hp₁ fun _ p₂ hp₂ hle₂ => ?_
    have hle := (progress n).trans hle₁ hle₂
    exact ⟨⟨hp₂.1, Nat.le_trans hp.2 hle.current⟩, hle⟩
  refine wp_bind (wp_check hp.1 (fun hat => hmodifier hat (by decide)) fun _ => ?_)
  refine wp_bind (wp_check hp.1 (fun hat => hmodifier hat (by decide)) fun _ => ?_)
  exact wp_pure ⟨hp, (progress n).refl p⟩

instance : Keeps (progress n) skipReadonly := by
  unfold skipReadonly
  infer_instance

section

variable (hrun : Running (frame :: below) p)

include hrun

theorem Running.ready {state : ParseState} (hstate : frame.state = state) : state.Ready p :=
  hstate ▸ hrun.top frame rfl

theorem fileState_goes (hstate : frame.state = .file) :
    wp (fileState frame below) (StepGoes p (frame :: below)) p := by
  have hp := hrun.sound
  have hweight : frame.state.weight = 6 := hstate ▸ rfl
  refine wp_bind (wp_atEnd hp (fun heof => wp_pure ?_) fun hahead => ?_)
  · obtain _ | ⟨outer, rest⟩ := below
    · refine ⟨(progress 0).refl p, .inl ⟨⟨hp, trivial, nofun, fun h => absurd rfl h, fun _ => heof⟩, ?_⟩⟩
      simp [stackMeasure, hweight]
    · exact .pops hrun hp ((progress 0).refl p) rfl (hrun.shape.2.1 outer rfl) (Nat.le_of_eq hweight.symm)
  have hnext {p' : Parser} (h : Stays p p') : ¬p'.At .eof := fun heof => hahead ((h.at_iff .eof).mp heof)
  refine wp_bind (wp_look hp fun _ _ => wp_ite (fun _ => ?_) fun _ => ?_)
  · refine wp_bind (wp_mono (reachPreamble_stays hp) fun _ p₁ h₁ => wp_pure (h₁.goes hrun (hnext h₁) ?_))
    exact Nat.lt_of_lt_of_eq (by decide) hweight.symm
  refine wp_bind (wp_look hp fun _ _ => wp_ite (fun _ => ?_) fun _ => ?_)
  · refine wp_bind (wp_mono (notAfter_stays hp) fun _ p₁ h₁ => wp_bind (wp_mono (notAfter_stays h₁.sound) ?_))
    intro _ p₂ h₂
    refine wp_pure ((h₁.trans h₂).goes hrun (hnext (h₁.trans h₂)) (Nat.lt_of_lt_of_eq (by decide) hweight.symm))
  refine wp_bind (wp_look hp fun _ _ => wp_ite (fun _ => ?_) fun _ => ?_)
  · refine wp_bind (wp_mono (notAfter_stays hp) fun _ p₁ h₁ => wp_bind (wp_mono (notAfter_stays h₁.sound) ?_))
    intro _ p₂ h₂
    refine wp_pure ((h₁.trans h₂).goes hrun (hnext (h₁.trans h₂)) (Nat.lt_of_lt_of_eq (by decide) hweight.symm))
  refine wp_bind (wp_look hp fun _ _ => wp_ite (fun _ => ?_) fun _ => ?_)
  · refine wp_bind (wp_mono (reachPreamble_stays hp) fun _ p₁ h₁ => ?_)
    refine wp_bind (wp_mono (parseMacroDecorator_passes h₁.sound (hnext h₁)) fun _ p₂ ⟨hp₂, hle₂, hlt₂⟩ => wp_pure ?_)
    refine .replaces hrun hp₂.1 ((progress 0).trans h₁.follows hle₂) rfl (hstate ▸ trivial) (.inl ?_)
    exact Nat.lt_of_le_of_lt h₁.follows.current hlt₂
  · refine wp_bind (wp_mono (reachPreamble_stays hp) fun _ p₁ h₁ => wp_pure (h₁.goes hrun (hnext h₁) ?_))
    exact Nat.lt_of_lt_of_eq (by decide) hweight.symm

theorem importState_goes (hstate : frame.state = .import) :
    wp (importState frame below) (StepGoes p (frame :: below)) p := by
  have hahead : ¬p.At .eof := hrun.ready hstate
  refine wp_passing hrun.sound hahead fun p₁ hp₁ hle₁ hlt₁ => ?_
  refine wp_bind (wp_keeps hp₁ fun _ p₂ hp₂ hle₂ => wp_bind (wp_keeps hp₂ fun _ p₃ hp₃ hle₃ => ?_))
  have hle := (progress 1).trans ((progress 1).trans hle₁ hle₂) hle₃
  refine backToFile_goes hrun hp₃.1 hle hahead fun _ => ?_
  exact Nat.lt_of_lt_of_le hlt₁ ((progress 1).trans hle₂ hle₃).current

theorem editionState_goes (hstate : frame.state = .edition) :
    wp (editionState frame below) (StepGoes p (frame :: below)) p := by
  have hahead : ¬p.At .eof := hrun.ready hstate
  refine wp_passing hrun.sound hahead fun p₁ hp₁ hle₁ hlt₁ => ?_
  refine wp_bind (wp_keeps hp₁ fun _ p₂ hp₂ hle₂ => wp_bind (wp_keeps hp₂ fun _ p₃ hp₃ hle₃ => ?_))
  refine wp_bind (wp_keeps hp₃ fun _ p₄ hp₄ hle₄ => wp_bind (wp_keeps hp₄ fun _ p₅ hp₅ hle₅ => ?_))
  have hle := (progress 1).trans ((progress 1).trans hle₂ hle₃) ((progress 1).trans hle₄ hle₅)
  exact backToFile_goes hrun hp₅.1 ((progress 1).trans hle₁ hle) hahead fun _ => Nat.lt_of_lt_of_le hlt₁ hle.current

theorem packageState_goes (hstate : frame.state = .package) :
    wp (packageState frame below) (StepGoes p (frame :: below)) p := by
  have hahead : ¬p.At .eof := hrun.ready hstate
  refine wp_bind (wp_passing hrun.sound hahead fun p₁ hp₁ hle₁ hlt₁ => ?_)
  refine wp_keeps hp₁ fun _ p₂ hp₂ hle₂ => wp_pure ?_
  exact .replaces hrun hp₂.1 ((progress 1).trans hle₁ hle₂) rfl trivial (.inl (Nat.lt_of_lt_of_le hlt₁ hle₂.current))

theorem definitionState_goes (hstate : frame.state = .definition) :
    wp (definitionState frame below) (StepGoes p (frame :: below)) p := by
  have hahead : ¬p.At .eof := hrun.ready hstate
  have hp : (progress 0).inv p := ⟨hrun.sound, Nat.zero_le _⟩
  refine wp_bind (wp_keeps hp fun decorators p₁ hp₁ hle₁ => wp_bind (wp_keeps hp₁ fun visibility p₂ hp₂ hle₂ => ?_))
  refine wp_bind (wp_keeps hp₂ fun isMutable p₃ hp₃ hle₃ => wp_bind (wp_keeps hp₃ fun _ p₄ hp₄ hle₄ => ?_))
  have hle := (progress 0).trans ((progress 0).trans hle₁ hle₂) ((progress 0).trans hle₃ hle₄)
  refine wp_bind (wp_currentToken hp₄.1 fun tok htok => wp_bind ?_)
  have hmut : wp (if isMutable && tok.kind ≠ .struct then
      parseErrorAt tok.span 103 ("'mut' cannot be applied to " ++ tok.kind.name) else pure () : Parse Unit)
      (fun _ => Stays p₄) p₄ :=
    wp_ite (fun _ => wp_parseErrorAt hp₄.1 fun p' hp' hstream hcurrent _ => ⟨hp', hstream, hcurrent⟩)
      fun _ => wp_pure ⟨hp₄.1, rfl, rfl⟩
  refine wp_mono hmut fun _ p₅ h₅ => ?_
  have hle₅ := (progress 0).trans hle h₅.follows
  dsimp only
  split
  next state hstart =>
    obtain ⟨hkind, hweight, hready⟩ := startState_ready hstart
    refine wp_pure (.replaces hrun h₅.sound hle₅ rfl (hready _ fun heof => ?_) (.inr ?_))
    · exact At.ne_eof htok hkind ((h₅.at_iff .eof).mp heof)
    · rw [hstate, hweight]
      decide
  next =>
    refine wp_bind (wp_notADefinition h₅.sound fun p₆ hp₆ hstream hcurrent hpanic => ?_)
    have hle₆ := (progress 0).trans hle₅ ⟨hstream, Nat.le_of_eq hcurrent.symm⟩
    refine wp_bind (wp_mono (recover_passes synchronize_skips hp₆ hle₆ hahead fun hcalm => ?_) ?_)
    · rw [hpanic] at hcalm
      exact nomatch hcalm
    · exact fun _ p₇ ⟨hp₇, hle₇, hlt₇⟩ => wp_pure (.replaces hrun hp₇ hle₇ rfl trivial (.inl hlt₇))

theorem defStart_goes {message : String} {kind : DefKind} {clause : Parse γ} [Keeps (progress 1) clause]
    {body : OpenDef → γ → ParseState} (hahead : ¬p.At .eof)
    (hready : ∀ d c (p' : Parser), 1 ≤ p'.current → (body d c).Ready p') :
    wp (defStart message kind clause body frame below) (StepGoes p (frame :: below)) p := by
  refine wp_passing hrun.sound hahead fun p₁ hp₁ hle₁ hlt₁ => ?_
  have hback {p₂ : Parser} (hp₂ : (progress 1).inv p₂) (hle₂ : Follows p₁ p₂) :
      wp (backToFile frame below) (StepGoes p (frame :: below)) p₂ :=
    backToFile_goes hrun hp₂.1 ((progress 1).trans hle₁ hle₂) hahead fun _ => Nat.lt_of_lt_of_le hlt₁ hle₂.current
  refine wp_bind (wp_previousToken hp₁.1 hp₁.2 fun keyword => wp_bind (wp_keeps hp₁ fun named p₂ hp₂ hle₂ => ?_))
  refine wp_ite (fun _ => ?_) fun _ => hback hp₂ hle₂
  refine wp_bind (wp_previousToken hp₂.1 hp₂.2 fun name => wp_bind (wp_keeps hp₂ fun _ p₃ hp₃ hle₃ => ?_))
  refine wp_bind (wp_keeps hp₃ fun c p₄ hp₄ hle₄ => wp_bind (wp_keeps hp₄ fun opened p₅ hp₅ hle₅ => ?_))
  have hle := (progress 1).trans ((progress 1).trans hle₂ hle₃) ((progress 1).trans hle₄ hle₅)
  refine wp_ite (fun _ => wp_bind (wp_keeps hp₅ fun _ p₆ hp₆ hle₆ => wp_pure ?_)) fun _ => hback hp₅ hle
  have hle' := (progress 1).trans hle₁ ((progress 1).trans hle hle₆)
  exact .replaces hrun hp₆.1 hle' rfl (hready _ _ _ hp₆.2)
    (.inl (Nat.lt_of_lt_of_le hlt₁ ((progress 1).trans hle hle₆).current))

theorem bodyEnd_goes {d : OpenDef} {body : Body} {nested : Bool} {check : Def → Parse Unit}
    [hcheck : ∀ d, Keeps (progress 1) (check d)] (hp : (progress 1).inv p)
    (hweight : frame.state.weight = 7) (hnested : nested = true → frame.nested = true) :
    wp (bodyEnd d body nested check frame below) (StepGoes p (frame :: below)) p := by
  refine wp_bind (wp_keeps hp fun _ p₁ hp₁ hle₁ => wp_bind (wp_previousToken hp₁.1 hp₁.2 fun rbrace => ?_))
  refine wp_bind (wp_keeps hp₁ fun _ p₂ hp₂ hle₂ => wp_bind (wp_keeps hp₂ fun _ p₃ hp₃ hle₃ => ?_))
  refine wp_bind (wp_keeps hp₃ fun _ p₄ hp₄ hle₄ => ?_)
  have hle := (progress 1).trans ((progress 1).trans hle₁ hle₂) ((progress 1).trans hle₃ hle₄)
  refine wp_ite (fun his => ?_) fun _ => ?_
  · obtain _ | ⟨outer, rest⟩ := below
    · exact absurd rfl (hrun.shape.1 (hnested his))
    · obtain ⟨state, hadd, htakes⟩ := TakesNested.addNested (hrun.shape.2.1 outer rfl) (d.close rbrace.span body)
      dsimp only
      rw [hadd]
      exact wp_pure (.pops hrun hp₄.1 hle rfl htakes (hweight ▸ by decide))
  · refine wp_bind (wp_keeps hp₄ fun _ p₅ hp₅ hle₅ => wp_pure ?_)
    refine .replaces hrun hp₅.1 ((progress 1).trans hle hle₅) rfl trivial (.inr ?_)
    rw [hweight]
    exact Nat.lt_succ_self 6

theorem member_goes {member : Attempt α} {state : List α → ParseState} (h : Enters member)
    (hstarted : 1 ≤ p.current) (hahead : ¬p.At .eof) (hstays : Stays p p')
    (hready : ∀ read (p' : Parser), 1 ≤ p'.current → (state read).Ready p') :
    wp (do
      let read ← bodyMember member
      return { frame with state := state read } :: below) (StepGoes p (frame :: below)) p' := by
  have hp' : (progress 1).inv p' := ⟨hstays.sound, hstays.current ▸ hstarted⟩
  refine wp_bind (wp_mono (bodyMember_passes h hp' fun heof => hahead ((hstays.at_iff .eof).mp heof)) ?_)
  intro read p₁ ⟨hp₁, hle₁, hlt₁⟩
  refine wp_pure (.replaces hrun hp₁.1 ((progress 1).trans hstays.follows hle₁) rfl (hready read p₁ hp₁.2) (.inl ?_))
  rw [← hstays.current]
  exact hlt₁

theorem nesting_goes {ending goes : Parse (List Frame)} (hp : (progress 1).inv p)
    (htakes : frame.state.TakesNested) (hending : wp ending (StepGoes p (frame :: below)) p)
    (hgoes : ∀ p', Stays p p' → ¬p.At .eof → wp goes (StepGoes p (frame :: below)) p') :
    wp (do
      if ← atBodyEnd then ending
      else if ← isNestedDefStart then pushDefinition (frame :: below)
      else goes) (StepGoes p (frame :: below)) p := by
  refine wp_bind (wp_atBodyEnd hp.1 hending fun hahead => wp_bind ?_)
  refine wp_isNestedDefStart hp.1 fun r p₁ hp₁ hstream hcurrent _ => wp_ite (fun _ => ?_) fun _ => ?_
  · refine wp_ite (fun hfull => wp_bind (wp_modify (wp_pure ?_))) fun hroom => ?_
    · refine ⟨⟨hstream, Nat.le_of_eq hcurrent.symm⟩, .inr ⟨hp₁.inside, rfl, ?_⟩⟩
      exact List.append_ne_nil_of_right_ne_nil _ (List.cons_ne_nil _ _)
    · exact wp_push (Nat.lt_of_not_le hroom) (.pushes hrun hp₁ hstream hcurrent hahead hp.2 htakes)
  · exact hgoes p₁ ⟨hp₁, hstream, hcurrent⟩ hahead

theorem enumBody_goes {d : OpenDef} {baseType : Scalar} {members : List EnumMember}
    (hstate : frame.state = .enumBody d baseType members) :
    wp (enumBody d baseType members frame below) (StepGoes p (frame :: below)) p := by
  have hstarted : 1 ≤ p.current := hrun.ready hstate
  refine wp_bind (wp_atBodyEnd hrun.sound ?_ fun hahead => ?_)
  · rw [if_pos rfl]
    exact bodyEnd_goes hrun ⟨hrun.sound, hstarted⟩ (hstate ▸ rfl) fun h => h
  · exact member_goes hrun (parseEnumMember_enters _ _ _) hstarted hahead ⟨hrun.sound, rfl, rfl⟩ fun _ _ h => h

theorem structBody_goes {d : OpenDef} {isMutable : Bool} {fields : List Field}
    (hstate : frame.state = .structBody d isMutable fields) :
    wp (structBody d isMutable fields frame below) (StepGoes p (frame :: below)) p := by
  have hstarted : 1 ≤ p.current := hrun.ready hstate
  have hp : (progress 1).inv p := ⟨hrun.sound, hstarted⟩
  refine nesting_goes hrun hp (hstate ▸ .struct _ _ _) ?_ fun p₁ h₁ hahead => ?_
  · exact bodyEnd_goes hrun hp (hstate ▸ rfl) fun h => h
  · exact member_goes hrun (parseField_enters _ _ _) hstarted hahead h₁ fun _ _ h => h

theorem messageBody_goes {d : OpenDef} {fields : List Field}
    (hstate : frame.state = .messageBody d fields) :
    wp (messageBody d fields frame below) (StepGoes p (frame :: below)) p := by
  have hstarted : 1 ≤ p.current := hrun.ready hstate
  have hp : (progress 1).inv p := ⟨hrun.sound, hstarted⟩
  refine nesting_goes hrun hp (hstate ▸ .message _ _) ?_ fun p₁ h₁ hahead => ?_
  · exact bodyEnd_goes hrun hp (hstate ▸ rfl) fun h => h
  · exact member_goes hrun (parseField_enters _ _ _) hstarted hahead h₁ fun _ _ h => h

theorem unionBody_goes {d : OpenDef} {branches : List Branch}
    (hstate : frame.state = .unionBody d branches) :
    wp (unionBody d branches frame below) (StepGoes p (frame :: below)) p := by
  have hstarted : 1 ≤ p.current := hrun.ready hstate
  have hp : (progress 1).inv p := ⟨hrun.sound, hstarted⟩
  refine nesting_goes hrun hp (hstate ▸ .union _ _) ?_ fun p₁ h₁ hahead => ?_
  · exact bodyEnd_goes hrun hp (hstate ▸ rfl) fun h => h
  · refine wp_pure (h₁.goes hrun ⟨h₁.current ▸ hstarted, fun heof => hahead ((h₁.at_iff .eof).mp heof)⟩ ?_)
    rw [hstate]
    exact Nat.lt_succ_self 6

theorem unionBranch_goes {d : OpenDef} {branches : List Branch}
    (hstate : frame.state = .unionBranch d branches) :
    wp (unionBranch d branches frame below) (StepGoes p (frame :: below)) p := by
  have hready : 1 ≤ p.current ∧ ¬p.At .eof := hrun.ready hstate
  refine wp_bind (wp_keeps (P := progress 1) ⟨hrun.sound, hready.1⟩ fun decorators p₁ hp₁ hle₁ => ?_)
  refine wp_bind (wp_currentToken hp₁.1 fun tok _ => wp_bind ?_)
  refine wp_mono (parseBranch_passes hp₁ hle₁ hready.2) fun r p₂ ⟨hp₂, hle₂, hlt₂⟩ => ?_
  split
  · exact wp_pure (.replaces hrun hp₂.1 hle₂ rfl hp₂.2 (.inl hlt₂))
  · exact wp_pure (.replaces hrun hp₂.1 hle₂ rfl hp₂.2 (.inl hlt₂))

theorem serviceBody_goes {d : OpenDef} {methods : List Method} {mixins : List Ty}
    (hstate : frame.state = .serviceBody d methods mixins) :
    wp (serviceBody d methods mixins frame below) (StepGoes p (frame :: below)) p := by
  have hstarted : 1 ≤ p.current := hrun.ready hstate
  refine wp_bind (wp_atBodyEnd hrun.sound ?_ fun hahead => ?_)
  · rw [if_pos rfl]
    exact bodyEnd_goes hrun ⟨hrun.sound, hstarted⟩ (hstate ▸ rfl) nofun
  · exact member_goes hrun (parseMethodInline_enters _ _) hstarted hahead ⟨hrun.sound, rfl, rfl⟩ fun _ _ h => h

theorem constStart_goes (hahead : ¬p.At .eof) :
    wp (constStart frame below) (StepGoes p (frame :: below)) p := by
  refine wp_passing hrun.sound hahead fun p₁ hp₁ hle₁ hlt₁ => ?_
  refine wp_bind (wp_previousToken hp₁.1 hp₁.2 fun keyword => wp_bind (wp_keeps hp₁ fun r p₂ hp₂ hle₂ => ?_))
  split
  · exact backToFile_goes hrun hp₂.1 ((progress 1).trans hle₁ hle₂) hahead fun _ => Nat.lt_of_lt_of_le hlt₁ hle₂.current
  · refine wp_bind (wp_keeps hp₂ fun _ p₃ hp₃ hle₃ => wp_bind (wp_keeps hp₃ fun _ p₄ hp₄ hle₄ => wp_pure ?_))
    have hle := (progress 1).trans hle₂ ((progress 1).trans hle₃ hle₄)
    exact .replaces hrun hp₄.1 ((progress 1).trans hle₁ hle) rfl trivial (.inl (Nat.lt_of_lt_of_le hlt₁ hle.current))

/-! ## The whole run -/

theorem parseStep_goes :
    wp (parseStep frame below) (StepGoes p (frame :: below)) p := by
  unfold parseStep
  split
  next h => exact fileState_goes hrun h
  next h => exact importState_goes hrun h
  next h => exact editionState_goes hrun h
  next h => exact packageState_goes hrun h
  next h => exact definitionState_goes hrun h
  next h => exact defStart_goes hrun (hrun.ready h) fun _ _ _ h => h
  next h => exact enumBody_goes hrun h
  next h => exact defStart_goes hrun (hrun.ready h) fun _ _ _ h => h
  next h => exact structBody_goes hrun h
  next h => exact defStart_goes hrun (hrun.ready h) fun _ _ _ h => h
  next h => exact messageBody_goes hrun h
  next h => exact defStart_goes hrun (hrun.ready h) fun _ _ _ h => h
  next h => exact unionBody_goes hrun h
  next h => exact unionBranch_goes hrun h
  next h => exact defStart_goes hrun (hrun.ready h) fun _ _ _ h => h
  next h => exact serviceBody_goes hrun h
  next h => exact constStart_goes hrun (hrun.ready h)

end

/-- What the parser ends with: its cursor at the end of the file, or a fatal error. -/
structure Finished (p p' : Parser) : Prop where
  stream : p'.stream = p.stream
  inside : p'.current < p'.stream.length
  ends : p'.At .eof ∨ (p'.fatal = true ∧ p'.contextErrors ≠ [])

/-- Between two rounds the machine runs, or an error was fatal. -/
def FileInv (p : Parser) (stack : List Frame) (p' : Parser) : Prop := Follows p p' ∧ (Running stack p' ∨ Fatal p')

/-- The rounds of the machine; a fatal error leaves one. -/
def fileMeasure (stack : List Frame) (p : Parser) : Nat := if p.fatal then 0 else stackMeasure stack p + 1

theorem fileRound_runs {stack : List Frame} {p₁ : Parser} (hinv : FileInv p stack p₁) :
    wp (fileRound stack) (fun r p' =>
      (∀ stack', r = .inl stack' → FileInv p stack' p' ∧ fileMeasure stack' p' < fileMeasure stack p₁) ∧
        ∀ c, r = .inr c → Finished p p') p₁ := by
  obtain ⟨hle₁, hrunning⟩ := hinv
  obtain _ | ⟨frame, below⟩ := stack
  · refine wp_pure ⟨nofun, fun _ _ => ?_⟩
    rcases hrunning with hrun | hfatal
    · exact ⟨hle₁.stream, hrun.sound.inside, .inl (hrun.ended rfl)⟩
    · exact ⟨hle₁.stream, hfatal.inside, .inr ⟨hfatal.fatal, hfatal.reported⟩⟩
  refine wp_bind (wp_get (wp_ite (fun hstops => wp_pure ⟨nofun, fun _ _ => ?_⟩) fun hgoes => wp_bind ?_))
  · have hfatal : Fatal p₁ := by
      refine hrunning.resolve_left fun hrun => ?_
      rw [hrun.sound.running] at hstops
      exact nomatch hstops
    exact ⟨hle₁.stream, hfatal.inside, .inr ⟨hfatal.fatal, hfatal.reported⟩⟩
  · have hrun : Running (frame :: below) p₁ := hrunning.resolve_right fun h => hgoes h.fatal
    refine wp_mono (parseStep_goes hrun) fun stack' p₂ ⟨hle₂, hstep⟩ => wp_pure ⟨?_, nofun⟩
    rintro _ ⟨rfl⟩
    refine ⟨⟨(progress 0).trans hle₁ hle₂, hstep.imp_left And.left⟩, ?_⟩
    unfold fileMeasure
    rw [if_neg hgoes]
    rcases hstep with ⟨_, hless⟩ | hfatal
    · split <;> omega
    · rw [if_pos hfatal.fatal]
      exact Nat.succ_pos _

theorem parseFile_finishes (hp : p.Sound) : wp parseFile (fun _ => Finished p) p := by
  refine wp_bind (wp_bind (wp_get (wp_pure ?_)))
  refine wp_loop (FileInv p) fileMeasure (fun stack p₁ hinv => fileRound_runs hinv) ?_ ?_
  · refine ⟨(progress 0).refl p, .inl ⟨hp, ⟨nofun, nofun, trivial⟩, ?_, fun h => absurd rfl h, nofun⟩⟩
    rintro _ ⟨⟩
    trivial
  · show (if p.fatal then 0 else 10 * (p.stream.length - p.current) + 6 + 1) < 10 * (p.stream.length + 1)
    split <;> omega

end Parser

/-- From every place behind a token the parts return, at the same place or a later one. -/
structure PartsReturn : Prop where
  synchronize : Keeps (Parser.progress 1) Parser.synchronize
  synchronizeInBlock : Keeps (Parser.progress 1) Parser.synchronizeInBlock
  synchronizeInDecorator : Keeps (Parser.progress 1) Parser.synchronizeInDecorator
  decorators : Keeps (Parser.progress 1) Parser.parseDecorators
  type : Keeps (Parser.progress 1) Parser.parseType.run
  literal : ∀ expected, Keeps (Parser.progress 1) (Parser.parseLiteral expected).run
  expression : ∀ members, Keeps (Parser.progress 1) (Parser.parseExpression members)
  enumMember : ∀ decorators baseType members,
    Keeps (Parser.progress 1) (Parser.parseEnumMember decorators baseType members).run
  field : ∀ name kind isMessage,
    Keeps (Parser.progress 1) (Parser.parseField name kind isMessage).run
  method : ∀ service methods,
    Keeps (Parser.progress 1) (Parser.parseMethodInline service methods).run
  macroBody : Keeps (Parser.progress 1) Parser.macroBody

theorem parts_return : PartsReturn where
  synchronize := inferInstance
  synchronizeInBlock := inferInstance
  synchronizeInDecorator := inferInstance
  decorators := inferInstance
  type := inferInstance
  literal _ := inferInstance
  expression _ := inferInstance
  enumMember decorators baseType members := (Parser.parseEnumMember_enters decorators baseType members).keeps
  field name kind isMessage := (Parser.parseField_enters name kind isMessage).keeps
  method service methods := (Parser.parseMethodInline_enters service methods).keeps
  macroBody := inferInstance

/-- **Every parse comes to its end**, at the end of the file or with a fatal error. -/
theorem parser_finishes (host : Host) (stream : List Token)
    (hstream : ∃ tok, stream.getLast? = some tok ∧ tok.kind = .eof) :
    (∃ p, parseTokensInto host stream = .ok p ∧ Parser.Finished (.start host stream) p) ∧ PartsReturn := by
  obtain ⟨tok, hlast, heof⟩ := hstream
  have hne : stream ≠ [] := by
    rintro rfl
    exact nomatch hlast
  have hsound : (Parser.start host stream).Sound := by
    refine ⟨List.length_pos_iff.mpr hne, ⟨tok, ?_, heof⟩, rfl⟩
    rw [← hlast, List.getLast?_eq_getElem?]
    rfl
  obtain ⟨_, p, hrun, hfinished⟩ := Parser.parseFile_finishes hsound
  refine ⟨⟨p, ?_, hfinished⟩, parts_return⟩
  unfold parseTokensInto
  rw [if_neg hne, hrun]
  rfl

/-- A host without an environment, which reads no literal. -/
def Host.bare : Host := ⟨[], fun _ => none, fun _ => none, fun _ => none, fun _ => none⟩

/-- The tokens of `struct @ {`. -/
def brokenStruct : List Token :=
  [⟨.struct, ⟨0, 6, 1, 1, 1, 7⟩, [], [], []⟩, ⟨.at, ⟨7, 1, 1, 8, 1, 9⟩, [], [], []⟩,
    ⟨.lbrace, ⟨9, 1, 1, 10, 1, 11⟩, [], [], []⟩, ⟨.eof, ⟨10, 0, 1, 11, 1, 11⟩, [], [], []⟩]

theorem parser_finishes_struct : (∃ p, parseTokensInto .bare brokenStruct = .ok p ∧
    Parser.Finished (.start .bare brokenStruct) p) ∧ PartsReturn :=
  parser_finishes .bare brokenStruct ⟨⟨.eof, ⟨10, 0, 1, 11, 1, 11⟩, [], [], []⟩, rfl, rfl⟩

end Bebop.Compiler
